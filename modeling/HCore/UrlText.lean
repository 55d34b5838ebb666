import HCore.PortRange

/-!
The URL parser. A text is split at its first colon; behind it stands a port,
and before it a host. A listening side may leave the host out or name all of
them. The error field is written on some of the ways out, so a call on a
structure that was used before may leave what an earlier call wrote.
-/

namespace HCore.UrlText

open Machine BitMap DecimalText NetMask NumberText PortRange

/-- `hcore_url_t`; a string is given by its bytes, and what is stored in
network byte order by the bytes in memory. -/
structure Url where
  family : ℕ
  sinFamily : ℕ
  sinPort : List UInt8
  sinAddr : List UInt8
  socklen : ℕ
  port : ℕ
  portText : List UInt8
  host : List UInt8
  urlText : List UInt8
  err : Option String
  listen : Bool
  deriving DecidableEq, Repr

def afInet : ℕ := 2

/-- `sizeof(struct sockaddr_in)`. -/
def sizeofSockaddrIn : ℕ := 16

def inaddrAny : List UInt8 := [0, 0, 0, 0]

def htons (port : ℕ) : List UInt8 := [UInt8.ofNat (port >>> 8), UInt8.ofNat port]

/-- The text `unix:`. -/
def unixText : List UInt8 := [117, 110, 105, 120, 58]

/-- The text `*`. -/
def starText : List UInt8 := [42]

/-- The part of `hcore_parse_inet_sock` behind the port. -/
def parseHost (host : List UInt8) (url : Url) : ℤ × Url :=
  if host.length = 0 then (hcoreError, { url with err := some "no host" })
  else
    let url := { url with host := host }
    if host.length = 1 ∧ host.head? = some 42 then
      if url.listen = false then
        (hcoreError, { url with err := some "unsupport '*' for no listen" })
      else (hcoreOk, { url with sinAddr := inaddrAny })
    else
      let url := { url with sinAddr := inetAddr host }
      if url.sinAddr = inaddrNone then (hcoreError, { url with err := some "invalid ip" })
      else (hcoreOk, { url with err := none })

def parseInetSock (str : List UInt8) (url : Url) : Exec (ℤ × Url) :=
  if str.length = 0 then pure (hcoreError, url)
  else
    let url := { url with socklen := sizeofSockaddrIn, family := afInet, sinFamily := afInet }
    match strlchr str 58 with
    | some p => do
      let portText := str.drop (p + 1)
      let n ← atoi portText
      if n < 1 ∨ 65535 < n then pure (hcoreError, { url with err := some "invalid port" })
      else
        pure (parseHost (str.take p)
          { url with port := n.toNat, sinPort := htons n.toNat, portText := portText })
    | none =>
      if url.listen = false then pure (hcoreError, { url with err := some "need a host" })
      else do
        let n ← atoi str
        if n = hcoreError then pure (hcoreError, { url with err := some "no port" })
        else if n < 1 ∨ 65535 < n then
          pure (hcoreError, { url with err := some "invalid port" })
        else
          pure (hcoreOk, { url with
            port := n.toNat, sinPort := htons n.toNat, sinAddr := inaddrAny, portText := str,
            host := starText })

def parseUnixSock (_str : List UInt8) (url : Url) : Exec (ℤ × Url) := pure (hcoreError, url)

/-- The parser on a C string, given by its bytes before the zero. -/
def parseUrl (str : List UInt8) (url : Url) : Exec (ℤ × Url) :=
  let url := { url with urlText := str }
  if unixText.length + 1 ≤ str.length ∧ str.take unixText.length = unixText then
    parseUnixSock (str.drop unixText.length) url
  else parseInetSock str url

def parseListen (str : List UInt8) (url : Url) : Exec (ℤ × Url) :=
  parseUrl str { url with listen := true }

/-- The forms of a text, and the host, the text and number of the port and the
address that they give. -/
inductive UrlForm (listen : Bool) :
    List UInt8 → List UInt8 → List UInt8 → ℕ → List UInt8 → Prop
  | address {host portText : List UInt8} {p : ℕ} (hhost : 58 ∉ host) (hp : Port portText p)
    (haddr : inetAddr host ≠ inaddrNone) :
    UrlForm listen (host ++ 58 :: portText) host portText p (inetAddr host)
  | wildcard {portText : List UInt8} {p : ℕ} (hlisten : listen = true) (hp : Port portText p) :
    UrlForm listen (starText ++ 58 :: portText) starText portText p inaddrAny
  | portOnly {portText : List UInt8} {p : ℕ} (hlisten : listen = true) (hp : Port portText p) :
    UrlForm listen portText starText portText p inaddrAny

/-- The forms that leave the address open. -/
def OpenForm (listen : Bool) (str : List UInt8) : Prop :=
  ∃ portText p, UrlForm listen str starText portText p inaddrAny

section

variable {listen : Bool} {str host portText addr a b : List UInt8} {p : ℕ} {url : Url}

theorem colon_not_digit : ¬ IsDigit 58 := by decide

theorem inetAddr_star : inetAddr starText = inaddrNone := by decide

/-- The structure after a call that accepts a text. -/
structure Accepted (url url' : Url) (host portText : List UInt8) (p : ℕ) (addr : List UInt8) :
    Prop where
  host_eq : url'.host = host
  portText_eq : url'.portText = portText
  port_eq : url'.port = p
  sinPort_eq : url'.sinPort = htons p
  sinAddr_eq : url'.sinAddr = addr
  family_eq : url'.family = afInet ∧ url'.sinFamily = afInet ∧ url'.socklen = sizeofSockaddrIn
  listen_eq : url'.listen = url.listen

/-- A text with a colon, by its two parts. -/
theorem urlForm_colon (ha : 58 ∉ a) :
    UrlForm listen (a ++ 58 :: b) host portText p addr ↔
      host = a ∧ portText = b ∧ Port b p ∧
        ((inetAddr a ≠ inaddrNone ∧ addr = inetAddr a) ∨
          (a = starText ∧ listen = true ∧ addr = inaddrAny)) := by
  constructor
  · intro h
    generalize htext : a ++ 58 :: b = text at h
    cases h with
    | address hhost hp haddr =>
      obtain ⟨rfl, rfl⟩ := split_unique ha hhost htext
      exact ⟨rfl, rfl, hp, Or.inl ⟨haddr, rfl⟩⟩
    | wildcard hlisten hp =>
      obtain ⟨rfl, rfl⟩ := split_unique ha (by decide) htext
      exact ⟨rfl, rfl, hp, Or.inr ⟨rfl, hlisten, rfl⟩⟩
    | portOnly hlisten hp =>
      subst htext
      exact absurd (by simp) (hp.not_mem colon_not_digit)
  · rintro ⟨rfl, rfl, hp, ⟨haddr, rfl⟩ | ⟨rfl, hlisten, rfl⟩⟩
    · exact UrlForm.address ha hp haddr
    · exact UrlForm.wildcard hlisten hp

theorem urlForm_plain (hstr : 58 ∉ str) : UrlForm listen str host portText p addr ↔
    host = starText ∧ portText = str ∧ Port str p ∧ listen = true ∧ addr = inaddrAny := by
  constructor
  · intro h
    cases h with
    | address hhost hp haddr => exact absurd (by simp) hstr
    | wildcard hlisten hp => exact absurd (by simp) hstr
    | portOnly hlisten hp => exact ⟨rfl, rfl, hp, hlisten, rfl⟩
  · rintro ⟨rfl, rfl, hp, hlisten, rfl⟩
    exact UrlForm.portOnly hlisten hp

theorem openForm_colon (ha : 58 ∉ a) :
    OpenForm listen (a ++ 58 :: b) ↔ a = starText ∧ listen = true ∧ ∃ p, Port b p := by
  constructor
  · rintro ⟨portText, p, h⟩
    obtain ⟨rfl, -, hp, ⟨hne, -⟩ | ⟨-, hlisten, -⟩⟩ := (urlForm_colon ha).mp h
    · exact absurd inetAddr_star hne
    · exact ⟨rfl, hlisten, p, hp⟩
  · rintro ⟨rfl, hlisten, p, hp⟩
    exact ⟨b, p, UrlForm.wildcard hlisten hp⟩

theorem openForm_plain (hstr : 58 ∉ str) :
    OpenForm listen str ↔ listen = true ∧ ∃ p, Port str p := by
  constructor
  · rintro ⟨portText, p, h⟩
    obtain ⟨-, -, hp, hlisten, -⟩ := (urlForm_plain hstr).mp h
    exact ⟨hlisten, p, hp⟩
  · rintro ⟨hlisten, p, hp⟩
    exact ⟨str, p, UrlForm.portOnly hlisten hp⟩

theorem length_eq_one_star (host : List UInt8) :
    host.length = 1 ∧ host.head? = some 42 ↔ host = starText := by
  match host with
  | [] => simp [starText]
  | [c] => simp [starText]
  | _ :: _ :: _ => simp [starText]

/-- The ways out behind the port. -/
theorem parseHost_cases (host : List UInt8) (url : Url) :
    (inetAddr host ≠ inaddrNone ∧ parseHost host url =
        (hcoreOk, { url with host := host, sinAddr := inetAddr host, err := none })) ∨
      (host = starText ∧ url.listen = true ∧ parseHost host url =
        (hcoreOk, { url with host := host, sinAddr := inaddrAny })) ∨
      (inetAddr host = inaddrNone ∧ (host = starText → url.listen = false) ∧
        ∃ url', parseHost host url = (hcoreError, url') ∧ url'.err ≠ none ∧
          url'.listen = url.listen) := by
  unfold parseHost
  by_cases hlen : host.length = 0
  · obtain rfl := List.length_eq_zero_iff.mp hlen
    exact Or.inr (Or.inr ⟨by decide, by simp [starText], _, rfl, by simp, rfl⟩)
  rw [if_neg hlen]
  by_cases hstar : host = starText
  · subst hstar
    rw [if_pos ((length_eq_one_star _).mpr rfl)]
    dsimp only
    by_cases hlisten : url.listen = false
    · rw [if_pos hlisten]
      exact Or.inr (Or.inr ⟨inetAddr_star, fun _ => hlisten, _, rfl, by simp, rfl⟩)
    · rw [if_neg hlisten]
      exact Or.inr (Or.inl ⟨rfl, by simpa using hlisten, rfl⟩)
  · rw [if_neg ((length_eq_one_star _).not.mpr hstar)]
    dsimp only
    by_cases hnone : inetAddr host = inaddrNone
    · rw [if_pos hnone]
      exact Or.inr (Or.inr ⟨hnone, fun h => absurd h hstar, _, rfl, by simp, rfl⟩)
    · rw [if_neg hnone]
      exact Or.inl ⟨hnone, rfl⟩

end

/-- What a call does with the error field. -/
structure Outcome (str : List UInt8) (url url' : Url) (code : ℤ) : Prop where
  listen_eq : url'.listen = url.listen
  err_ok : code = hcoreOk →
    (OpenForm url.listen str → url'.err = url.err) ∧ (¬ OpenForm url.listen str → url'.err = none)
  err_error : code = hcoreError → url'.err ≠ none

section

variable {str : List UInt8} {url url' : Url}

theorem Outcome.of_error (hlisten : url'.listen = url.listen) (herr : url'.err ≠ none) :
    Outcome str url url' hcoreError :=
  ⟨hlisten, fun h => absurd h (by decide), fun _ => herr⟩

theorem Outcome.of_open (hlisten : url'.listen = url.listen) (hopen : OpenForm url.listen str)
    (herr : url'.err = url.err) : Outcome str url url' hcoreOk :=
  ⟨hlisten, fun _ => ⟨fun _ => herr, fun h => absurd hopen h⟩, fun h => absurd h (by decide)⟩

theorem Outcome.of_closed (hlisten : url'.listen = url.listen) (hopen : ¬ OpenForm url.listen str)
    (herr : url'.err = none) : Outcome str url url' hcoreOk :=
  ⟨hlisten, fun _ => ⟨fun h => absurd h hopen, fun _ => herr⟩, fun h => absurd h (by decide)⟩

end

/-- The ways out of the parser of a text that is not empty. -/
theorem parseInetSock_cases {str : List UInt8} (hne : str ≠ []) (url : Url) :
    (∃ host portText p addr url', UrlForm url.listen str host portText p addr ∧
        parseInetSock str url = Except.ok (hcoreOk, url') ∧
        Accepted url url' host portText p addr ∧ Outcome str url url' hcoreOk) ∨
      ((∀ host portText p addr, ¬ UrlForm url.listen str host portText p addr) ∧
        ∃ url', parseInetSock str url = Except.ok (hcoreError, url') ∧
          Outcome str url url' hcoreError) := by
  have hlen : str.length ≠ 0 := List.length_eq_zero_iff.not.mpr hne
  unfold parseInetSock
  rw [if_neg hlen]
  rcases strlchr_cases str 58 with ⟨a, b, rfl, ha⟩ | ⟨hcolon, hnone⟩
  · rw [strlchr_append ha]
    dsimp only
    rw [drop_append_cons, List.take_left]
    simp only [urlForm_colon ha]
    rcases atoi_cases b with ⟨p, hp, hrun⟩ | ⟨hnot, n, hrun, hn⟩
    · obtain ⟨hlow, hhigh⟩ := hp.2
      rw [hrun, ok_bind, if_neg (by omega), Int.toNat_natCast, pure_eq_ok]
      rcases parseHost_cases a _ with ⟨haddr, hhost⟩ | ⟨rfl, hlisten, hhost⟩ |
        ⟨hnone, hstar, url', hhost, herr, hlisten⟩
      · have hopen : ¬ OpenForm url.listen (a ++ 58 :: b) := by
          rw [openForm_colon ha]
          rintro ⟨rfl, -⟩
          exact haddr inetAddr_star
        exact Or.inl ⟨a, b, p, _, _, ⟨rfl, rfl, hp, Or.inl ⟨haddr, rfl⟩⟩,
          congrArg Except.ok hhost, ⟨rfl, rfl, rfl, rfl, rfl, ⟨rfl, rfl, rfl⟩, rfl⟩,
          Outcome.of_closed rfl hopen rfl⟩
      · have hopen : OpenForm url.listen (starText ++ 58 :: b) :=
          (openForm_colon ha).mpr ⟨rfl, hlisten, p, hp⟩
        exact Or.inl ⟨starText, b, p, _, _, ⟨rfl, rfl, hp, Or.inr ⟨rfl, hlisten, rfl⟩⟩,
          congrArg Except.ok hhost, ⟨rfl, rfl, rfl, rfl, rfl, ⟨rfl, rfl, rfl⟩, rfl⟩,
          Outcome.of_open rfl hopen rfl⟩
      · refine Or.inr ⟨?_, url', congrArg Except.ok hhost, Outcome.of_error hlisten herr⟩
        rintro _ _ _ _ ⟨-, -, -, ⟨haddr, -⟩ | ⟨hhost', hl, -⟩⟩
        · exact haddr hnone
        · exact absurd (hl.symm.trans (hstar hhost')) (by simp)
    · rw [hrun, ok_bind, if_pos hn, pure_eq_ok]
      exact Or.inr ⟨fun _ _ p _ h => hnot p h.2.2.1, _, rfl, Outcome.of_error rfl (by simp)⟩
  · rw [hnone]
    dsimp only
    simp only [urlForm_plain hcolon]
    by_cases hlisten : url.listen = false
    · rw [if_pos hlisten, pure_eq_ok]
      refine Or.inr ⟨fun _ _ _ _ h => ?_, _, rfl, Outcome.of_error rfl (by simp)⟩
      exact absurd (h.2.2.2.1.symm.trans hlisten) (by simp)
    · rw [if_neg hlisten]
      rcases atoi_cases str with ⟨p, hp, hrun⟩ | ⟨hnot, n, hrun, hn⟩
      · obtain ⟨hlow, hhigh⟩ := hp.2
        have hopen : OpenForm url.listen str :=
          (openForm_plain hcolon).mpr ⟨by simpa using hlisten, p, hp⟩
        rw [hrun, ok_bind, if_neg (by unfold hcoreError; omega), if_neg (by omega),
          Int.toNat_natCast, pure_eq_ok]
        exact Or.inl ⟨starText, str, p, inaddrAny, _,
          ⟨rfl, rfl, hp, by simpa using hlisten, rfl⟩, rfl,
          ⟨rfl, rfl, rfl, rfl, rfl, ⟨rfl, rfl, rfl⟩, rfl⟩, Outcome.of_open rfl hopen rfl⟩
      · refine Or.inr ⟨fun _ _ p _ h => hnot p h.2.2.1, ?_⟩
        rw [hrun, ok_bind]
        split
        · exact ⟨_, rfl, Outcome.of_error rfl (by simp)⟩
        · exact ⟨_, rfl, Outcome.of_error rfl (by simp)⟩

theorem not_urlForm_nil {listen : Bool} {host portText addr : List UInt8} {p : ℕ} :
    ¬ UrlForm listen [] host portText p addr := by
  rw [urlForm_plain (by simp)]
  rintro ⟨-, -, hp, -⟩
  exact hp.1.1 rfl

theorem parseUrl_inet {str : List UInt8} (h : ¬ unixText <+: str) (url : Url) :
    parseUrl str url = parseInetSock str { url with urlText := str } := by
  unfold parseUrl
  exact if_neg (fun hunix => h (List.prefix_iff_eq_take.mpr hunix.2.symm))

/-- **The URL parser is exact**: it accepts the forms of a text, and the structure
then holds what the text gives. -/
theorem parse_url_exact (url : Url) (str : List UInt8) (hunix : ¬ unixText <+: str) :
    ∃ code url', parseUrl str url = Except.ok (code, url') ∧
      (code = hcoreOk ∨ code = hcoreError) ∧
      (code = hcoreOk ↔ ∃ host portText p addr, UrlForm url.listen str host portText p addr) ∧
      (code = hcoreOk →
        UrlForm url.listen str url'.host url'.portText url'.port url'.sinAddr ∧
          url'.sinPort = htons url'.port) := by
  rw [parseUrl_inet hunix]
  by_cases hne : str = []
  · subst hne
    refine ⟨hcoreError, _, rfl, Or.inr rfl, iff_of_false (by decide) ?_, fun h => ?_⟩
    · rintro ⟨host, portText, p, addr, h⟩
      exact not_urlForm_nil h
    · exact absurd h (by decide)
  · rcases parseInetSock_cases hne { url with urlText := str } with
      ⟨host, portText, p, addr, url', hform, hrun, hurl, -⟩ | ⟨hnot, url', hrun, -⟩
    · refine ⟨hcoreOk, url', hrun, Or.inl rfl, iff_of_true rfl ⟨host, portText, p, addr, hform⟩,
        fun _ => ?_⟩
      rw [hurl.host_eq, hurl.portText_eq, hurl.port_eq, hurl.sinAddr_eq]
      exact ⟨hform, hurl.sinPort_eq⟩
    · refine ⟨hcoreError, url', hrun, Or.inr rfl, iff_of_false (by decide) ?_, fun h => ?_⟩
      · rintro ⟨host, portText, p, addr, h⟩
        exact hnot host portText p addr h
      · exact absurd h (by decide)

/-- A structure as it is before its first use. -/
def emptyUrl : Url := ⟨0, 0, [0, 0], [0, 0, 0, 0], 0, 0, [], [], [], none, false⟩

theorem parse_url_exact_port : ∃ code url', parseUrl [56, 48] emptyUrl = Except.ok (code, url') ∧
    (code = hcoreOk ∨ code = hcoreError) ∧
    (code = hcoreOk ↔ ∃ host portText p addr,
      UrlForm emptyUrl.listen [56, 48] host portText p addr) ∧
    (code = hcoreOk →
      UrlForm emptyUrl.listen [56, 48] url'.host url'.portText url'.port url'.sinAddr ∧
        url'.sinPort = htons url'.port) :=
  parse_url_exact emptyUrl [56, 48] (by decide)

/-- One call of `hcore_parse_listen` or of `hcore_parse_url`. -/
structure Call where
  listen : Bool
  str : List UInt8

def Call.run (c : Call) (url : Url) : Exec (ℤ × Url) :=
  if c.listen then parseListen c.str url else parseUrl c.str url

/-- Along the calls, each on what the one before it left, `Q` holds of the
structure before, the call, its code and the structure after. -/
def EachCall (Q : Url → Call → ℤ → Url → Prop) : Url → List Call → Prop
  | _, [] => True
  | url, c :: calls =>
    ∃ code url', c.run url = Except.ok (code, url') ∧ Q url c code url' ∧ EachCall Q url' calls

/-- The error field tells success from failure. -/
def Tells (code : ℤ) (url : Url) : Prop :=
  (code = hcoreOk → url.err = none) ∧ (code = hcoreError → url.err ≠ none)

/-- The texts that are refused without a message: the empty text, and
everything with a path behind `unix:`. -/
def Silent (str : List UInt8) : Prop :=
  str = [] ∨ (unixText.length + 1 ≤ str.length ∧ str.take unixText.length = unixText)

/-- What the call leaves in the error field is what belongs there. -/
def Settled (url : Url) (c : Call) : Prop :=
  (Silent c.str → url.err ≠ none) ∧ (OpenForm (c.listen || url.listen) c.str → url.err = none)

theorem OpenForm.not_silent {listen : Bool} {str : List UInt8} (h : OpenForm listen str) :
    ¬ Silent str := by
  rintro (rfl | ⟨-, htake⟩)
  · obtain ⟨portText, p, hform⟩ := h
    exact not_urlForm_nil hform
  · have hhead := congrArg List.head? htake
    rw [List.head?_take, if_neg (by decide)] at hhead
    have hhead : str.head? = some 117 := hhead
    rcases strlchr_cases str 58 with ⟨a, b, rfl, ha⟩ | ⟨hcolon, -⟩
    · obtain ⟨rfl, -⟩ := (openForm_colon ha).mp h
      exact absurd hhead (by simp [starText])
    · obtain ⟨-, p, hp⟩ := (openForm_plain hcolon).mp h
      exact hp.not_mem (show ¬ IsDigit 117 by decide) (List.mem_of_head? hhead)

/-- What one call does to the law. -/
theorem parseUrl_tells (url : Url) (str : List UInt8) :
    ∃ code url', parseUrl str url = Except.ok (code, url') ∧
      (Tells code url' ↔
        (Silent str → url.err ≠ none) ∧ (OpenForm url.listen str → url.err = none)) := by
  by_cases hsilent : Silent str
  · have hopen : ¬ OpenForm url.listen str := fun h => h.not_silent hsilent
    have hrun : parseUrl str url = Except.ok (hcoreError, { url with urlText := str }) := by
      unfold parseUrl
      by_cases hunix : unixText.length + 1 ≤ str.length ∧ str.take unixText.length = unixText
      · exact if_pos hunix
      · obtain rfl := hsilent.resolve_right hunix
        rfl
    refine ⟨_, _, hrun, ?_⟩
    constructor
    · exact fun h => ⟨fun _ => h.2 rfl, fun h => absurd h hopen⟩
    · exact fun h => ⟨fun hcode => absurd hcode (by decide), fun _ => h.1 hsilent⟩
  · have hparts := not_or.mp hsilent
    have hparse : parseUrl str url = parseInetSock str { url with urlText := str } := by
      unfold parseUrl
      exact if_neg hparts.2
    rw [hparse]
    rcases parseInetSock_cases hparts.1 { url with urlText := str } with
      ⟨-, -, -, -, url', -, hrun, -, hout⟩ | ⟨hnot, url', hrun, hout⟩
    · refine ⟨hcoreOk, url', hrun, ?_⟩
      obtain ⟨hkept, hcleared⟩ := hout.err_ok rfl
      constructor
      · exact fun h => ⟨fun hs => absurd hs hsilent, fun ho => (hkept ho).symm.trans (h.1 rfl)⟩
      · intro h
        refine ⟨fun _ => ?_, fun hcode => absurd hcode (by decide)⟩
        by_cases ho : OpenForm url.listen str
        · exact (hkept ho).trans (h.2 ho)
        · exact hcleared ho
    · refine ⟨hcoreError, url', hrun, iff_of_true ⟨fun hcode => absurd hcode (by decide),
        hout.err_error⟩ ⟨fun hs => absurd hs hsilent, ?_⟩⟩
      rintro ⟨portText, p, hform⟩
      exact absurd hform (hnot _ _ _ _)

theorem Call.run_tells (c : Call) (url : Url) :
    ∃ code url', c.run url = Except.ok (code, url') ∧ (Tells code url' ↔ Settled url c) := by
  obtain ⟨listen, str⟩ := c
  cases listen with
  | false =>
    obtain ⟨code, url', hrun, htells⟩ := parseUrl_tells url str
    exact ⟨code, url', hrun, htells⟩
  | true =>
    obtain ⟨code, url', hrun, htells⟩ := parseUrl_tells { url with listen := true } str
    exact ⟨code, url', hrun, htells⟩

/-- **The error field tells success from failure** after each call of a history exactly
if each call finds in it what belongs there after it or writes it. -/
theorem parse_url_err_iff (url : Url) (calls : List Call) :
    EachCall (fun _ _ code url' => Tells code url') url calls ↔
      EachCall (fun url c _ _ => Settled url c) url calls := by
  induction calls generalizing url with
  | nil => exact Iff.rfl
  | cons c calls ih =>
    obtain ⟨code, url', hrun, htells⟩ := c.run_tells url
    constructor
    · rintro ⟨code', url'', hrun', ht, hrest⟩
      obtain ⟨rfl, rfl⟩ := Prod.mk.inj (Except.ok.inj (hrun.symm.trans hrun'))
      exact ⟨code, url', hrun, htells.mp ht, (ih url').mp hrest⟩
    · rintro ⟨code', url'', hrun', hs, hrest⟩
      obtain ⟨rfl, rfl⟩ := Prod.mk.inj (Except.ok.inj (hrun.symm.trans hrun'))
      exact ⟨code, url', hrun, htells.mpr hs, (ih url').mpr hrest⟩

/-- The empty text is refused without a message. -/
theorem empty_url_untold :
    ¬ ∀ url calls, EachCall (fun _ _ code url' => Tells code url') url calls := by
  intro h
  obtain ⟨code, url', hrun, htold, -⟩ := h emptyUrl [⟨false, []⟩]
  obtain ⟨code', url'', hrun', htells⟩ := Call.run_tells ⟨false, []⟩ emptyUrl
  obtain ⟨rfl, rfl⟩ := Prod.mk.inj (Except.ok.inj (hrun.symm.trans hrun'))
  exact (htells.mp htold).1 (Or.inl rfl) rfl

end HCore.UrlText
