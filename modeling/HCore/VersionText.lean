import HCore.Machine
import HCore.DecimalText

/-!
The version parser. Its scanner reads the digits of a number and then expects
a dot, but no branch moves past the dot: three numbers without digits are read
in front of it, and the loop never ends. The loop over the digits looks at the
character behind each of them, also behind the last one of the line.
-/

namespace HCore.VersionText

open Machine DecimalText

inductive Phase
  | prefixPhase
  | separatorPhase
  | versionPhase
  deriving DecidableEq, Repr

/-- The variables of `hcore_parse_version`, and the indices that were read. -/
structure Parser where
  p : ℕ
  phase : Phase
  vers : List ℕ
  verPos : ℕ
  reads : List ℕ
  deriving DecidableEq, Repr

namespace Parser

def ver (s : Parser) : ℕ := s.vers.getD s.verPos 0

/-- `*vers[ver_pos] = v`. -/
def store (s : Parser) (v : ℕ) : Parser := { s with vers := s.vers.set s.verPos v }

/-- `p++` and `c = *p`. -/
def advance (s : Parser) : Parser := { s with p := s.p + 1, reads := (s.p + 1) :: s.reads }

/-- Another digit of the number that is read. -/
def accept (s : Parser) (v : ℕ) : Parser := (s.store v).advance

@[simp] theorem store_reads (s : Parser) (v : ℕ) : (s.store v).reads = s.reads := rfl

@[simp] theorem accept_p (s : Parser) (v : ℕ) : (s.accept v).p = s.p + 1 := rfl

@[simp] theorem accept_verPos (s : Parser) (v : ℕ) : (s.accept v).verPos = s.verPos := rfl

@[simp] theorem accept_reads (s : Parser) (v : ℕ) :
    (s.accept v).reads = (s.p + 1) :: s.reads := rfl

@[simp] theorem accept_length (s : Parser) (v : ℕ) :
    (s.accept v).vers.length = s.vers.length := List.length_set

theorem accept_ver (s : Parser) (v : ℕ) (h : s.verPos < s.vers.length) : (s.accept v).ver = v := by
  simp [ver, accept, store, advance, h]

end Parser

/-- The loop over the digits of a number. The flag is off where it leaves for
the label `error`. -/
def scanNumber (data : ℕ → UInt8) : ℕ → UInt8 → Parser → Exec (Bool × Parser)
  | 0, _, _ => outOfFuel
  | fuel + 1, c, s =>
    if IsDigit c then
      if 255 < s.ver * 10 + digitValue c then
        pure (false, s.store (s.ver * 10 + digitValue c))
      else scanNumber data fuel (data (s.p + 1)) (s.accept (s.ver * 10 + digitValue c))
    else pure (true, { s with verPos := s.verPos + 1, phase := .separatorPhase })

/-- `master << 16 | minor << 8 | patch`. -/
def packed (master minor patch : ℕ) : ℕ := master <<< 16 ||| minor <<< 8 ||| patch

/-- The loop over the line, and what is returned behind it. The last of the
four pointers in `vers` is `NULL`. -/
def parseFrom (data : ℕ → UInt8) (last : ℕ) : ℕ → Parser → Exec (ℕ × List ℕ)
  | 0, _ => outOfFuel
  | fuel + 1, s =>
    if s.p < last then
      let c := data s.p
      let s := { s with reads := s.p :: s.reads }
      match s.phase with
      | .prefixPhase =>
        parseFrom data last fuel
          { s with p := if c = 118 ∨ c = 86 then s.p + 1 else s.p, phase := .versionPhase }
      | .versionPhase =>
        if s.verPos = 3 then parseFrom data last fuel s
        else do
          let r ← scanNumber data fuel c s
          if r.1 then parseFrom data last fuel r.2 else pure (0, r.2.reads)
      | .separatorPhase =>
        if c ≠ 46 then pure (0, s.reads)
        else parseFrom data last fuel { s with phase := .versionPhase }
    else if s.vers.getD 0 0 = 0 then pure (0, s.reads)
    else pure (packed (s.vers.getD 0 0) (s.vers.getD 1 0) (s.vers.getD 2 0), s.reads)

/-- The version of the line of `len` bytes at `data`. -/
def parseVersion (fuel : ℕ) (data : ℕ → UInt8) (len : ℕ) : Exec (ℕ × List ℕ) :=
  parseFrom data len fuel ⟨0, .prefixPhase, [0, 0, 0], 0, []⟩

def lineOf (data : ℕ → UInt8) (len : ℕ) : List UInt8 := (List.range len).map data

/-- Three numbers between dots, behind an optional `v`. -/
def IsVersion (line : List UInt8) (a b c : ℕ) : Prop :=
  ∃ pre f1 f2 f3, (pre = [] ∨ pre = [118] ∨ pre = [86]) ∧
    line = pre ++ (f1 ++ 46 :: (f2 ++ 46 :: f3)) ∧ Number f1 a ∧ Number f2 b ∧ Number f3 c ∧
    1 ≤ a ∧ a ≤ 255 ∧ b ≤ 255 ∧ c ≤ 255

/-- The value that belongs to a line. -/
def VersionValue (line : List UInt8) (v : ℕ) : Prop :=
  (∀ a b c, IsVersion line a b c → v = packed a b c) ∧
    ((∀ a b c, ¬ IsVersion line a b c) → v = 0)

/-- The call returns, reads only the line, and returns its version. -/
def ParsesRight (data : ℕ → UInt8) (len : ℕ) : Prop :=
  ∃ fuel v reads, parseVersion fuel data len = Except.ok (v, reads) ∧
    (∀ i ∈ reads, i < len) ∧ VersionValue (lineOf data len) v

/-- What follows the optional `v`. -/
def body : List UInt8 → List UInt8
  | [] => []
  | c :: line => if c = 118 ∨ c = 86 then line else c :: line

/-- Nothing follows the optional `v`, or the number at its beginning is too
large, or it ends at a character of the line other than a dot. -/
def Harmless (line : List UInt8) : Prop :=
  body line = [] ∨ 255 < decimal (digitRun (body line)) ∨
    ∃ x rest, afterRun (body line) = x :: rest ∧ x ≠ 46

/-- The bytes of a list lie at `p`. -/
def At (data : ℕ → UInt8) : ℕ → List UInt8 → Prop
  | _, [] => True
  | p, c :: l => data p = c ∧ At data (p + 1) l

section

variable {data : ℕ → UInt8} {p last fuel : ℕ} {a b ds : List UInt8} {s s' : Parser} {c : UInt8}
  {r : Bool × Parser}

theorem at_append : At data p (a ++ b) ↔ At data p a ∧ At data (p + a.length) b := by
  induction a generalizing p with
  | nil => simp [At]
  | cons x a ih =>
    rw [List.cons_append, At, ih, At, List.length_cons, and_assoc,
      show p + 1 + a.length = p + (a.length + 1) by omega]

theorem at_range (data : ℕ → UInt8) (p n : ℕ) : At data p ((List.range' p n).map data) := by
  induction n generalizing p with
  | zero => trivial
  | succ n ih =>
    rw [List.range'_succ, List.map_cons]
    exact ⟨rfl, ih (p + 1)⟩

theorem at_lineOf (data : ℕ → UInt8) (len : ℕ) : At data 0 (lineOf data len) := by
  rw [lineOf, List.range_eq_range']
  exact at_range data 0 len

theorem scanNumber_reads (h : scanNumber data fuel c s = Except.ok r) {i : ℕ} (hi : i ∈ s.reads) :
    i ∈ r.2.reads := by
  induction fuel generalizing c s with
  | zero => cases h
  | succ fuel ih =>
    rw [scanNumber] at h
    split at h
    · split at h
      · cases h
        exact hi
      · exact ih h (List.mem_cons_of_mem _ hi)
    · cases h
      exact hi

/-- Digits that make a number too large lead to the error, and nothing behind
them is read. -/
theorem scanNumber_large (hat : At data s.p ds) (hds : ∀ x ∈ ds, IsDigit x)
    (hver : s.ver ≤ 255) (hpos : s.verPos < s.vers.length)
    (hlarge : 255 < decimalFrom s.ver ds) (hfuel : ds.length ≤ fuel) :
    ∃ s', scanNumber data fuel (data s.p) s = Except.ok (false, s') ∧
      ∀ i ∈ s'.reads, i ∈ s.reads ∨ i < s.p + ds.length := by
  induction ds generalizing s fuel with
  | nil =>
    rw [decimalFrom_nil] at hlarge
    omega
  | cons c ds ih =>
    obtain ⟨hc, hat⟩ := hat
    rw [List.forall_mem_cons] at hds
    rw [decimalFrom_cons] at hlarge
    rw [List.length_cons] at hfuel ⊢
    obtain ⟨fuel, rfl⟩ : ∃ f, fuel = f + 1 := ⟨fuel - 1, by omega⟩
    rw [scanNumber, hc, if_pos hds.1]
    by_cases hbig : 255 < s.ver * 10 + digitValue c
    · rw [if_pos hbig]
      exact ⟨_, rfl, fun i hi => Or.inl hi⟩
    · rw [if_neg hbig]
      have hset := s.accept_ver (s.ver * 10 + digitValue c) hpos
      have hrest : ds.length ≤ fuel := by omega
      obtain ⟨s', hrun, hreads⟩ := ih (s := s.accept (s.ver * 10 + digitValue c)) hat hds.2
        (by omega) (by simpa using hpos) (by rwa [hset]) hrest
      have hlen : 0 < ds.length := by
        refine List.length_pos_iff.mpr (fun hnil => ?_)
        rw [hnil, decimalFrom_nil] at hlarge
        omega
      refine ⟨s', hrun, fun i hi => ?_⟩
      have hi' := hreads i hi
      rw [Parser.accept_reads, Parser.accept_p, List.mem_cons] at hi'
      rcases hi' with (rfl | hi') | hi'
      · exact Or.inr (by omega)
      · exact Or.inl hi'
      · exact Or.inr (by omega)

/-- A number that ends before another character: the scanner stops there. -/
theorem scanNumber_stops (hat : At data s.p ds) (hds : ∀ x ∈ ds, IsDigit x)
    (hend : ¬ IsDigit (data (s.p + ds.length))) (hpos : s.verPos < s.vers.length)
    (hsmall : decimalFrom s.ver ds ≤ 255) (fuel : ℕ) :
    (scanNumber data fuel (data s.p) s = outOfFuel ∧ fuel ≤ ds.length) ∨
      ∃ s', scanNumber data fuel (data s.p) s = Except.ok (true, s') ∧
        s'.p = s.p + ds.length ∧ s'.verPos = s.verPos + 1 ∧ s'.phase = .separatorPhase ∧
        ∀ i ∈ s'.reads, i ∈ s.reads ∨ i ≤ s.p + ds.length := by
  induction ds generalizing s fuel with
  | nil =>
    rw [List.length_nil, Nat.add_zero] at hend
    cases fuel with
    | zero => exact Or.inl ⟨rfl, le_rfl⟩
    | succ fuel =>
      right
      rw [scanNumber, if_neg hend]
      exact ⟨_, rfl, rfl, rfl, rfl, fun i hi => Or.inl hi⟩
  | cons c ds ih =>
    obtain ⟨hc, hat⟩ := hat
    rw [List.forall_mem_cons] at hds
    rw [decimalFrom_cons] at hsmall
    rw [List.length_cons, show s.p + (ds.length + 1) = s.p + 1 + ds.length by omega] at hend ⊢
    cases fuel with
    | zero => exact Or.inl ⟨rfl, Nat.zero_le _⟩
    | succ fuel =>
      have hle := le_decimalFrom (s.ver * 10 + digitValue c) ds
      have hset := s.accept_ver (s.ver * 10 + digitValue c) hpos
      rw [scanNumber, hc, if_pos hds.1, if_neg (by omega)]
      rcases ih (s := s.accept (s.ver * 10 + digitValue c)) hat hds.2 hend
        (by simpa using hpos) (by rwa [hset]) fuel with
        ⟨hrun, hfuel⟩ | ⟨s', hrun, hp, hnext, hphase, hreads⟩
      · exact Or.inl ⟨hrun, by omega⟩
      · refine Or.inr ⟨s', hrun, hp, hnext, hphase, fun i hi => ?_⟩
        have hi' := hreads i hi
        rw [Parser.accept_reads, Parser.accept_p, List.mem_cons] at hi'
        rcases hi' with (rfl | hi') | hi'
        · exact Or.inr (by omega)
        · exact Or.inl hi'
        · exact Or.inr hi'

/-- The scanner looks at the character behind the digits it has read. -/
theorem scanNumber_reads_end (hat : At data s.p ds) (hds : ∀ x ∈ ds, IsDigit x) (hne : ds ≠ [])
    (hpos : s.verPos < s.vers.length) (hsmall : decimalFrom s.ver ds ≤ 255)
    (h : scanNumber data fuel (data s.p) s = Except.ok r) : s.p + ds.length ∈ r.2.reads := by
  induction ds generalizing s fuel with
  | nil => exact absurd rfl hne
  | cons c ds ih =>
    obtain ⟨hc, hat⟩ := hat
    rw [List.forall_mem_cons] at hds
    rw [decimalFrom_cons] at hsmall
    cases fuel with
    | zero => cases h
    | succ fuel =>
      have hle := le_decimalFrom (s.ver * 10 + digitValue c) ds
      have hset := s.accept_ver (s.ver * 10 + digitValue c) hpos
      rw [scanNumber, hc, if_pos hds.1, if_neg (by omega)] at h
      rw [List.length_cons, show s.p + (ds.length + 1) = s.p + 1 + ds.length by omega]
      by_cases hnil : ds = []
      · subst hnil
        exact scanNumber_reads h (List.mem_cons_self ..)
      · exact ih (s := s.accept (s.ver * 10 + digitValue c)) hat hds.2 hnil
          (by simpa using hpos) (by rwa [hset]) h

/-- A dot is never passed. -/
theorem parseFrom_dot (hlt : s.p < last) (hdot : data s.p = 46) (hphase : s.phase ≠ .prefixPhase)
    (fuel : ℕ) : parseFrom data last fuel s = outOfFuel := by
  induction fuel generalizing s with
  | zero => rfl
  | succ fuel ih =>
    rw [parseFrom, if_pos hlt]
    dsimp only
    cases hcase : s.phase with
    | prefixPhase => exact absurd hcase hphase
    | versionPhase =>
      dsimp only
      split
      · exact ih hlt hdot (by simp)
      · rw [hdot]
        cases fuel with
        | zero => rfl
        | succ fuel =>
          rw [scanNumber, if_neg (by decide), pure_eq_ok, ok_bind, if_pos rfl]
          exact ih hlt hdot (by simp)
    | separatorPhase =>
      dsimp only
      rw [if_neg (by simpa using hdot)]
      exact ih hlt hdot (by simp)

theorem parseFrom_reads {v : ℕ} {reads : List ℕ}
    (h : parseFrom data last fuel s = Except.ok (v, reads)) {i : ℕ} (hi : i ∈ s.reads) :
    i ∈ reads := by
  induction fuel generalizing s with
  | zero => cases h
  | succ fuel ih =>
    have hi' : i ∈ s.p :: s.reads := List.mem_cons_of_mem _ hi
    rw [parseFrom] at h
    split at h
    · dsimp only at h
      split at h
      · exact ih h hi'
      · split at h
        · exact ih h hi'
        · obtain ⟨r, hrun, h⟩ := bind_eq_ok.mp h
          split at h
          · exact ih h (scanNumber_reads hrun hi')
          · cases h
            exact scanNumber_reads hrun hi'
      · split at h
        · cases h
          exact hi'
        · exact ih h hi'
    · split at h <;> cases h <;> exact hi

end

section

variable {data : ℕ → UInt8} {len : ℕ}

/-- The state in front of the first number. -/
def numberAt (q : ℕ) : Parser := ⟨q, .versionPhase, [0, 0, 0], 0, [q, 0]⟩

theorem numberAt_verPos (q : ℕ) : (numberAt q).verPos < (numberAt q).vers.length :=
  Nat.succ_pos 2

/-- The parser comes to the first number, if anything follows the `v`. -/
theorem parseVersion_body (h : body (lineOf data len) ≠ []) :
    ∃ q, q < len ∧ q + (body (lineOf data len)).length = len ∧
      At data q (body (lineOf data len)) ∧ ∀ fuel, parseVersion (fuel + 2) data len =
        scanNumber data fuel (data q) (numberAt q) >>= fun r =>
          if r.1 then parseFrom data len fuel r.2 else pure (0, r.2.reads) := by
  cases len with
  | zero => exact absurd rfl h
  | succ n =>
    have hline : lineOf data (n + 1) = data 0 :: (List.range' 1 n).map data := by
      rw [lineOf, List.range_eq_range', List.range'_succ, List.map_cons]
    have hat : At data 0 (data 0 :: (List.range' 1 n).map data) := hline ▸ at_lineOf data (n + 1)
    rw [hline] at h ⊢
    rw [body] at h ⊢
    by_cases hv : data 0 = 118 ∨ data 0 = 86
    · rw [if_pos hv] at h ⊢
      have hn : 1 < n + 1 := by
        by_contra hle
        obtain rfl : n = 0 := by omega
        exact h rfl
      refine ⟨1, hn, ?_, hat.2, fun fuel => ?_⟩
      · rw [List.length_map, List.length_range', Nat.add_comm]
      · rw [parseVersion, parseFrom, if_pos (Nat.succ_pos n)]
        dsimp only
        rw [if_pos hv, parseFrom, if_pos hn]
        dsimp only
        rw [if_neg (by omega)]
        rfl
    · rw [if_neg hv] at h ⊢
      refine ⟨0, Nat.succ_pos n, ?_, hat, fun fuel => ?_⟩
      · rw [List.length_cons, List.length_map, List.length_range', Nat.zero_add]
      · rw [parseVersion, parseFrom, if_pos (Nat.succ_pos n)]
        dsimp only
        rw [if_neg hv, parseFrom, if_pos (Nat.succ_pos n)]
        dsimp only
        rw [if_neg (by omega)]
        rfl

/-- A harmless line is no version. -/
theorem Harmless.not_version {line : List UInt8} (h : Harmless line) (a b c : ℕ) :
    ¬ IsVersion line a b c := by
  rintro ⟨pre, f1, f2, f3, hpre, rfl, ⟨hne, hds, ha⟩, -, -, -, ha', -⟩
  have hbody : body (pre ++ (f1 ++ 46 :: (f2 ++ 46 :: f3))) = f1 ++ 46 :: (f2 ++ 46 :: f3) := by
    rcases hpre with rfl | rfl | rfl
    · obtain ⟨x, f, rfl⟩ := List.exists_cons_of_ne_nil hne
      have hx : IsDigit x := hds x (List.mem_cons_self ..)
      have hv : ¬ (x = 118 ∨ x = 86) := by
        rintro (rfl | rfl) <;> exact absurd hx (by decide)
      rw [List.nil_append, List.cons_append, body, if_neg hv]
    · rfl
    · rfl
  have hdot : ∀ x ∈ (46 :: (f2 ++ 46 :: f3)).head?, ¬ IsDigit x := by
    intro x hx
    obtain rfl : 46 = x := Option.some.inj hx
    decide
  unfold Harmless at h
  rw [hbody, digitRun_eq hds hdot, afterRun_eq hds hdot, ha] at h
  rcases h with h | h | ⟨x, rest, hrest, hx⟩
  · simp at h
  · omega
  · exact hx (List.cons.inj hrest).1.symm

theorem Harmless.value {line : List UInt8} (h : Harmless line) : VersionValue line 0 :=
  ⟨fun a b c hv => absurd hv (h.not_version a b c), fun _ => rfl⟩

/-- The line of a version with a dot behind its first number is not parsed. -/
theorem not_parsesRight (hne : body (lineOf data len) ≠ [])
    (hsmall : decimal (digitRun (body (lineOf data len))) ≤ 255)
    (hend : ∀ x rest, afterRun (body (lineOf data len)) = x :: rest → x = 46) :
    ¬ ParsesRight data len := by
  rintro ⟨fuel, v, reads, hrun, hreads, -⟩
  obtain ⟨q, hq, hlen, hat, hparse⟩ := parseVersion_body hne
  have hsplit := digitRun_append_afterRun (body (lineOf data len))
  rw [← hsplit, at_append] at hat
  rw [← hsplit, List.length_append] at hlen
  match fuel with
  | 0 => cases hrun
  | 1 =>
    rw [parseVersion, parseFrom, if_pos (show 0 < len by omega)] at hrun
    cases hrun
  | fuel + 2 =>
    rw [hparse fuel] at hrun
    obtain ⟨r, hscan, hrest⟩ := bind_eq_ok.mp hrun
    have hscan : scanNumber data fuel (data (numberAt q).p) (numberAt q) = Except.ok r := hscan
    have hdigits : ∀ x ∈ digitRun (body (lineOf data len)), IsDigit x :=
      fun _ => isDigit_of_mem_digitRun
    cases hafter : afterRun (body (lineOf data len)) with
    | nil =>
      rw [hafter, List.length_nil, Nat.add_zero] at hlen
      have hnil : digitRun (body (lineOf data len)) ≠ [] := by
        intro hnil
        rw [hnil, hafter] at hsplit
        exact hne hsplit.symm
      have hread := scanNumber_reads_end (s := numberAt q) hat.1 hdigits hnil
        (numberAt_verPos q) hsmall hscan
      have hmem : len ∈ reads := by
        rw [← hlen]
        split at hrest
        · exact parseFrom_reads hrest hread
        · cases hrest
          exact hread
      exact absurd (hreads len hmem) (lt_irrefl len)
    | cons x rest =>
      obtain rfl := hend x rest hafter
      have hdot : data ((numberAt q).p + (digitRun (body (lineOf data len))).length) = 46 := by
        rw [hafter] at hat
        exact hat.2.1
      rw [hafter, List.length_cons] at hlen
      rcases scanNumber_stops (s := numberAt q) hat.1 hdigits (by rw [hdot]; decide)
        (numberAt_verPos q) hsmall fuel with ⟨hout, -⟩ | ⟨s', hok, hp, -, hphase, -⟩
      · rw [hout] at hscan
        cases hscan
      · obtain rfl := Except.ok.inj (hok.symm.trans hscan)
        have hlt : s'.p < len := by
          rw [hp]
          change q + _ < len
          omega
        rw [if_pos rfl, parseFrom_dot hlt (by rw [hp, hdot]) (by rw [hphase]; simp) fuel] at hrest
        cases hrest

/-- A line without anything behind the `v`. -/
theorem parsesRight_nil (h : body (lineOf data len) = []) : ParsesRight data len := by
  have hharmless : Harmless (lineOf data len) := Or.inl h
  cases len with
  | zero => exact ⟨1, 0, [], rfl, by simp, hharmless.value⟩
  | succ n =>
    have hline : lineOf data (n + 1) = data 0 :: (List.range' 1 n).map data := by
      rw [lineOf, List.range_eq_range', List.range'_succ, List.map_cons]
    rw [hline, body] at h
    split at h
    · next hv =>
      obtain rfl : n = 0 := by simpa using h
      refine ⟨2, 0, [0], ?_, by simp, hharmless.value⟩
      rw [parseVersion, parseFrom, if_pos (show 0 < 0 + 1 by omega)]
      dsimp only
      rw [if_pos hv]
      rfl
    · cases h

theorem Harmless.parsesRight (h : Harmless (lineOf data len)) : ParsesRight data len := by
  by_cases hne : body (lineOf data len) = []
  · exact parsesRight_nil hne
  obtain ⟨q, hq, hlen, hat, hparse⟩ := parseVersion_body hne
  have hsplit := digitRun_append_afterRun (body (lineOf data len))
  have hdigits : ∀ x ∈ digitRun (body (lineOf data len)), IsDigit x :=
    fun _ => isDigit_of_mem_digitRun
  rw [← hsplit, at_append] at hat
  rw [← hsplit, List.length_append] at hlen
  have hfirst : ∀ i ∈ (numberAt q).reads, i < len := by
    intro i hi
    rcases List.mem_cons.mp hi with rfl | hi
    · exact hq
    · rw [List.mem_singleton.mp hi]
      omega
  rcases Nat.lt_or_ge 255 (decimal (digitRun (body (lineOf data len)))) with hlarge | hsmall
  · obtain ⟨s', hscan, hreads⟩ := scanNumber_large (s := numberAt q) hat.1 hdigits
      (Nat.zero_le _) (numberAt_verPos q) hlarge le_rfl
    refine ⟨(digitRun (body (lineOf data len))).length + 2, 0, s'.reads, ?_, fun i hi => ?_,
      h.value⟩
    · rw [hparse (digitRun (body (lineOf data len))).length]
      exact bind_of_ok hscan rfl
    · rcases hreads i hi with hi | hi
      · exact hfirst i hi
      · change i < q + _ at hi
        omega
  · obtain ⟨x, rest, hafter, hx⟩ : ∃ x rest, afterRun (body (lineOf data len)) = x :: rest ∧
        x ≠ 46 := by
      rcases h with h | h | h
      · exact absurd h hne
      · omega
      · exact h
    have hnext : data ((numberAt q).p + (digitRun (body (lineOf data len))).length) = x := by
      rw [hafter] at hat
      exact hat.2.1
    rw [hafter, List.length_cons] at hlen
    have hend : ¬ IsDigit x := not_isDigit_of_afterRun hafter
    rcases scanNumber_stops (s := numberAt q) hat.1 hdigits (by rwa [hnext]) (numberAt_verPos q)
      hsmall ((digitRun (body (lineOf data len))).length + 1) with
      ⟨-, hle⟩ | ⟨s', hscan, hp, -, hphase, hreads⟩
    · omega
    · have hlt : s'.p < len := by
        rw [hp]
        change q + _ < len
        omega
      refine ⟨(digitRun (body (lineOf data len))).length + 1 + 2, 0, s'.p :: s'.reads, ?_,
        fun i hi => ?_, h.value⟩
      · rw [hparse ((digitRun (body (lineOf data len))).length + 1)]
        refine bind_of_ok hscan ?_
        rw [if_pos rfl, parseFrom, if_pos hlt]
        dsimp only
        rw [hphase]
        dsimp only
        rw [hp, hnext, if_pos hx]
        rfl
      · rcases List.mem_cons.mp hi with rfl | hi
        · exact hlt
        · rcases hreads i hi with hi | hi
          · exact hfirst i hi
          · change i ≤ q + _ at hi
            omega

/-- The parser is right exactly where it meets neither a dot behind the first
number nor the end of the line at it: on no version at all. -/
theorem parse_version_iff (data : ℕ → UInt8) (len : ℕ) :
    ParsesRight data len ↔ Harmless (lineOf data len) := by
  constructor
  · intro hright
    by_contra hbad
    unfold Harmless at hbad
    rw [not_or, not_or, Nat.not_lt] at hbad
    refine not_parsesRight hbad.1 hbad.2.1 (fun x rest hafter => ?_) hright
    by_contra hx
    exact hbad.2.2 ⟨x, rest, hafter, hx⟩
  · exact Harmless.parsesRight

/-- The text `1.0.0` of the header, with zeros behind it. -/
def headerVersion (i : ℕ) : UInt8 := [49, 46, 48, 46, 48].getD i 0

theorem header_version_hangs : ¬ ∀ data len, ParsesRight data len := by
  intro h
  have hbody : body (lineOf headerVersion 5) = [49, 46, 48, 46, 48] := by decide
  refine not_parsesRight (by rw [hbody]; simp) (by rw [hbody]; decide) (fun x rest hx => ?_)
    (h headerVersion 5)
  rw [hbody] at hx
  exact (List.cons.inj hx).1.symm

end

end HCore.VersionText
