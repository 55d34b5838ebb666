import HCore.Machine
import HCore.BitMap
import HCore.DecimalText
import Mathlib.Tactic.NormNum

/-!
The netmask check and the two parsers that rely on it. The loop over the bits
of a byte runs while its counter is zero, and it starts at seven, so no bit is
ever looked at: the check accepts every mask, and the parsers accept whatever
they can read. The counter of the loop over the bytes has 32 bits, so the
check of a longer string does not return.
-/

namespace HCore.NetMask

open Machine BitMap DecimalText

/-- Whether a zero has been met, and the bit that is expected. -/
structure Scan where
  err : ℕ
  checkValue : ℤ
  deriving DecidableEq, Repr

/-- One bit; there is no result where the check returns `HCORE_ERROR`. -/
def Scan.check (s : Scan) (u : UInt8) (bit : ℕ) : Option Scan :=
  if ((u.toNat &&& 1 <<< bit : ℕ) : ℤ) ≠ s.checkValue then
    if s.err ≠ 0 then none else some ⟨1, 0⟩
  else some s

/-- `for (; bit == 0; bit--)`. -/
def scanByte (u : UInt8) (bit : ℕ) (s : Scan) : Option Scan :=
  if bit = 0 then (s.check u bit).bind (scanByte u (toUInt32 ((bit : ℤ) - 1))) else some s
termination_by if bit = 0 then 1 else 0
decreasing_by
  subst bit
  decide

/-- The loop over the bytes, from the index `i` on. -/
def checkFrom : ℕ → List UInt8 → ℕ → Scan → Exec ℤ
  | 0, _, _, _ => outOfFuel
  | fuel + 1, bytes, i, s =>
    if i < bytes.length then
      match scanByte (bytes.getD i 0) 7 s with
      | none => pure hcoreError
      | some s => checkFrom fuel bytes (toUInt32 ((i : ℤ) + 1)) s
    else pure hcoreOk

def checkMask (fuel : ℕ) (bytes : List UInt8) : Exec ℤ := checkFrom fuel bytes 0 ⟨0, 1⟩

/-- The bits of a byte, the most significant one first. -/
def byteBits (u : UInt8) : List Bool := (List.range 8).map (fun i => u.toBitVec.getMsbD i)

def bits (bytes : List UInt8) : List Bool := bytes.flatMap byteBits

/-- Some ones, and only zeros behind them. -/
def Contiguous (bytes : List UInt8) : Prop :=
  ∃ ones zeros, bits bytes = List.replicate ones true ++ List.replicate zeros false

/-- The check returns, and it accepts exactly a contiguous mask. -/
def Decides (bytes : List UInt8) : Prop :=
  ∃ fuel r, checkMask fuel bytes = Except.ok r ∧ (r = hcoreOk ↔ Contiguous bytes)

theorem scanByte_seven (u : UInt8) (s : Scan) : scanByte u 7 s = some s := by
  rw [scanByte]
  simp

theorem checkFrom_ok {bytes : List UInt8} (hlen : bytes.length < 2 ^ 32) (n i : ℕ) (s : Scan)
    (hi : bytes.length ≤ i + n) (hi' : i ≤ bytes.length) :
    checkFrom (n + 1) bytes i s = Except.ok hcoreOk := by
  induction n generalizing i with
  | zero => rw [checkFrom, if_neg (by omega), pure_eq_ok]
  | succ n ih =>
    rw [checkFrom, scanByte_seven]
    split
    · next hlt =>
      have hnext : toUInt32 ((i : ℤ) + 1) = i + 1 :=
        toUInt32_of_lt (x := i + 1) (by omega)
      dsimp only
      rw [hnext]
      exact ih (i + 1) (by omega) (by omega)
    · rfl

/-- Every step budget that covers the bytes gives the same answer. -/
theorem checkMask_ok {bytes : List UInt8} (hlen : bytes.length < 2 ^ 32) :
    checkMask (bytes.length + 1) bytes = Except.ok hcoreOk :=
  checkFrom_ok hlen bytes.length 0 _ (by omega) (by omega)

/-- The index never reaches a length that has more than 32 bits. -/
theorem checkFrom_outOfFuel {bytes : List UInt8} (hlen : 2 ^ 32 ≤ bytes.length) (fuel i : ℕ)
    (s : Scan) (hi : i < 2 ^ 32) : checkFrom fuel bytes i s = outOfFuel := by
  induction fuel generalizing i with
  | zero => rfl
  | succ fuel ih =>
    rw [checkFrom, if_pos (by omega), scanByte_seven]
    exact ih _ (toUInt32_lt _)

theorem checkFrom_returns {bytes : List UInt8} {fuel i : ℕ} {s : Scan} {r : ℤ}
    (h : checkFrom fuel bytes i s = Except.ok r) : r = hcoreOk := by
  induction fuel generalizing i with
  | zero => cases h
  | succ fuel ih =>
    rw [checkFrom, scanByte_seven] at h
    split at h
    · exact ih h
    · exact (Except.ok.inj h).symm

theorem decides_iff (bytes : List UInt8) :
    Decides bytes ↔ bytes.length < 2 ^ 32 ∧ Contiguous bytes := by
  constructor
  · rintro ⟨fuel, r, hrun, hr⟩
    refine ⟨?_, hr.mp (checkFrom_returns hrun)⟩
    by_contra hlen
    have hfuel : checkMask fuel bytes = outOfFuel :=
      checkFrom_outOfFuel (Nat.not_lt.mp hlen) fuel 0 _ (by omega)
    rw [hfuel] at hrun
    cases hrun
  · rintro ⟨hlen, hbits⟩
    exact ⟨_, _, checkMask_ok hlen, iff_of_true rfl hbits⟩

/-- The bits of a contiguous mask, by their number. -/
theorem contiguous_iff (bytes : List UInt8) :
    Contiguous bytes ↔ bits bytes = List.replicate ((bits bytes).count true) true ++
      List.replicate ((bits bytes).count false) false := by
  constructor
  · rintro ⟨ones, zeros, h⟩
    have hones : (bits bytes).count true = ones := by
      rw [h, List.count_append, List.count_replicate, List.count_replicate]
      simp
    have hzeros : (bits bytes).count false = zeros := by
      rw [h, List.count_append, List.count_replicate, List.count_replicate]
      simp
    rw [hones, hzeros, h]
  · exact fun h => ⟨_, _, h⟩

instance decidableContiguous (bytes : List UInt8) : Decidable (Contiguous bytes) :=
  decidable_of_iff _ (contiguous_iff bytes).symm

/-- `hcore_strlchr` from the beginning of a text. -/
def strlchr (data : List UInt8) (c : UInt8) : Option ℕ := data.findIdx? (fun x => decide (x = c))

theorem strlchr_eq_some (data : List UInt8) (c : UInt8) (p : ℕ) :
    strlchr data c = some p ↔ ∃ a b, data = a ++ c :: b ∧ c ∉ a ∧ p = a.length := by
  unfold strlchr
  induction data generalizing p with
  | nil => simp
  | cons x data ih =>
    rw [List.findIdx?_cons]
    by_cases hx : x = c
    · rw [if_pos (by simpa using hx)]
      constructor
      · intro h
        exact ⟨[], data, by rw [hx]; rfl, by simp, (Option.some.inj h).symm⟩
      · rintro ⟨a, b, hdata, ha, hp⟩
        cases a with
        | nil => rw [hp]; rfl
        | cons y a =>
          obtain ⟨rfl, -⟩ := List.cons.inj hdata
          exact absurd (List.mem_cons.mpr (Or.inl hx.symm)) ha
    · rw [if_neg (by simpa using hx), Option.map_eq_some_iff]
      constructor
      · rintro ⟨q, hq, rfl⟩
        obtain ⟨a, b, rfl, ha, rfl⟩ := (ih q).mp hq
        refine ⟨x :: a, b, rfl, ?_, rfl⟩
        rw [List.mem_cons]
        rintro (h | h)
        · exact hx h.symm
        · exact ha h
      · rintro ⟨a, b, hdata, ha, hp⟩
        cases a with
        | nil => exact absurd (List.cons.inj hdata).1 hx
        | cons y a =>
          obtain ⟨-, hdata⟩ := List.cons.inj hdata
          exact ⟨a.length, (ih _).mpr ⟨a, b, hdata, fun h => ha (List.mem_cons_of_mem _ h), rfl⟩,
            hp.symm⟩

theorem strlchr_append {a : List UInt8} {c : UInt8} (ha : c ∉ a) (b : List UInt8) :
    strlchr (a ++ c :: b) c = some a.length :=
  (strlchr_eq_some _ _ _).mpr ⟨a, b, rfl, ha, rfl⟩

/-- A text is split at the first such character, or there is none. -/
theorem strlchr_cases (data : List UInt8) (c : UInt8) :
    (∃ a b, data = a ++ c :: b ∧ c ∉ a) ∨ (c ∉ data ∧ strlchr data c = none) := by
  cases h : strlchr data c with
  | some p =>
    obtain ⟨a, b, hdata, ha, -⟩ := (strlchr_eq_some data c p).mp h
    exact Or.inl ⟨a, b, hdata, ha⟩
  | none =>
    refine Or.inr ⟨fun hmem => ?_, rfl⟩
    have hnone := List.findIdx?_eq_none_iff.mp h c hmem
    simp at hnone

theorem split_unique {a a' b b' : List UInt8} {c : UInt8} (ha : c ∉ a) (ha' : c ∉ a')
    (h : a ++ c :: b = a' ++ c :: b') : a = a' ∧ b = b' := by
  have hlen : a.length = a'.length := by
    have hp := strlchr_append ha b
    rw [h, strlchr_append ha' b'] at hp
    exact (Option.some.inj hp).symm
  obtain ⟨hleft, hright⟩ := List.append_inj h hlen
  exact ⟨hleft, (List.cons.inj hright).2⟩

theorem drop_append_cons (a b : List UInt8) (c : UInt8) : (a ++ c :: b).drop (a.length + 1) = b := by
  rw [← List.drop_drop, List.drop_left, List.drop_one, List.tail_cons]

/-- An `in_addr_t` as its bytes in memory: `htonl` puts the first number of
the address first. -/
def htonl (addr : ℕ) : List UInt8 :=
  [UInt8.ofNat (addr >>> 24), UInt8.ofNat (addr >>> 16), UInt8.ofNat (addr >>> 8),
    UInt8.ofNat addr]

def inaddrNone : List UInt8 := [255, 255, 255, 255]

/-- The loop of `hcore_inet_addr`; there is no result where it returns
`INADDR_NONE`. -/
def inetAddrFrom (addr octet n : ℕ) : List UInt8 → Option ℕ
  | [] => if n = 3 then some (toUInt32 ((addr <<< 8 + octet : ℕ) : ℤ)) else none
  | c :: rest =>
    if IsDigit c then
      if 255 < octet * 10 + digitValue c then none
      else inetAddrFrom addr (octet * 10 + digitValue c) n rest
    else if c = 46 then
      inetAddrFrom (toUInt32 ((addr <<< 8 + octet : ℕ) : ℤ)) 0 (toUInt32 ((n : ℤ) + 1)) rest
    else none

def inetAddr (text : List UInt8) : List UInt8 := ((inetAddrFrom 0 0 0 text).map htonl).getD inaddrNone

/-- `sizeof("255.255.255.255") - 1`. -/
def inetAddrstrlen : ℕ := 15

/-- The text `255.255.255.255`. -/
def fullMaskText : List UInt8 :=
  [50, 53, 53, 46, 50, 53, 53, 46, 50, 53, 53, 46, 50, 53, 53]

/-- The address and the mask of an accepted text. -/
def parseIpAndMask (data : List UInt8) : Exec (Option (List UInt8 × List UInt8)) :=
  match strlchr data 47 with
  | none => pure none
  | some p =>
    let ipText := data.take p
    let maskText := data.drop (p + 1)
    if inetAddrstrlen < ipText.length ∨ inetAddrstrlen < maskText.length then pure none
    else if inetAddr ipText = inaddrNone then pure none
    else if maskText.length = inetAddrstrlen ∧ maskText = fullMaskText then
      pure (some (inetAddr ipText, inaddrNone))
    else if inetAddr maskText = inaddrNone then pure none
    else do
      let r ← checkMask 5 (inetAddr maskText)
      if r ≠ hcoreOk then pure none else pure (some (inetAddr ipText, inetAddr maskText))

/-- The numbers between the dots of a text, when `octet` has been read before
it; a number may have no digits. -/
def Numbers (octet : ℕ) (text : List UInt8) (vals : List ℕ) : Prop :=
  ∃ first rest, text = List.intercalate [46] (first :: rest) ∧
    (∀ field ∈ first :: rest, ∀ c ∈ field, IsDigit c) ∧
    vals = decimalFrom octet first :: rest.map decimal ∧ ∀ v ∈ vals, v ≤ 255

/-- Four numbers of at most 255 between dots, as the bytes of an address. -/
def Dotted (text addr : List UInt8) : Prop :=
  ∃ vals, Numbers 0 text vals ∧ vals.length = 4 ∧ addr = vals.map UInt8.ofNat

section

variable {octet : ℕ} {c : UInt8} {text : List UInt8} {vals : List ℕ}

theorem numbers_nil : Numbers octet [] vals ↔ octet ≤ 255 ∧ vals = [octet] := by
  constructor
  · rintro ⟨first, rest, htext, -, rfl, hle⟩
    cases rest with
    | nil =>
      have hfirst : first = [] := by simpa [List.intercalate] using htext.symm
      subst hfirst
      exact ⟨hle _ (List.mem_cons_self ..), rfl⟩
    | cons g rest => simp [List.intercalate] at htext
  · rintro ⟨hle, rfl⟩
    exact ⟨[], [], by simp [List.intercalate], by simp, rfl, by simpa using hle⟩

/-- A text begins with a character of its first field, or with a dot. -/
theorem first_field {first : List UInt8} {rest : List (List UInt8)}
    (h : c :: text = List.intercalate [46] (first :: rest)) :
    (∃ f, first = c :: f ∧ text = List.intercalate [46] (f :: rest)) ∨
      (first = [] ∧ c = 46 ∧ rest ≠ [] ∧ text = List.intercalate [46] rest) := by
  cases first with
  | cons x f =>
    rw [List.intercalate_cons_cons_left] at h
    obtain ⟨rfl, htext⟩ := List.cons.inj h
    exact Or.inl ⟨f, rfl, htext⟩
  | nil =>
    cases rest with
    | nil => simp [List.intercalate] at h
    | cons g rest =>
      rw [List.intercalate_cons_cons] at h
      obtain ⟨rfl, htext⟩ := List.cons.inj h
      exact Or.inr ⟨rfl, rfl, by simp, htext⟩

theorem numbers_digit (hc : IsDigit c) :
    Numbers octet (c :: text) vals ↔ Numbers (octet * 10 + digitValue c) text vals := by
  constructor
  · rintro ⟨first, rest, htext, hdigits, hvals, hle⟩
    rcases first_field htext with ⟨f, rfl, htail⟩ | ⟨-, rfl, -⟩
    · refine ⟨f, rest, htail, ?_, hvals, hle⟩
      rw [List.forall_mem_cons] at hdigits ⊢
      exact ⟨fun x hx => hdigits.1 x (List.mem_cons_of_mem _ hx), hdigits.2⟩
    · exact absurd hc (by decide)
  · rintro ⟨first, rest, rfl, hdigits, hvals, hle⟩
    refine ⟨c :: first, rest, List.intercalate_cons_cons_left.symm, ?_, hvals, hle⟩
    rw [List.forall_mem_cons] at hdigits ⊢
    exact ⟨List.forall_mem_cons.mpr ⟨hc, hdigits.1⟩, hdigits.2⟩

theorem numbers_dot : Numbers octet (46 :: text) vals ↔
    octet ≤ 255 ∧ ∃ vs, vals = octet :: vs ∧ Numbers 0 text vs := by
  constructor
  · rintro ⟨first, rest, htext, hdigits, hvals, hle⟩
    rw [List.forall_mem_cons] at hdigits
    rcases first_field htext with ⟨f, rfl, -⟩ | ⟨rfl, -, hrest, htail⟩
    · exact absurd (hdigits.1 46 (List.mem_cons_self ..)) (by decide)
    · subst hvals
      rw [List.forall_mem_cons] at hle
      obtain ⟨g, rest, rfl⟩ := List.exists_cons_of_ne_nil hrest
      exact ⟨hle.1, _, rfl, g, rest, htail, hdigits.2, rfl, hle.2⟩
  · rintro ⟨hle, vs, rfl, first, rest, rfl, hdigits, rfl, hle'⟩
    exact ⟨[], first :: rest, by rw [List.intercalate_cons_cons]; rfl,
      List.forall_mem_cons.mpr ⟨by simp, hdigits⟩, rfl, List.forall_mem_cons.mpr ⟨hle, hle'⟩⟩

theorem numbers_other (hc : ¬ IsDigit c) (hc' : c ≠ 46) : ¬ Numbers octet (c :: text) vals := by
  rintro ⟨first, rest, htext, hdigits, -⟩
  rw [List.forall_mem_cons] at hdigits
  rcases first_field htext with ⟨f, rfl, -⟩ | ⟨-, rfl, -⟩
  · exact hc (hdigits.1 c (List.mem_cons_self ..))
  · exact hc' rfl

/-- The first number is at least what has been read of it. -/
theorem Numbers.octet_le (h : Numbers octet text vals) : octet ≤ 255 := by
  obtain ⟨first, rest, -, -, rfl, hle⟩ := h
  exact le_trans (le_decimalFrom octet first) (hle _ (List.mem_cons_self ..))

theorem Numbers.length_le (h : Numbers octet text vals) : vals.length ≤ text.length + 1 := by
  induction text generalizing octet vals with
  | nil =>
    rw [(numbers_nil.mp h).2]
    simp
  | cons c text ih =>
    rw [List.length_cons]
    by_cases hc : IsDigit c
    · have hle := ih ((numbers_digit hc).mp h)
      omega
    · by_cases hdot : c = 46
      · subst hdot
        obtain ⟨-, vs, rfl, hvs⟩ := numbers_dot.mp h
        have hle := ih hvs
        rw [List.length_cons]
        omega
      · exact absurd h (numbers_other hc hdot)

/-- The address loop accepts numbers between dots and shifts them in. The
number of dots is counted in 32 bits. -/
theorem inetAddrFrom_eq_some_mod (addr n r : ℕ) (hoctet : octet ≤ 255) (hn : n < 2 ^ 32) :
    inetAddrFrom addr octet n text = some r ↔
      ∃ vals, Numbers octet text vals ∧ (n + vals.length) % 2 ^ 32 = 4 ∧
        r = vals.foldl (fun a v => toUInt32 ((a <<< 8 + v : ℕ) : ℤ)) addr := by
  induction text generalizing addr octet n with
  | nil =>
    rw [inetAddrFrom]
    simp only [numbers_nil]
    constructor
    · intro h
      split at h
      · next hthree => exact ⟨[octet], ⟨hoctet, rfl⟩, by simp [hthree], (Option.some.inj h).symm⟩
      · cases h
    · rintro ⟨vals, ⟨-, rfl⟩, hlen, rfl⟩
      rw [List.length_singleton] at hlen
      rw [if_pos (by omega)]
      rfl
  | cons c text ih =>
    rw [inetAddrFrom]
    by_cases hc : IsDigit c
    · rw [if_pos hc]
      simp only [numbers_digit hc]
      by_cases hbig : 255 < octet * 10 + digitValue c
      · rw [if_pos hbig]
        constructor
        · intro h
          cases h
        · rintro ⟨vals, hvals, -⟩
          have hle := hvals.octet_le
          omega
      · rw [if_neg hbig]
        exact ih addr n (by omega) hn
    · rw [if_neg hc]
      by_cases hdot : c = 46
      · subst hdot
        have hnext : toUInt32 ((n : ℤ) + 1) = (n + 1) % 2 ^ 32 := by
          unfold toUInt32
          omega
        rw [if_pos rfl, hnext, ih _ _ (by omega) (by omega)]
        simp only [numbers_dot]
        constructor
        · rintro ⟨vs, hvs, hlen, rfl⟩
          exact ⟨octet :: vs, ⟨hoctet, vs, rfl, hvs⟩, by rw [List.length_cons]; omega, rfl⟩
        · rintro ⟨vals, ⟨-, vs, rfl, hvs⟩, hlen, rfl⟩
          exact ⟨vs, hvs, by rw [List.length_cons] at hlen; omega, rfl⟩
      · rw [if_neg hdot]
        constructor
        · intro h
          cases h
        · rintro ⟨vals, hvals, -⟩
          exact absurd hvals (numbers_other hc hdot)

/-- In a text that is no longer than the counter goes there are four. -/
theorem inetAddrFrom_eq_some (addr n r : ℕ) (hoctet : octet ≤ 255)
    (hn : n + text.length < 2 ^ 32) : inetAddrFrom addr octet n text = some r ↔
      ∃ vals, Numbers octet text vals ∧ n + vals.length = 4 ∧
        r = vals.foldl (fun a v => toUInt32 ((a <<< 8 + v : ℕ) : ℤ)) addr := by
  rw [inetAddrFrom_eq_some_mod addr n r hoctet (by omega)]
  constructor
  · rintro ⟨vals, hvals, hlen, hr⟩
    have hle := hvals.length_le
    exact ⟨vals, hvals, by omega, hr⟩
  · rintro ⟨vals, hvals, hlen, hr⟩
    exact ⟨vals, hvals, by omega, hr⟩

end

theorem ofNat_congr {x y : ℕ} (h : x % 2 ^ 8 = y % 2 ^ 8) : UInt8.ofNat x = UInt8.ofNat y := by
  rw [← UInt8.toNat_inj, UInt8.toNat_ofNat', UInt8.toNat_ofNat', h]

/-- The last four numbers come to lie in memory in their order, and what was
shifted in before them is gone. -/
theorem htonl_foldl {vals : List ℕ} (hlen : vals.length = 4) (hle : ∀ v ∈ vals, v ≤ 255)
    (addr : ℕ) : htonl (vals.foldl (fun a v => toUInt32 ((a <<< 8 + v : ℕ) : ℤ)) addr) =
      vals.map UInt8.ofNat := by
  obtain ⟨a, b, c, d, rfl⟩ : ∃ a b c d, vals = [a, b, c, d] := by
    match vals, hlen with
    | [a, b, c, d], _ => exact ⟨a, b, c, d, rfl⟩
  simp only [List.mem_cons, List.not_mem_nil, or_false, forall_eq_or_imp, forall_eq] at hle
  obtain ⟨ha, hb, hc, hd⟩ := hle
  have hword (x v : ℕ) : toUInt32 ((x <<< 8 + v : ℕ) : ℤ) = (x * 256 + v) % 2 ^ 32 := by
    rw [Nat.shiftLeft_eq]
    unfold toUInt32
    omega
  simp only [List.foldl_cons, List.foldl_nil, hword]
  simp only [htonl, List.map_cons, List.map_nil, Nat.shiftRight_eq_div_pow]
  simp only [List.cons.injEq, and_true]
  refine ⟨ofNat_congr ?_, ofNat_congr ?_, ofNat_congr ?_, ofNat_congr ?_⟩ <;> omega

theorem Dotted.inetAddr_eq {text addr : List UInt8} (h : Dotted text addr)
    (hlen : text.length < 2 ^ 32) : inetAddr text = addr := by
  obtain ⟨vals, hvals, hfour, rfl⟩ := h
  have hle : ∀ v ∈ vals, v ≤ 255 := by
    obtain ⟨first, rest, -, -, -, hle⟩ := hvals
    exact hle
  have hloop := (inetAddrFrom_eq_some 0 0 _ (Nat.zero_le _) (by omega)).mpr
    ⟨vals, hvals, by omega, rfl⟩
  rw [inetAddr, hloop, Option.map_some, Option.getD_some, htonl_foldl hfour hle 0]

/-- An address that is not `INADDR_NONE` was read from four numbers. -/
theorem inetAddr_dotted {text : List UInt8} (hlen : text.length < 2 ^ 32)
    (h : inetAddr text ≠ inaddrNone) : Dotted text (inetAddr text) := by
  cases hloop : inetAddrFrom 0 0 0 text with
  | none =>
    rw [inetAddr, hloop] at h
    exact absurd rfl h
  | some r =>
    obtain ⟨vals, hvals, hfour, -⟩ :=
      (inetAddrFrom_eq_some 0 0 r (Nat.zero_le _) (by omega)).mp hloop
    have hdotted : Dotted text (vals.map UInt8.ofNat) := ⟨vals, hvals, by omega, rfl⟩
    rwa [hdotted.inetAddr_eq hlen]

/-- The text is an address and a mask with a slash between them. Of the
addresses only the mask may be the one that stands for a failure. -/
def IpMask (data ip mask : List UInt8) : Prop :=
  ∃ ipText maskText, data = ipText ++ 47 :: maskText ∧ 47 ∉ ipText ∧
    ipText.length ≤ inetAddrstrlen ∧ maskText.length ≤ inetAddrstrlen ∧
    Dotted ipText ip ∧ ip ≠ inaddrNone ∧ Dotted maskText mask ∧
    (mask = inaddrNone → maskText = fullMaskText)

/-- The parser accepts no mask that is not contiguous. -/
def IpMaskChecked (data : List UInt8) : Prop :=
  ∀ ip mask, parseIpAndMask data = Except.ok (some (ip, mask)) → Contiguous mask

theorem dotted_fullMaskText : Dotted fullMaskText inaddrNone := by
  have hfive : IsDigit 53 := ⟨by decide, by decide⟩
  have hfields : ∀ c ∈ ([50, 53, 53] : List UInt8), IsDigit c := by
    intro c hc
    simp only [List.mem_cons, List.not_mem_nil, or_false] at hc
    rcases hc with rfl | rfl | rfl
    · exact ⟨by decide, by decide⟩
    · exact hfive
    · exact hfive
  refine ⟨[255, 255, 255, 255], ⟨[50, 53, 53], List.replicate 3 [50, 53, 53], rfl, ?_, rfl, ?_⟩,
    rfl, rfl⟩
  · intro field hfield
    rw [← List.replicate_succ] at hfield
    rw [List.eq_of_mem_replicate hfield]
    exact hfields
  · intro v hv
    exact (List.eq_of_mem_replicate (n := 4) hv).le

theorem inetAddr_length (text : List UInt8) : (inetAddr text).length = 4 := by
  unfold inetAddr
  cases inetAddrFrom 0 0 0 text <;> rfl

/-- The parser on a text with a slash: the check has no say in it. -/
theorem parseIpAndMask_slash {a b : List UInt8} (ha : 47 ∉ a) :
    parseIpAndMask (a ++ 47 :: b) =
      if inetAddrstrlen < a.length ∨ inetAddrstrlen < b.length then Except.ok none
      else if inetAddr a = inaddrNone then Except.ok none
      else if b.length = inetAddrstrlen ∧ b = fullMaskText then
        Except.ok (some (inetAddr a, inaddrNone))
      else if inetAddr b = inaddrNone then Except.ok none
      else Except.ok (some (inetAddr a, inetAddr b)) := by
  have hcheck : checkMask 5 (inetAddr b) = Except.ok hcoreOk := by
    have hlen := inetAddr_length b
    have hrun := checkMask_ok (show (inetAddr b).length < 2 ^ 32 by omega)
    rwa [hlen] at hrun
  unfold parseIpAndMask
  rw [strlchr_append ha]
  dsimp only
  rw [List.take_left, drop_append_cons, hcheck, ok_bind, if_neg (show ¬ hcoreOk ≠ hcoreOk by simp)]
  rfl

/-- The parser accepts exactly what it can read. -/
theorem parseIpAndMask_eq_some (data ip mask : List UInt8) :
    parseIpAndMask data = Except.ok (some (ip, mask)) ↔ IpMask data ip mask := by
  constructor
  · intro h
    rcases strlchr_cases data 47 with ⟨a, b, rfl, ha⟩ | ⟨-, hp⟩
    · rw [parseIpAndMask_slash ha] at h
      split at h
      · cases h
      next hlen =>
      rw [not_or, Nat.not_lt, Nat.not_lt] at hlen
      unfold inetAddrstrlen at hlen
      split at h
      · cases h
      next hip =>
      have hdotted := inetAddr_dotted (by omega) hip
      split at h
      · next hfull =>
        cases h
        obtain ⟨-, rfl⟩ := hfull
        exact ⟨a, _, rfl, ha, hlen.1, hlen.2, hdotted, hip, dotted_fullMaskText, fun _ => rfl⟩
      · split at h
        · cases h
        next hmask =>
        cases h
        exact ⟨a, b, rfl, ha, hlen.1, hlen.2, hdotted, hip, inetAddr_dotted (by omega) hmask,
          fun hnone => absurd hnone hmask⟩
    · unfold parseIpAndMask at h
      rw [hp] at h
      cases h
  · rintro ⟨a, b, rfl, ha, hlen, hlen', hip, hipne, hmask, hnone⟩
    have hipeq := hip.inetAddr_eq (by unfold inetAddrstrlen at hlen; omega)
    have hmaskeq := hmask.inetAddr_eq (by unfold inetAddrstrlen at hlen'; omega)
    rw [parseIpAndMask_slash ha, if_neg (by omega), hipeq, if_neg hipne, hmaskeq]
    by_cases hfull : b = fullMaskText
    · have hmaskFull : mask = inaddrNone := by
        rw [← hmaskeq, hfull]
        exact dotted_fullMaskText.inetAddr_eq (by decide)
      rw [if_pos ⟨by rw [hfull]; rfl, hfull⟩, hmaskFull]
    · rw [if_neg (fun h => hfull h.2), if_neg (fun h => hfull (hnone h))]

/-- The value of a hexadecimal digit. -/
def hexDigit (ch : UInt8) : Option ℕ :=
  if IsDigit ch then some (digitValue ch)
  else if 97 ≤ ch ||| 0x20 ∧ ch ||| 0x20 ≤ 102 then some ((ch ||| 0x20).toNat - 97 + 10)
  else none

/-- The loop of `hcore_hextoi`. -/
def hextoiFrom (value : ℤ) : List UInt8 → ℤ
  | [] => value
  | ch :: rest =>
    if (2 ^ 31 - 1) / 16 < value then hcoreError
    else
      match hexDigit ch with
      | some x => hextoiFrom (value * 16 + x) rest
      | none => hcoreError

def hextoi (line : List UInt8) : ℤ :=
  if line.length = 0 then hcoreError else hextoiFrom 0 line

/-- The loop of `hcore_parse_mac`: `mac` holds the bytes at that pointer. A
single hexadecimal digit at the end makes `hcore_hextoi` read behind the
text. -/
def parseMacFrom (i : ℕ) (sep : Bool) (mac : ℕ → UInt8) :
    List UInt8 → Exec (ℤ × (ℕ → UInt8))
  | [] => pure (if i ≠ 6 then hcoreError else hcoreOk, mac)
  | c :: rest =>
    if i = 6 then pure (hcoreError, mac)
    else if sep then
      if c = 58 ∨ c = 45 then parseMacFrom i false mac rest else pure (hcoreError, mac)
    else
      match rest with
      | [] => if hextoi [c] = hcoreError then pure (hcoreError, mac) else undefined
      | c' :: rest =>
        if hextoi [c, c'] = hcoreError then pure (hcoreError, mac)
        else
          parseMacFrom (i + 1) true
            (Function.update mac i (UInt8.ofNat (hextoi [c, c']).toNat)) rest

def parseMac (mac : ℕ → UInt8) (data : List UInt8) : Exec (ℤ × (ℕ → UInt8)) :=
  parseMacFrom 0 false mac data

/-- `sizeof("XX:XX:XX:XX:XX:XX") - 1`. -/
def macAddressStrlen : ℕ := 17

/-- The first six bytes at a pointer. -/
def sixBytes (mac : ℕ → UInt8) : List UInt8 := (List.range 6).map mac

/-- The result with what then lies at the pointers `mac` and `mask`. -/
def parseMacAndMask (mac mask : ℕ → UInt8) (data : List UInt8) :
    Exec (ℤ × (ℕ → UInt8) × (ℕ → UInt8)) :=
  match strlchr data 47 with
  | none => pure (hcoreError, mac, mask)
  | some p =>
    let macText := data.take p
    let maskText := data.drop (p + 1)
    if macText.length ≠ macAddressStrlen then pure (hcoreError, mac, mask)
    else if maskText.length ≠ macAddressStrlen then pure (hcoreError, mac, mask)
    else do
      let r ← parseMac mac macText
      if r.1 ≠ hcoreOk then pure (hcoreError, r.2, mask)
      else do
        let r' ← parseMac mask maskText
        if r'.1 ≠ hcoreOk then pure (hcoreError, r.2, r'.2)
        else do
          let c ← checkMask 7 (sixBytes r'.2)
          if c ≠ hcoreOk then pure (hcoreError, r.2, r'.2) else pure (hcoreOk, r.2, r'.2)

/-- Pairs of hexadecimal digits between separators, and the bytes they stand
for. -/
inductive MacText : List UInt8 → List UInt8 → Prop
  | last {c c' : UInt8} {x y : ℕ} (hx : hexDigit c = some x) (hy : hexDigit c' = some y) :
    MacText [c, c'] [UInt8.ofNat (x * 16 + y)]
  | more {c c' s : UInt8} {x y : ℕ} {text vals : List UInt8} (hx : hexDigit c = some x)
    (hy : hexDigit c' = some y) (hs : s = 58 ∨ s = 45) (h : MacText text vals) :
    MacText (c :: c' :: s :: text) (UInt8.ofNat (x * 16 + y) :: vals)

theorem hexDigit_le {c : UInt8} {x : ℕ} (h : hexDigit c = some x) : x ≤ 15 := by
  unfold hexDigit at h
  split at h
  · next hc =>
    have hle := hc.value_le
    have hx := Option.some.inj h
    omega
  · split at h
    · next hc =>
      have hle : (c ||| 0x20).toNat ≤ 102 := hc.2
      have hx := Option.some.inj h
      omega
    · cases h

/-- Two characters are a number exactly when both are hexadecimal digits. -/
theorem hextoi_pair (c c' : UInt8) :
    (∃ x y, hexDigit c = some x ∧ hexDigit c' = some y ∧
        hextoi [c, c'] = ((x * 16 + y : ℕ) : ℤ)) ∨
      (hextoi [c, c'] = hcoreError ∧ ∀ x y, hexDigit c = some x → hexDigit c' ≠ some y) := by
  unfold hextoi
  rw [if_neg (by simp), hextoiFrom, if_neg (by norm_num)]
  cases hx : hexDigit c with
  | none => exact Or.inr ⟨rfl, by simp⟩
  | some x =>
    have hle := hexDigit_le hx
    dsimp only
    rw [hextoiFrom, if_neg (by omega)]
    cases hy : hexDigit c' with
    | none => exact Or.inr ⟨rfl, by simp⟩
    | some y =>
      refine Or.inl ⟨x, y, rfl, rfl, ?_⟩
      simp [hextoiFrom]

theorem MacText.length_eq {text vals : List UInt8} (h : MacText text vals) :
    text.length + 1 = 3 * vals.length := by
  induction h with
  | last hx hy => rfl
  | more hx hy hs h ih =>
    simp only [List.length_cons]
    omega

theorem map_update (mac : ℕ → UInt8) (i : ℕ) (v : UInt8) :
    (List.range (i + 1)).map (Function.update mac i v) = (List.range i).map mac ++ [v] := by
  rw [List.range_succ, List.map_append, List.map_singleton, Function.update_self]
  congr 1
  refine List.map_congr_left (fun j hj => Function.update_of_ne ?_ _ _)
  have hlt := List.mem_range.mp hj
  omega

theorem parseMacFrom_sep (i : ℕ) (mac : ℕ → UInt8) (s : UInt8) (text : List UInt8) :
    parseMacFrom i true mac (s :: text) =
      if i = 6 then Except.ok (hcoreError, mac)
      else if s = 58 ∨ s = 45 then parseMacFrom i false mac text
      else Except.ok (hcoreError, mac) := by
  cases text <;> rfl

/-- A text of the right number of pairs is accepted. -/
theorem MacText.parse {text vals : List UInt8} (h : MacText text vals) (i : ℕ)
    (mac : ℕ → UInt8) (hi : i + vals.length = 6) :
    ∃ mac', parseMacFrom i false mac text = Except.ok (hcoreOk, mac') ∧
      sixBytes mac' = (List.range i).map mac ++ vals := by
  induction h generalizing i mac with
  | @last c c' x y hx hy =>
    obtain rfl : i = 5 := Nat.add_right_cancel hi
    refine ⟨Function.update mac 5 (UInt8.ofNat (x * 16 + y)), ?_, map_update mac 5 _⟩
    rcases hextoi_pair c c' with ⟨x', y', hx', hy', hval⟩ | ⟨-, hnone⟩
    · obtain rfl : x = x' := Option.some.inj (hx.symm.trans hx')
      obtain rfl : y = y' := Option.some.inj (hy.symm.trans hy')
      rw [parseMacFrom, if_neg (by omega), if_neg (by simp), hval]
      rw [if_neg (by unfold hcoreError; omega), Int.toNat_natCast, parseMacFrom]
      rfl
    · exact absurd hy (hnone x y hx)
  | @more c c' s x y text vals hx hy hs h ih =>
    rw [List.length_cons] at hi
    rcases hextoi_pair c c' with ⟨x', y', hx', hy', hval⟩ | ⟨-, hnone⟩
    · obtain rfl : x = x' := Option.some.inj (hx.symm.trans hx')
      obtain rfl : y = y' := Option.some.inj (hy.symm.trans hy')
      have hlen := h.length_eq
      obtain ⟨mac', hrun, hbytes⟩ := ih (i + 1)
        (Function.update mac i (UInt8.ofNat (x * 16 + y))) (by omega)
      refine ⟨mac', ?_, ?_⟩
      · rw [parseMacFrom, if_neg (by omega), if_neg (by simp), hval]
        rw [if_neg (by unfold hcoreError; omega), Int.toNat_natCast, parseMacFrom_sep,
          if_neg (by omega), if_pos hs, hrun]
      · rw [hbytes, map_update, List.append_assoc]
        rfl
    · exact absurd hy (hnone x y hx)

/-- What is accepted is a text of the right number of pairs. -/
theorem macText_of_parse (n : ℕ) {text : List UInt8} (hn : text.length ≤ n) {i : ℕ} (hi : i < 6)
    {mac mac' : ℕ → UInt8} (h : parseMacFrom i false mac text = Except.ok (hcoreOk, mac')) :
    ∃ vals, MacText text vals ∧ i + vals.length = 6 := by
  induction n generalizing text i mac with
  | zero =>
    obtain rfl := List.length_eq_zero_iff.mp (Nat.le_zero.mp hn)
    rw [parseMacFrom, if_pos (by omega)] at h
    cases h
  | succ n ih =>
    match text with
    | [] =>
      rw [parseMacFrom, if_pos (by omega)] at h
      cases h
    | [c] =>
      rw [parseMacFrom, if_neg (by omega), if_neg (by simp)] at h
      split at h <;> cases h
    | c :: c' :: rest =>
      rw [parseMacFrom, if_neg (by omega), if_neg (by simp)] at h
      rcases hextoi_pair c c' with ⟨x, y, hx, hy, hval⟩ | ⟨herror, -⟩
      · rw [if_neg (by rw [hval]; unfold hcoreError; omega)] at h
        cases rest with
        | nil =>
          rw [parseMacFrom] at h
          split at h
          · cases h
          · next hsix =>
            exact ⟨_, MacText.last hx hy, by simp only [List.length_singleton]; omega⟩
        | cons s rest =>
          rw [parseMacFrom_sep] at h
          split at h
          · cases h
          next hsix =>
          split at h
          · next hs =>
            simp only [List.length_cons] at hn
            obtain ⟨vals, hvals, hlen⟩ := ih (by omega) (by omega) h
            exact ⟨_, MacText.more hx hy hs hvals, by rw [List.length_cons]; omega⟩
          · cases h
      · rw [if_pos herror] at h
        cases h

theorem parseMac_ok (mac : ℕ → UInt8) (text vals : List UInt8) :
    (∃ mac', parseMac mac text = Except.ok (hcoreOk, mac') ∧ sixBytes mac' = vals) ↔
      MacText text vals ∧ vals.length = 6 := by
  constructor
  · rintro ⟨mac', hrun, rfl⟩
    obtain ⟨vals, hvals, hlen⟩ := macText_of_parse text.length le_rfl (by omega) hrun
    obtain ⟨mac'', hrun', hbytes⟩ := hvals.parse 0 mac hlen
    obtain ⟨-, rfl⟩ := Prod.mk.inj (Except.ok.inj (hrun.symm.trans hrun'))
    have hbytes : sixBytes mac' = vals := hbytes
    rw [hbytes]
    exact ⟨hvals, by omega⟩
  · rintro ⟨hvals, hlen⟩
    exact hvals.parse 0 mac (by omega)

/-- The text is a hardware address and a mask with a slash between them. -/
def MacMask (data mask : List UInt8) : Prop :=
  ∃ macText maskText mac, data = macText ++ 47 :: maskText ∧ 47 ∉ macText ∧
    MacText macText mac ∧ mac.length = 6 ∧ MacText maskText mask ∧ mask.length = 6

/-- The parser accepts no mask that is not contiguous, whatever lay at the
pointers before. -/
def MacMaskChecked (data : List UInt8) : Prop :=
  ∀ mac mask mac' mask', parseMacAndMask mac mask data = Except.ok (hcoreOk, mac', mask') →
    Contiguous (sixBytes mask')

theorem parseMacAndMask_slash (mac mask : ℕ → UInt8) {a b : List UInt8} (ha : 47 ∉ a)
    {mac' mask' : ℕ → UInt8} :
    parseMacAndMask mac mask (a ++ 47 :: b) = Except.ok (hcoreOk, mac', mask') ↔
      a.length = macAddressStrlen ∧ b.length = macAddressStrlen ∧
        parseMac mac a = Except.ok (hcoreOk, mac') ∧
        parseMac mask b = Except.ok (hcoreOk, mask') := by
  have hcheck (m : ℕ → UInt8) : checkMask 7 (sixBytes m) = Except.ok hcoreOk :=
    checkMask_ok (show 6 < 2 ^ 32 by omega : (sixBytes m).length < 2 ^ 32)
  unfold parseMacAndMask
  rw [strlchr_append ha]
  dsimp only
  rw [List.take_left, drop_append_cons]
  constructor
  · intro h
    split at h
    · cases h
    next hlen =>
    split at h
    · cases h
    next hlen' =>
    rw [not_not] at hlen hlen'
    refine ⟨hlen, hlen', ?_⟩
    obtain ⟨⟨r, m⟩, hrun, h⟩ := bind_eq_ok.mp h
    dsimp only at h
    split at h
    · cases h
    next hr =>
    obtain ⟨⟨r', m'⟩, hrun', h⟩ := bind_eq_ok.mp h
    dsimp only at h
    split at h
    · cases h
    next hr' =>
    rw [hcheck, ok_bind, if_neg (by simp)] at h
    rw [not_not] at hr hr'
    subst hr hr'
    cases h
    exact ⟨hrun, hrun'⟩
  · rintro ⟨hlen, hlen', hrun, hrun'⟩
    rw [if_neg (by simpa using hlen), if_neg (by simpa using hlen'), hrun, ok_bind,
      if_neg (by simp), hrun', ok_bind, if_neg (by simp), hcheck, ok_bind, if_neg (by simp)]
    rfl

/-- The parser accepts exactly what it can read. -/
theorem parseMacAndMask_ok (mac mask : ℕ → UInt8) (data vals : List UInt8) :
    (∃ mac' mask', parseMacAndMask mac mask data = Except.ok (hcoreOk, mac', mask') ∧
      sixBytes mask' = vals) ↔ MacMask data vals := by
  constructor
  · rintro ⟨mac', mask', hrun, hvals⟩
    rcases strlchr_cases data 47 with ⟨a, b, rfl, ha⟩ | ⟨-, hp⟩
    · obtain ⟨-, -, hmac, hmask⟩ := (parseMacAndMask_slash mac mask ha).mp hrun
      obtain ⟨ha', hsix⟩ := (parseMac_ok mac a _).mp ⟨mac', hmac, rfl⟩
      obtain ⟨hb', hsix'⟩ := (parseMac_ok mask b vals).mp ⟨mask', hmask, hvals⟩
      exact ⟨a, b, _, rfl, ha, ha', hsix, hb', hsix'⟩
    · unfold parseMacAndMask at hrun
      rw [hp] at hrun
      cases hrun
  · rintro ⟨a, b, m, rfl, ha, ha', hsix, hb', hsix'⟩
    obtain ⟨mac', hmac, -⟩ := (parseMac_ok mac a m).mpr ⟨ha', hsix⟩
    obtain ⟨mask', hmask, hvals⟩ := (parseMac_ok mask b vals).mpr ⟨hb', hsix'⟩
    have hlen := ha'.length_eq
    have hlen' := hb'.length_eq
    refine ⟨mac', mask', (parseMacAndMask_slash mac mask ha).mpr ⟨?_, ?_, hmac, hmask⟩, hvals⟩
    · unfold macAddressStrlen
      omega
    · unfold macAddressStrlen
      omega

/-- The check decides the masks of ones and zeros only where there is nothing
to refuse, and the parsers let every mask through that they can read. -/
theorem check_mask_iff (bytes ipText macText : List UInt8) :
    (Decides bytes ↔ bytes.length < 2 ^ 32 ∧ Contiguous bytes) ∧
      (IpMaskChecked ipText ↔ ∀ ip mask, IpMask ipText ip mask → Contiguous mask) ∧
      (MacMaskChecked macText ↔ ∀ mask, MacMask macText mask → Contiguous mask) := by
  refine ⟨decides_iff bytes, ?_, ?_⟩
  · unfold IpMaskChecked
    simp only [parseIpAndMask_eq_some]
  · constructor
    · intro h mask hmask
      obtain ⟨mac', mask', hrun, rfl⟩ :=
        (parseMacAndMask_ok (fun _ => 0) (fun _ => 0) macText mask).mpr hmask
      exact h _ _ _ _ hrun
    · intro h mac mask mac' mask' hrun
      exact h _ ((parseMacAndMask_ok mac mask macText _).mp ⟨mac', mask', hrun, rfl⟩)

/-- The invalid example of the header, 11010000, is accepted. -/
theorem example_mask_accepted : ¬ ∀ bytes, Decides bytes := by
  intro h
  obtain ⟨-, hbits⟩ := (decides_iff [0xd0]).mp (h [0xd0])
  exact absurd hbits (by decide)

end HCore.NetMask
