import HCore.Machine
import HCore.BitMap
import HCore.DecimalText
import Mathlib.Tactic.NormNum

/-!
The decimal scanners and the size parser. A scanner compares what it has read
with the largest integer of its type before the next digit, and both
operations on the integer are checked. The size parser takes a unit off the
end of the line and compares the number with what the unit leaves room for.
-/

namespace HCore.NumberText

open Machine BitMap DecimalText

/-- The result of an operation on a signed type with the largest integer
`max`, which must be one of its integers. -/
def signed (max x : ℤ) : Exec ℤ := if -max - 1 ≤ x ∧ x ≤ max then pure x else undefined

theorem signed_ok {max x : ℤ} (hlow : -max - 1 ≤ x) (hhigh : x ≤ max) :
    signed max x = Except.ok x := if_pos ⟨hlow, hhigh⟩

/-- The loop of `hcore_atosz` and `hcore_atoi`. -/
def atoFrom (max value : ℤ) : List UInt8 → Exec ℤ
  | [] => pure value
  | c :: rest =>
    if ¬ IsDigit c then pure hcoreError
    else if max / 10 ≤ value ∧ (max / 10 < value ∨ max % 10 < digitValue c) then pure hcoreError
    else do
      let tens ← signed max (value * 10)
      let value ← signed max (tens + digitValue c)
      atoFrom max value rest

def ato (max : ℤ) (line : List UInt8) : Exec ℤ :=
  if line.length = 0 then pure hcoreError else atoFrom max 0 line

/-- `HCORE_MAX_SSIZE_T_VALUE`. -/
def maxSsize : ℤ := 9223372036854775807

/-- `HCORE_MAX_INT_T_VALUE`. -/
def maxInt : ℤ := 2147483647

def atosz (line : List UInt8) : Exec ℤ := ato maxSsize line

def atoi (line : List UInt8) : Exec ℤ := ato maxInt line

section

variable {max value : ℤ} {c : UInt8} {line rest : List UInt8} {v : ℕ}

/-- The test before a digit lets exactly those through that fit. -/
theorem room_iff (hc : IsDigit c) :
    (max / 10 ≤ value ∧ (max / 10 < value ∨ max % 10 < digitValue c)) ↔
      max < value * 10 + digitValue c := by
  have hle := hc.value_le
  omega

theorem atoFrom_digit (hvalue : 0 ≤ value) (hc : IsDigit c)
    (hfits : value * 10 + digitValue c ≤ max) :
    atoFrom max value (c :: rest) = atoFrom max (value * 10 + digitValue c) rest := by
  have hroom := (room_iff hc).not.mpr (not_lt.mpr hfits)
  rw [atoFrom, if_neg (not_not.mpr hc), if_neg hroom]
  rw [signed_ok (by omega) (by omega), ok_bind, signed_ok (by omega) (by omega), ok_bind]

theorem atoFrom_large (hc : IsDigit c)
    (hlarge : max < value * 10 + digitValue c) :
    atoFrom max value (c :: rest) = Except.ok hcoreError := by
  rw [atoFrom, if_neg (not_not.mpr hc), if_pos ((room_iff hc).mpr hlarge), pure_eq_ok]

/-- The loop returns the number if it is one and fits. -/
theorem atoFrom_cases (v : ℕ) (hv : (v : ℤ) ≤ max) (line : List UInt8) :
    ((∀ c ∈ line, IsDigit c) ∧ (decimalFrom v line : ℤ) ≤ max ∧
        atoFrom max v line = Except.ok (decimalFrom v line : ℤ)) ∨
      (((∀ c ∈ line, IsDigit c) → max < decimalFrom v line) ∧
        atoFrom max v line = Except.ok hcoreError) := by
  induction line generalizing v with
  | nil => exact Or.inl ⟨by simp, hv, rfl⟩
  | cons c rest ih =>
    rw [decimalFrom_cons]
    by_cases hc : IsDigit c
    · have hcast : (v : ℤ) * 10 + digitValue c = ((v * 10 + digitValue c : ℕ) : ℤ) := by
        push_cast
        rfl
      by_cases hfits : (v : ℤ) * 10 + digitValue c ≤ max
      · rw [atoFrom_digit (by omega) hc hfits, hcast, List.forall_mem_cons]
        rcases ih (v * 10 + digitValue c) (by omega) with ⟨hdigits, hle, hrun⟩ | ⟨hnot, hrun⟩
        · exact Or.inl ⟨⟨hc, hdigits⟩, hle, hrun⟩
        · exact Or.inr ⟨fun h => hnot h.2, hrun⟩
      · have hle := le_decimalFrom (v * 10 + digitValue c) rest
        exact Or.inr ⟨fun _ => by omega, atoFrom_large hc (by omega)⟩
    · refine Or.inr ⟨fun h => absurd (h c (List.mem_cons_self ..)) hc, ?_⟩
      rw [atoFrom, if_pos hc, pure_eq_ok]

/-- A scanner returns a number or the error, and never overflows. -/
theorem ato_cases (hmax : 0 ≤ max) (line : List UInt8) :
    (∃ v : ℕ, Number line v ∧ (v : ℤ) ≤ max ∧ ato max line = Except.ok (v : ℤ)) ∨
      ((∀ v : ℕ, Number line v → max < v) ∧ ato max line = Except.ok hcoreError) := by
  by_cases hlen : line.length = 0
  · refine Or.inr ⟨fun v h => absurd (List.length_eq_zero_iff.mp hlen) h.1, ?_⟩
    rw [ato, if_pos hlen, pure_eq_ok]
  · rw [ato, if_neg hlen]
    rcases atoFrom_cases 0 hmax line with ⟨hdigits, hle, hrun⟩ | ⟨hnot, hrun⟩
    · exact Or.inl ⟨_, ⟨List.length_eq_zero_iff.not.mp hlen, hdigits, rfl⟩, hle, hrun⟩
    · refine Or.inr ⟨?_, hrun⟩
      rintro v ⟨-, hdigits, rfl⟩
      exact hnot hdigits

theorem ato_number (hmax : 0 ≤ max) (h : Number line v) (hv : (v : ℤ) ≤ max) :
    ato max line = Except.ok (v : ℤ) := by
  rcases ato_cases hmax line with ⟨u, hu, -, hrun⟩ | ⟨hnot, -⟩
  · rwa [← hu.2.2.symm.trans h.2.2]
  · exact absurd (hnot v h) (not_lt.mpr hv)

end

/-- What the switch sets: the digits, the largest number and the scale. -/
def sizeUnit (line : List UInt8) : List UInt8 × ℤ × ℤ :=
  let unit := line.getD (line.length - 1) 0
  if unit = 75 ∨ unit = 107 then (line.take (line.length - 1), maxSsize / 1024, 1024)
  else if unit = 77 ∨ unit = 109 then
    (line.take (line.length - 1), maxSsize / (1024 * 1024), 1024 * 1024)
  else if unit = 71 ∨ unit = 103 then
    (line.take (line.length - 1), maxSsize / (1024 * 1024 * 1024), 1024 * 1024 * 1024)
  else (line, maxSsize, 1)

def parseSize (line : List UInt8) : Exec ℤ :=
  if line.length = 0 then pure hcoreError
  else
    let (digits, max, scale) := sizeUnit line
    do
      let size ← atosz digits
      if size = hcoreError ∨ max < size then pure hcoreError else signed maxSsize (size * scale)

/-- A unit behind a number, and what it stands for. -/
inductive Unit : UInt8 → ℕ → Prop
  | kilo {c : UInt8} (h : c = 75 ∨ c = 107) : Unit c (2 ^ 10)
  | mega {c : UInt8} (h : c = 77 ∨ c = 109) : Unit c (2 ^ 20)
  | giga {c : UInt8} (h : c = 71 ∨ c = 103) : Unit c (2 ^ 30)

/-- The line is a number with or without a unit, and the size it gives. -/
inductive SizeText : List UInt8 → ℕ → Prop
  | plain {line : List UInt8} {n : ℕ} (h : Number line n) : SizeText line n
  | scaled {line : List UInt8} {c : UInt8} {n scale : ℕ} (h : Number line n) (hc : Unit c scale) :
    SizeText (line ++ [c]) (n * scale)

theorem Unit.sizeUnit_eq {c : UInt8} {scale : ℕ} (h : Unit c scale) (line : List UInt8) :
    sizeUnit (line ++ [c]) = (line, maxSsize / (scale : ℤ), (scale : ℤ)) := by
  have hlast : (line ++ [c]).getD ((line ++ [c]).length - 1) 0 = c := by simp
  have htake : (line ++ [c]).take ((line ++ [c]).length - 1) = line := by simp
  unfold sizeUnit
  rw [hlast, htake]
  cases h with
  | kilo h => rw [if_pos h]; rfl
  | mega h =>
    rw [if_neg (by rcases h with rfl | rfl <;> decide), if_pos h]
    rfl
  | giga h =>
    rw [if_neg (by rcases h with rfl | rfl <;> decide),
      if_neg (by rcases h with rfl | rfl <;> decide), if_pos h]
    rfl

/-- A line without a unit at its end is the number itself. -/
theorem sizeUnit_plain {line : List UInt8} {c : UInt8} (h : ∀ scale, ¬ Unit c scale) :
    sizeUnit (line ++ [c]) = (line ++ [c], maxSsize / ((1 : ℕ) : ℤ), ((1 : ℕ) : ℤ)) := by
  have hlast : (line ++ [c]).getD ((line ++ [c]).length - 1) 0 = c := by simp
  unfold sizeUnit
  rw [hlast, if_neg (fun hc => h _ (Unit.kilo hc)), if_neg (fun hc => h _ (Unit.mega hc)),
    if_neg (fun hc => h _ (Unit.giga hc)), Nat.cast_one, Int.ediv_one]

theorem Unit.not_digit {c : UInt8} {scale : ℕ} (h : Unit c scale) : ¬ IsDigit c := by
  cases h with
  | kilo h => rcases h with rfl | rfl <;> decide
  | mega h => rcases h with rfl | rfl <;> decide
  | giga h => rcases h with rfl | rfl <;> decide

theorem Unit.scale_pos {c : UInt8} {scale : ℕ} (h : Unit c scale) : 0 < scale := by
  cases h <;> positivity

theorem Unit.scale_unique {c : UInt8} {scale scale' : ℕ} (h : Unit c scale) (h' : Unit c scale') :
    scale = scale' := by
  have heq := (h.sizeUnit_eq []).symm.trans (h'.sizeUnit_eq [])
  exact Nat.cast_injective (Prod.mk.inj (Prod.mk.inj heq).2).2

section

variable {line digits : List UInt8} {c : UInt8} {scale size : ℕ}

theorem sizeText_unit (hc : Unit c scale) :
    SizeText (line ++ [c]) size ↔ ∃ n, Number line n ∧ n * scale = size := by
  constructor
  · intro h
    generalize htext : line ++ [c] = text at h
    cases h with
    | plain h =>
      subst htext
      exact absurd (h.2.1 c (by simp)) hc.not_digit
    | scaled h hc' =>
      obtain ⟨rfl, hlast⟩ := List.append_inj' htext rfl
      obtain ⟨rfl, -⟩ := List.cons.inj hlast
      exact ⟨_, h, by rw [hc.scale_unique hc']⟩
  · rintro ⟨n, hn, rfl⟩
    exact SizeText.scaled hn hc

theorem sizeText_plain (hc : ∀ scale, ¬ Unit c scale) :
    SizeText (line ++ [c]) size ↔ Number (line ++ [c]) size := by
  refine ⟨fun h => ?_, SizeText.plain⟩
  generalize htext : line ++ [c] = text at h ⊢
  cases h with
  | plain h => exact h
  | scaled h hc' =>
    obtain ⟨-, hlast⟩ := List.append_inj' htext rfl
    obtain ⟨rfl, -⟩ := List.cons.inj hlast
    exact absurd hc' (hc _)

theorem not_sizeText_nil : ¬ SizeText [] size := by
  intro h
  generalize htext : ([] : List UInt8) = text at h
  cases h with
  | plain h => exact h.1 htext.symm
  | scaled h hc => exact absurd htext (by simp)

/-- The largest number before a unit is the quotient, so the test before the
product decides whether the product fits. -/
theorem parseSize_eq (hne : line ≠ []) (hscale : 0 < scale)
    (hunit : sizeUnit line = (digits, maxSsize / (scale : ℤ), (scale : ℤ))) :
    (∀ n : ℕ, Number digits n → ((n * scale : ℕ) : ℤ) ≤ maxSsize →
        parseSize line = Except.ok ((n * scale : ℕ) : ℤ)) ∧
      ((∀ n : ℕ, Number digits n → maxSsize < ((n * scale : ℕ) : ℤ)) →
        parseSize line = Except.ok hcoreError) := by
  have hmax : 0 ≤ maxSsize := by decide
  have hscale' : (0 : ℤ) < scale := by exact_mod_cast hscale
  have hfits (n : ℕ) : ((n * scale : ℕ) : ℤ) ≤ maxSsize ↔ (n : ℤ) ≤ maxSsize / scale := by
    rw [Int.le_ediv_iff_mul_le hscale']
    push_cast
    rfl
  have hquot : maxSsize / (scale : ℤ) ≤ maxSsize := Int.ediv_le_self _ hmax
  have hbody (size : ℤ) (hsize : atosz digits = Except.ok size) : parseSize line =
      if size = hcoreError ∨ maxSsize / scale < size then Except.ok hcoreError
      else signed maxSsize (size * scale) := by
    unfold parseSize
    rw [if_neg (List.length_eq_zero_iff.not.mpr hne), hunit]
    dsimp only
    rw [hsize, ok_bind, pure_eq_ok]
  constructor
  · intro n hn hle
    have hroom := (hfits n).mp hle
    rw [hbody n (ato_number hmax hn (by omega)), if_neg (by unfold hcoreError; omega)]
    push_cast at hle ⊢
    have hnonneg : (0 : ℤ) ≤ n * scale := by positivity
    exact signed_ok (by omega) hle
  · intro h
    rcases ato_cases hmax digits with ⟨n, hn, -, hrun⟩ | ⟨-, hrun⟩
    · have hroom := (hfits n).not.mp (not_le.mpr (h n hn))
      rw [hbody n hrun, if_pos (Or.inr (by omega))]
    · rw [hbody _ hrun, if_pos (Or.inl rfl)]

end

theorem parseSize_agrees (line : List UInt8) :
    (∀ size : ℕ, SizeText line size → (size : ℤ) ≤ maxSsize →
        parseSize line = Except.ok (size : ℤ)) ∧
      ((∀ size : ℕ, SizeText line size → maxSsize < size) →
        parseSize line = Except.ok hcoreError) := by
  rcases List.eq_nil_or_concat' line with rfl | ⟨init, c, rfl⟩
  · exact ⟨fun size h => absurd h not_sizeText_nil, fun _ => rfl⟩
  · have hne : init ++ [c] ≠ [] := by simp
    by_cases hc : ∃ scale, Unit c scale
    · obtain ⟨scale, hc⟩ := hc
      obtain ⟨hfits, herror⟩ := parseSize_eq hne hc.scale_pos (hc.sizeUnit_eq init)
      simp only [sizeText_unit hc]
      refine ⟨?_, fun h => herror (fun n hn => h _ ⟨n, hn, rfl⟩)⟩
      rintro size ⟨n, hn, rfl⟩ hle
      exact hfits n hn hle
    · push Not at hc
      obtain ⟨hfits, herror⟩ := parseSize_eq hne Nat.one_pos (sizeUnit_plain hc)
      simp only [mul_one] at hfits herror
      simp only [sizeText_plain hc]
      exact ⟨hfits, herror⟩

/-- **The size parser is exact**: it returns the size that the line gives if that is a
`ssize_t`, and the error otherwise; no operation on the way overflows. -/
theorem parse_size_exact (line : List UInt8) :
    (∀ size : ℕ, SizeText line size → size ≤ 2 ^ 63 - 1 →
        parseSize line = Except.ok (size : ℤ)) ∧
      ((∀ size : ℕ, SizeText line size → 2 ^ 63 - 1 < size) →
        parseSize line = Except.ok hcoreError) ∧
      parseSize line ≠ undefined := by
  obtain ⟨hfits, herror⟩ := parseSize_agrees line
  have hmax (size : ℕ) : size ≤ 2 ^ 63 - 1 ↔ (size : ℤ) ≤ maxSsize := by
    unfold maxSsize
    omega
  have herror' (h : ∀ size : ℕ, SizeText line size → 2 ^ 63 - 1 < size) :
      parseSize line = Except.ok hcoreError :=
    herror (fun size hsize => not_le.mp ((hmax size).not.mp (not_le.mpr (h size hsize))))
  refine ⟨fun size hsize hle => hfits size hsize ((hmax size).mp hle), herror', fun hundef => ?_⟩
  by_cases h : ∃ size : ℕ, SizeText line size ∧ size ≤ 2 ^ 63 - 1
  · obtain ⟨size, hsize, hle⟩ := h
    rw [hfits size hsize ((hmax size).mp hle)] at hundef
    cases hundef
  · push Not at h
    rw [herror' h] at hundef
    cases hundef

end HCore.NumberText
