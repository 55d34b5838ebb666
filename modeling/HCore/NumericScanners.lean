import HCore.NetMask
import HCore.NumberText
import Mathlib.Data.Nat.Digits.Defs

/-!
The three scanners against the positional value of a digit string. A scanner
carries the value of what it has read; the decimal ones test the next digit
for the room that is left, the hexadecimal one tests only the value before
it, which is enough as the largest integer ends on a digit 15.
-/

namespace HCore.NumericScanners

open Machine BitMap DecimalText NumberText

section Positional

variable {α : Type*} {base v : ℕ} {digit : α → Option ℕ} {line : List α}

/-- The text is a non-empty string of digits with the value `v`. -/
def Denotes (base : ℕ) (digit : α → Option ℕ) (line : List α) (v : ℕ) : Prop :=
  line ≠ [] ∧ ∃ ds : List ℕ, line.map digit = ds.map some ∧ v = Nat.ofDigits base ds.reverse

/-- The value of what has been read, digit by digit. -/
def horner (base v : ℕ) (ds : List ℕ) : ℕ := ds.foldl (fun u d => u * base + d) v

@[simp] theorem horner_nil (base v : ℕ) : horner base v [] = v := rfl

@[simp] theorem horner_cons (base v d : ℕ) (ds : List ℕ) :
    horner base v (d :: ds) = horner base (v * base + d) ds := rfl

theorem horner_eq (base v : ℕ) (ds : List ℕ) :
    horner base v ds = v * base ^ ds.length + Nat.ofDigits base ds.reverse := by
  induction ds generalizing v with
  | nil => simp
  | cons d ds ih =>
    rw [horner_cons, ih, List.reverse_cons, Nat.ofDigits_append, List.length_reverse,
      Nat.ofDigits_singleton, List.length_cons]
    ring

theorem horner_zero (base : ℕ) (ds : List ℕ) :
    horner base 0 ds = Nat.ofDigits base ds.reverse := by
  rw [horner_eq, Nat.zero_mul, Nat.zero_add]

theorem le_horner (hbase : 0 < base) (v : ℕ) (ds : List ℕ) : v ≤ horner base v ds := by
  rw [horner_eq]
  exact le_add_right (Nat.le_mul_of_pos_right v (Nat.pow_pos hbase))

theorem denotes_iff_horner :
    Denotes base digit line v ↔
      line ≠ [] ∧ ∃ ds : List ℕ, line.map digit = ds.map some ∧ v = horner base 0 ds := by
  simp only [Denotes, horner_zero]

/-- The execution returns the value if there is one up to `max`, and the error
otherwise. -/
def Exact (value : ℕ → Prop) (max : ℕ) (run : Exec ℤ) : Prop :=
  (∀ v, value v → v ≤ max → run = Except.ok (v : ℤ)) ∧
    ((∀ v, value v → max < v) → run = Except.ok hcoreError)

end Positional

def decimalDigit (c : UInt8) : Option ℕ := if IsDigit c then some (c.toNat - 48) else none

/-- A digit, or a letter from `a` to `f` in either case. -/
def hexadecimalDigit (c : UInt8) : Option ℕ :=
  if IsDigit c then some (c.toNat - 48)
  else if 97 ≤ c ∧ c ≤ 102 then some (c.toNat - 97 + 10)
  else if 65 ≤ c ∧ c ≤ 70 then some (c.toNat - 65 + 10)
  else none

/-- The loop of `hcore_hextoi`. -/
def hextoiFrom (value : ℤ) : List UInt8 → Exec ℤ
  | [] => pure value
  | ch :: rest =>
    if maxInt / 16 < value then pure hcoreError
    else if 48 ≤ ch ∧ ch ≤ 57 then do
      let shifted ← signed maxInt (value * 16)
      let value ← signed maxInt (shifted + (ch.toNat - 48 : ℕ))
      hextoiFrom value rest
    else
      let c := ch ||| 0x20
      if 97 ≤ c ∧ c ≤ 102 then do
        let shifted ← signed maxInt (value * 16)
        let value ← signed maxInt (shifted + (c.toNat - 97 + 10 : ℕ))
        hextoiFrom value rest
      else pure hcoreError

def hextoi (line : List UInt8) : Exec ℤ :=
  if line.length = 0 then pure hcoreError else hextoiFrom 0 line

/-- Setting bit 5 maps the letters of both cases, and no other character, to
the small ones. -/
theorem lower_letter (c : UInt8) :
    (97 ≤ c ||| 0x20 ∧ c ||| 0x20 ≤ 102 ↔ (97 ≤ c ∧ c ≤ 102) ∨ (65 ≤ c ∧ c ≤ 70)) ∧
      (97 ≤ c ∧ c ≤ 102 → c ||| 0x20 = c) ∧ (65 ≤ c ∧ c ≤ 70 → c ||| 0x20 = c + 32) := by
  have h : ∀ n : Fin 256, (97 ≤ UInt8.ofNat n ||| 0x20 ∧ UInt8.ofNat n ||| 0x20 ≤ 102 ↔
      (97 ≤ UInt8.ofNat n ∧ UInt8.ofNat n ≤ 102) ∨ (65 ≤ UInt8.ofNat n ∧ UInt8.ofNat n ≤ 70)) ∧
      (97 ≤ UInt8.ofNat n ∧ UInt8.ofNat n ≤ 102 → UInt8.ofNat n ||| 0x20 = UInt8.ofNat n) ∧
      (65 ≤ UInt8.ofNat n ∧ UInt8.ofNat n ≤ 70 →
        UInt8.ofNat n ||| 0x20 = UInt8.ofNat n + 32) := by
    decide +kernel
  simpa using h ⟨c.toNat, c.toNat_lt⟩

theorem hexDigit_eq (c : UInt8) : NetMask.hexDigit c = hexadecimalDigit c := by
  obtain ⟨hiff, hsmall, hcapital⟩ := lower_letter c
  unfold NetMask.hexDigit hexadecimalDigit
  by_cases hdigit : IsDigit c
  · rw [if_pos hdigit, if_pos hdigit, hdigit.value_eq]
  · rw [if_neg hdigit, if_neg hdigit]
    by_cases hlow : 97 ≤ c ∧ c ≤ 102
    · rw [if_pos (hiff.mpr (Or.inl hlow)), if_pos hlow, hsmall hlow]
    · rw [if_neg hlow]
      by_cases hup : 65 ≤ c ∧ c ≤ 70
      · have hle : c.toNat ≤ 70 := hup.2
        have hsum : (c + 32).toNat = c.toNat + 32 := by
          rw [UInt8.toNat_add, Nat.mod_eq_of_lt (by simp; omega)]
          rfl
        have hge : 65 ≤ c.toNat := hup.1
        rw [if_pos (hiff.mpr (Or.inr hup)), if_pos hup, hcapital hup, hsum]
        congr 1
      · rw [if_neg (hiff.not.mpr (not_or.mpr ⟨hlow, hup⟩)), if_neg hup]

/-- Both operations on the value stay inside the type when the test before
them has let it through. -/
theorem shift_add_ok {value : ℤ} {d : ℕ} (hvalue : 0 ≤ value) (hroom : value ≤ maxInt / 16)
    (hd : d ≤ 15) (f : ℤ → Exec ℤ) :
    (do
      let shifted ← signed maxInt (value * 16)
      let value ← signed maxInt (shifted + (d : ℕ))
      f value) = f (value * 16 + d) := by
  unfold maxInt at hroom ⊢
  rw [signed_ok (by omega) (by omega), ok_bind, signed_ok (by omega) (by omega), ok_bind]

/-- No operation of the hexadecimal scanner overflows. -/
theorem hextoiFrom_eq {value : ℤ} (hvalue : 0 ≤ value) (line : List UInt8) :
    hextoiFrom value line = Except.ok (NetMask.hextoiFrom value line) := by
  induction line generalizing value with
  | nil => rfl
  | cons ch rest ih =>
    have hcutoff : (2 ^ 31 - 1 : ℤ) / 16 = maxInt / 16 := rfl
    unfold hextoiFrom NetMask.hextoiFrom
    rw [hcutoff]
    by_cases hroom : maxInt / 16 < value
    · rw [if_pos hroom, if_pos hroom, pure_eq_ok]
    · rw [if_neg hroom, if_neg hroom]
      have hle : value ≤ maxInt / 16 := not_lt.mp hroom
      by_cases hdigit : 48 ≤ ch ∧ ch ≤ 57
      · have hd : IsDigit ch := hdigit
        have hval := hd.value_eq
        have hsmall := hd.value_le
        have hhex : NetMask.hexDigit ch = some (ch.toNat - 48) := by
          rw [NetMask.hexDigit, if_pos hd, hval]
        rw [if_pos hdigit, shift_add_ok hvalue hle (by omega), ih (by positivity), hhex]
      · have hd : ¬ IsDigit ch := hdigit
        rw [if_neg hdigit]
        dsimp only
        by_cases hletter : 97 ≤ ch ||| 0x20 ∧ ch ||| 0x20 ≤ 102
        · have hhex : NetMask.hexDigit ch = some ((ch ||| 0x20).toNat - 97 + 10) := by
            rw [NetMask.hexDigit, if_neg hd, if_pos hletter]
          have hsmall := NetMask.hexDigit_le hhex
          rw [if_pos hletter, shift_add_ok hvalue hle hsmall, ih (by positivity), hhex]
        · have hhex : NetMask.hexDigit ch = none := by
            rw [NetMask.hexDigit, if_neg hd, if_neg hletter]
          rw [if_neg hletter, hhex, pure_eq_ok]

theorem hextoi_eq (line : List UInt8) : hextoi line = Except.ok (NetMask.hextoi line) := by
  unfold hextoi NetMask.hextoi
  rw [hextoiFrom_eq le_rfl, pure_eq_ok]
  split <;> rfl

/-- A digit string for a line has a digit for its first character in front. -/
theorem digits_cons {ch : UInt8} {rest : List UInt8} {ds : List ℕ}
    (hds : (ch :: rest).map hexadecimalDigit = ds.map some) :
    ∃ d ds', ds = d :: ds' ∧ hexadecimalDigit ch = some d ∧
      rest.map hexadecimalDigit = ds'.map some := by
  cases ds with
  | nil => simp at hds
  | cons d ds' =>
    obtain ⟨hd, hrest⟩ := List.cons.inj hds
    exact ⟨d, ds', rfl, hd, hrest⟩

/-- The loop returns the number if it is one and fits. -/
theorem hextoiFrom_cases (v : ℕ) (hv : (v : ℤ) ≤ maxInt) (line : List UInt8) :
    (∃ ds : List ℕ, line.map hexadecimalDigit = ds.map some ∧
        (horner 16 v ds : ℤ) ≤ maxInt ∧ NetMask.hextoiFrom v line = (horner 16 v ds : ℤ)) ∨
      ((∀ ds : List ℕ, line.map hexadecimalDigit = ds.map some →
          maxInt < (horner 16 v ds : ℤ)) ∧
        NetMask.hextoiFrom v line = hcoreError) := by
  induction line generalizing v with
  | nil => exact Or.inl ⟨[], rfl, hv, rfl⟩
  | cons ch rest ih =>
    unfold NetMask.hextoiFrom
    by_cases hroom : (2 ^ 31 - 1) / 16 < (v : ℤ)
    · rw [if_pos hroom]
      refine Or.inr ⟨fun ds hds => ?_, rfl⟩
      obtain ⟨d, ds', rfl, -, -⟩ := digits_cons hds
      have hle := @le_horner 16 (by omega) (v * 16 + d) ds'
      rw [horner_cons]
      unfold maxInt
      norm_num at hroom
      omega
    · rw [if_neg hroom, hexDigit_eq]
      cases hch : hexadecimalDigit ch with
      | none =>
        refine Or.inr ⟨fun ds hds => ?_, rfl⟩
        obtain ⟨d, -, -, hd, -⟩ := digits_cons hds
        exact absurd (hch.symm.trans hd) (by simp)
      | some x =>
        have hx := NetMask.hexDigit_le ((hexDigit_eq ch).trans hch)
        have hcast : (v : ℤ) * 16 + x = ((v * 16 + x : ℕ) : ℤ) := by
          push_cast
          rfl
        have hfits : ((v * 16 + x : ℕ) : ℤ) ≤ maxInt := by
          unfold maxInt
          norm_num at hroom
          omega
        dsimp only
        rw [hcast]
        rcases ih (v * 16 + x) hfits with ⟨ds, hds, hle, hrun⟩ | ⟨hnot, hrun⟩
        · refine Or.inl ⟨x :: ds, ?_, hle, hrun⟩
          rw [List.map_cons, List.map_cons, hch, hds]
        · refine Or.inr ⟨fun ds hds => ?_, hrun⟩
          obtain ⟨d, ds', rfl, hd, hrest⟩ := digits_cons hds
          obtain rfl := Option.some.inj (hch.symm.trans hd)
          exact hnot ds' hrest

theorem map_some_injective : Function.Injective (List.map (some : ℕ → Option ℕ)) :=
  List.map_injective_iff.mpr (Option.some_injective ℕ)

theorem hextoi_exact (line : List UInt8) :
    Exact (Denotes 16 hexadecimalDigit line) (2 ^ 31 - 1) (hextoi line) := by
  have hmax (n : ℕ) : (n : ℤ) ≤ maxInt ↔ n ≤ 2 ^ 31 - 1 := by
    unfold maxInt
    omega
  rw [hextoi_eq]
  unfold NetMask.hextoi
  by_cases hlen : line.length = 0
  · rw [if_pos hlen]
    refine ⟨fun v hv _ => absurd (List.length_eq_zero_iff.mp hlen) hv.1, fun _ => rfl⟩
  · have hne : line ≠ [] := fun h => hlen (List.length_eq_zero_iff.mpr h)
    rw [if_neg hlen]
    rcases hextoiFrom_cases 0 (by decide) line with ⟨ds, hds, hle, hrun⟩ | ⟨hnot, hrun⟩
    · rw [Nat.cast_zero] at hrun
      rw [hrun]
      constructor
      · intro v hv _
        obtain ⟨-, ds', hds', rfl⟩ := denotes_iff_horner.mp hv
        rw [map_some_injective (hds.symm.trans hds')]
      · intro hlarge
        have hgt := hlarge _ (denotes_iff_horner.mpr ⟨hne, ds, hds, rfl⟩)
        exact absurd ((hmax _).mp hle) (not_le.mpr hgt)
    · rw [Nat.cast_zero] at hrun
      rw [hrun]
      constructor
      · intro v hv hle
        obtain ⟨-, ds, hds, rfl⟩ := denotes_iff_horner.mp hv
        exact absurd ((hmax _).mpr hle) (not_le.mpr (hnot ds hds))
      · exact fun _ => rfl

/-- The digits of a decimal line are their values. -/
theorem map_decimalDigit_iff (line : List UInt8) (ds : List ℕ) :
    line.map decimalDigit = ds.map some ↔
      (∀ c ∈ line, IsDigit c) ∧ ds = line.map digitValue := by
  induction line generalizing ds with
  | nil => simp
  | cons c rest ih =>
    cases ds with
    | nil => simp
    | cons d ds =>
      have hhead : decimalDigit c = some d ↔ IsDigit c ∧ d = digitValue c := by
        unfold decimalDigit
        by_cases hc : IsDigit c
        · rw [if_pos hc, ← hc.value_eq, Option.some_inj]
          exact ⟨fun h => ⟨hc, h.symm⟩, fun h => h.2.symm⟩
        · rw [if_neg hc]
          exact iff_of_false (by simp) (fun h => hc h.1)
      rw [List.map_cons, List.map_cons, List.cons.injEq, hhead, ih, List.forall_mem_cons,
        List.map_cons, List.cons.injEq]
      tauto

theorem decimalFrom_eq_horner (v : ℕ) (line : List UInt8) :
    decimalFrom v line = horner 10 v (line.map digitValue) := by
  induction line generalizing v with
  | nil => rfl
  | cons c rest ih => rw [decimalFrom_cons, ih, List.map_cons, horner_cons]

theorem denotes_iff_number (line : List UInt8) (v : ℕ) :
    Denotes 10 decimalDigit line v ↔ Number line v := by
  rw [denotes_iff_horner]
  constructor
  · rintro ⟨hne, ds, hds, rfl⟩
    obtain ⟨hdigits, rfl⟩ := (map_decimalDigit_iff line ds).mp hds
    exact ⟨hne, hdigits, decimalFrom_eq_horner 0 line⟩
  · rintro ⟨hne, hdigits, rfl⟩
    exact ⟨hne, _, (map_decimalDigit_iff line _).mpr ⟨hdigits, rfl⟩, decimalFrom_eq_horner 0 line⟩

theorem ato_exact {max : ℕ} (line : List UInt8) :
    Exact (Denotes 10 decimalDigit line) max (ato max line) := by
  simp only [Exact, denotes_iff_number]
  rcases ato_cases (Nat.cast_nonneg max) line with ⟨u, hu, hle, hrun⟩ | ⟨hnot, hrun⟩
  · refine ⟨fun v hv _ => ?_, fun hlarge => ?_⟩
    · rw [hrun, ← hu.2.2.symm.trans hv.2.2]
    · exact absurd (hlarge u hu) (not_lt.mpr (by exact_mod_cast hle))
  · refine ⟨fun v hv hle => ?_, fun _ => hrun⟩
    exact absurd (hnot v hv) (not_lt.mpr (by exact_mod_cast hle))

/-- **The scanners are exact**: each returns the value of a non-empty digit
string up to the largest integer of its type and the error for every other
byte string, and no operation on the way overflows. -/
theorem numeric_scanners_exact (line : List UInt8) :
    Exact (Denotes 10 decimalDigit line) (2 ^ 63 - 1) (atosz line) ∧
      Exact (Denotes 10 decimalDigit line) (2 ^ 31 - 1) (atoi line) ∧
      Exact (Denotes 16 hexadecimalDigit line) (2 ^ 31 - 1) (hextoi line) :=
  ⟨ato_exact line, ato_exact line, hextoi_exact line⟩

end HCore.NumericScanners
