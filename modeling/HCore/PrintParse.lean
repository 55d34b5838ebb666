import HCore.FormatText
import HCore.NetMask
import HCore.NumberText

/-!
Printed numbers are read back. The zeros in front of a number change neither
its decimal nor its hexadecimal value, and the test in front of each digit
lets all digits of a number of the type through.
-/

namespace HCore.PrintParse

open Machine DecimalText TextWindow Numerals Formatter FormatText NumberText

/-- A directive with a width behind a zero. -/
def zeroPadded (width flags : List UInt8) : List UInt8 := 37 :: 48 :: width ++ flags

section

variable {width flags line : List UInt8} {c : UInt8} {k n : ℕ}

/-- The digits of the width end at the flags. -/
theorem readSpec_zeroPadded (hwidth : ∀ c ∈ width, IsDigit c)
    (hflags : ∀ c ∈ flags.head?, ¬ IsDigit c) (args : List Arg) :
    ∃ n, readSpec (48 :: width ++ flags) args =
      readFlags ⟨48, n, true, 0, false, 0, noLen⟩ flags args := by
  have hdigits : ∀ c ∈ 48 :: width, IsDigit c := by
    intro c hc
    rcases List.mem_cons.mp hc with rfl | hc
    · decide
    · exact hwidth c hc
  have hrest : (readWidth 0 (48 :: width ++ flags)).2 = flags := by
    rw [readWidth_snd]
    exact afterRun_eq hdigits hflags
  refine ⟨(readWidth 0 (48 :: width ++ flags)).1, ?_⟩
  have hhead : (48 :: width ++ flags).head? = some 48 := rfl
  unfold readSpec
  rw [hhead, if_pos rfl]
  dsimp only
  rw [hrest]

/-- Zeros in front of a number. -/
theorem number_zeros (k : ℕ) (h : Number line n) : Number (List.replicate k 48 ++ line) n := by
  obtain ⟨hne, hdigits, hvalue⟩ := h
  have hzeros (k : ℕ) : decimalFrom 0 (List.replicate k 48) = 0 := by
    induction k with
    | zero => rfl
    | succ k ih => exact ih
  refine ⟨by simp [hne], ?_, ?_⟩
  · intro c hc
    rcases List.mem_append.mp hc with hc | hc
    · rw [List.eq_of_mem_replicate hc]
      decide
    · exact hdigits c hc
  · rw [decimal, decimalFrom_append, hzeros]
    exact hvalue

theorem hextoiFrom_zeros (k : ℕ) (line : List UInt8) :
    NetMask.hextoiFrom 0 (List.replicate k 48 ++ line) = NetMask.hextoiFrom 0 line := by
  induction k with
  | zero => rfl
  | succ k ih => exact ih

/-- Both tables are read back, digit by digit. -/
theorem hexDigit_letter {ten d : ℕ} (hten : ten = 97 ∨ ten = 65) (hd : d < 16) :
    NetMask.hexDigit (Formatter.hexDigit ten d) = some d := by
  rcases hten with rfl | rfl
  all_goals interval_cases d <;> decide

theorem hextoiFrom_letter {ten d : ℕ} (hten : ten = 97 ∨ ten = 65) (hd : d < 16) {value : ℕ}
    (hvalue : value * 16 < 2 ^ 31) (line : List UInt8) :
    NetMask.hextoiFrom value (Formatter.hexDigit ten d :: line) =
      NetMask.hextoiFrom ((value * 16 + d : ℕ) : ℤ) line := by
  have hcutoff : ¬ (2 ^ 31 - 1) / 16 < (value : ℤ) := by omega
  rw [NetMask.hextoiFrom, if_neg hcutoff, hexDigit_letter hten hd]
  push_cast
  rfl

/-- The digits of a number in front of a line: the value that the loop has in front of the
last of them is a sixteenth of the number. -/
theorem hextoiFrom_numeral {ten : ℕ} (hten : ten = 97 ∨ ten = 65) (n : ℕ) (hn : n < 2 ^ 31)
    (line : List UInt8) :
    NetMask.hextoiFrom 0 (numeral 16 (Formatter.hexDigit ten) n ++ line) =
      NetMask.hextoiFrom n line := by
  induction n using Nat.strong_induction_on generalizing line with
  | _ n ih =>
    have hlast := Nat.mod_lt n (show 16 > 0 by omega)
    rw [numeral_eq (by omega)]
    by_cases hlt : n < 16
    · have hone := @hextoiFrom_letter ten n hten hlt 0 (by omega) line
      rw [Nat.zero_mul, Nat.zero_add] at hone
      rw [if_pos hlt, Nat.mod_eq_of_lt hlt]
      exact hone
    · have hsplit : n / 16 * 16 + n % 16 = n := Nat.div_add_mod' n 16
      rw [if_neg hlt, List.append_assoc, ih (n / 16) (by omega) (by omega), List.singleton_append,
        hextoiFrom_letter hten hlast (by omega), hsplit]

theorem hextoi_numeral {ten : ℕ} (hten : ten = 97 ∨ ten = 65) (hn : n < 2 ^ 31) (k : ℕ) :
    NetMask.hextoi (List.replicate k 48 ++ numeral 16 (Formatter.hexDigit ten) n) = n := by
  have hne : numeral 16 (Formatter.hexDigit ten) n ≠ [] := numeral_ne_nil (by omega)
  have hlen : ¬ (List.replicate k 48 ++ numeral 16 (Formatter.hexDigit ten) n).length = 0 := by
    rw [List.length_eq_zero_iff]
    simp [hne]
  have hread := hextoiFrom_numeral hten n hn []
  rw [List.append_nil] at hread
  rw [NetMask.hextoi, if_neg hlen, hextoiFrom_zeros, hread]
  rfl

theorem ato_numeral {max : ℤ} (hn : (n : ℤ) ≤ max) (k : ℕ) :
    ato max (List.replicate k 48 ++ numeral 10 decimalDigit n) = Except.ok (n : ℤ) :=
  ato_number (by omega) (number_zeros k (number_numeral n)) hn

/-- The text of a directive of one integer. -/
theorem unlimited_integer (hwidth : ∀ c ∈ width, IsDigit c)
    (hflags : ∀ c ∈ flags.head?, ¬ IsDigit c) {args : List Arg} {s : ℕ → Spec} {x : Spec → Integer}
    (hspec : ∀ n, readFlags ⟨48, n, true, 0, false, 0, noLen⟩ flags args =
      Except.ok (s n, [c], args))
    (hread : ∀ n, readInteger (s n) args (conversion c) = Except.ok (x (s n), [])) :
    ∃ n, Unlimited (zeroPadded width flags) args (integerText (x (s n))) := by
  obtain ⟨n, hrun⟩ := readSpec_zeroPadded hwidth hflags args
  have hprints : Prints (zeroPadded width flags) args (integerText (x (s n)) ++ []) true :=
    Prints.directive (hrun.trans (hspec n)) (Yields.integer (hread n)) Prints.done
  rw [List.append_nil] at hprints
  exact ⟨n, hprints.unlimited⟩

theorem integerText_nonneg {x : Integer} (hsign : x.spec.sign = true) (h : 0 ≤ x.i64.toInt) :
    integerText x = numText x.i64 x.spec.zero x.spec.hex x.spec.width := by
  rw [integerText, if_pos hsign, if_neg (not_lt.mpr h)]

theorem toInt_of_nonneg {w : ℕ} {v : BitVec w} (h : 0 ≤ v.toInt) : v.toInt = v.toNat := by
  rw [BitVec.toInt_eq_toNat_of_msb]
  rw [BitVec.msb_eq_toInt]
  exact decide_eq_false (not_lt.mpr h)

theorem signExtend_toInt (v : BitVec 32) : (v.signExtend 64).toInt = v.toInt :=
  BitVec.toInt_signExtend_of_le (by omega)

/-- A signed directive, whose argument has been widened to 64 bits. -/
theorem ato_printed (hwidth : ∀ c ∈ width, IsDigit c) (hflag : ¬ IsDigit c) {args : List Arg}
    {v : BitVec 64} {max : ℤ} (hv : 0 ≤ v.toInt) (hle : v.toInt ≤ max)
    (hspec : ∀ n, readFlags ⟨48, n, true, 0, false, 0, noLen⟩ [c] args =
      Except.ok (⟨48, n, true, 0, false, 0, noLen⟩, [c], args))
    (hread : ∀ n, readInteger ⟨48, n, true, 0, false, 0, noLen⟩ args (conversion c) =
      Except.ok (longInteger ⟨48, n, true, 0, false, 0, noLen⟩ v, [])) :
    ∃ text, Unlimited (zeroPadded width [c]) args text ∧ ato max text = Except.ok v.toInt := by
  have hflags : ∀ b ∈ [c].head?, ¬ IsDigit b := by
    rintro b ⟨⟩
    exact hflag
  obtain ⟨n, hprinted⟩ := @unlimited_integer width [c] c hwidth hflags args
    (fun n => ⟨48, n, true, 0, false, 0, noLen⟩) (fun s => longInteger s v) hspec hread
  refine ⟨_, hprinted, ?_⟩
  rw [toInt_of_nonneg hv] at hle
  rw [@integerText_nonneg (longInteger ⟨48, n, true, 0, false, 0, noLen⟩ v) rfl hv,
    toInt_of_nonneg hv]
  exact ato_numeral hle _

/-- `%i` and `%d`. -/
theorem atoi_printed (hwidth : ∀ c ∈ width, IsDigit c) (hc : c = 105 ∨ c = 100) {v : BitVec 32}
    (hv : 0 ≤ v.toInt) : ∃ text, Unlimited (zeroPadded width [c]) [.word v] text ∧
      atoi text = Except.ok v.toInt := by
  have hflag : ¬ IsDigit c := by rcases hc with rfl | rfl <;> decide
  have hle : v.toInt ≤ maxInt := Int.le_of_lt_add_one v.toInt_lt
  rw [← signExtend_toInt] at hv hle ⊢
  exact ato_printed hwidth hflag hv hle (fun _ => by rcases hc with rfl | rfl <;> rfl)
    (fun _ => by rcases hc with rfl | rfl <;> rfl)

/-- `%z` -/
theorem atosz_printed (hwidth : ∀ c ∈ width, IsDigit c) {v : BitVec 64} (hv : 0 ≤ v.toInt) :
    ∃ text, Unlimited (zeroPadded width [122]) [.long v] text ∧ atosz text = Except.ok v.toInt := by
  have hle : v.toInt ≤ maxSsize := Int.le_of_lt_add_one v.toInt_lt
  exact ato_printed hwidth (by decide) hv hle (fun _ => rfl) (fun _ => rfl)

/-- `%xd` and `%Xd`, by the variable that they set. -/
theorem hextoi_printed (hwidth : ∀ c ∈ width, IsDigit c) {hex ten : ℕ}
    (hflag : c = 120 ∧ hex = 1 ∧ ten = 97 ∨ c = 88 ∧ hex = 2 ∧ ten = 65) {v : BitVec 32}
    (hv : 0 ≤ v.toInt) : ∃ text, Unlimited (zeroPadded width [c, 100]) [.word v] text ∧
      NetMask.hextoi text = v.toInt := by
  have hflags : ∀ b ∈ [c, 100].head?, ¬ IsDigit b := by
    rintro b ⟨⟩
    rcases hflag with ⟨rfl, -⟩ | ⟨rfl, -⟩ <;> decide
  have hten : ten = 97 ∨ ten = 65 := by
    rcases hflag with ⟨-, -, hten⟩ | ⟨-, -, hten⟩
    · exact Or.inl hten
    · exact Or.inr hten
  have hlt : v.toNat < 2 ^ 31 := by
    have hint := toInt_of_nonneg hv
    have hmax := v.toInt_lt
    omega
  have hwide : (v.setWidth 64).toNat = v.toNat := by
    rw [BitVec.toNat_setWidth]
    omega
  have hdigits : digitsText hex (v.setWidth 64) =
      numeral 16 (Formatter.hexDigit ten) v.toNat := by
    rw [← hwide]
    rcases hflag with ⟨-, rfl, rfl⟩ | ⟨-, rfl, rfl⟩ <;> rfl
  obtain ⟨n, hprinted⟩ := @unlimited_integer width [c, 100] 100 hwidth hflags [.word v]
    (fun n => ⟨48, n, false, hex, false, 0, noLen⟩) (fun s => wordInteger s v)
    (fun _ => by rcases hflag with ⟨rfl, rfl, -⟩ | ⟨rfl, rfl, -⟩ <;> rfl) (fun _ => rfl)
  refine ⟨_, hprinted, ?_⟩
  change NetMask.hextoi (numText (v.setWidth 64) 48 hex n) = v.toInt
  rw [numText, hdigits, hextoi_numeral hten hlt, toInt_of_nonneg hv]

end

/-- **A number is read back** from its text, with any number of zeros in front of it. -/
theorem print_parse (width : List UInt8) (hwidth : ∀ c ∈ width, IsDigit c) :
    (∀ v : BitVec 32, 0 ≤ v.toInt → ∀ c, c = 105 ∨ c = 100 →
        ∃ text, Unlimited (zeroPadded width [c]) [.word v] text ∧ atoi text = Except.ok v.toInt) ∧
      (∀ v : BitVec 64, 0 ≤ v.toInt →
        ∃ text, Unlimited (zeroPadded width [122]) [.long v] text ∧
          atosz text = Except.ok v.toInt) ∧
      (∀ v : BitVec 32, 0 ≤ v.toInt → ∀ x, x = 120 ∨ x = 88 →
        ∃ text, Unlimited (zeroPadded width [x, 100]) [.word v] text ∧
          NetMask.hextoi text = v.toInt) := by
  refine ⟨fun v hv c hc => atoi_printed hwidth hc hv, fun v hv => atosz_printed hwidth hv, ?_⟩
  rintro v hv x (rfl | rfl)
  · exact hextoi_printed hwidth (Or.inl ⟨rfl, rfl, rfl⟩) hv
  · exact hextoi_printed hwidth (Or.inr ⟨rfl, rfl, rfl⟩) hv

/-- The width 12. -/
theorem print_parse_twelve :
    (∀ v : BitVec 32, 0 ≤ v.toInt → ∀ c, c = 105 ∨ c = 100 →
        ∃ text, Unlimited (zeroPadded [49, 50] [c]) [.word v] text ∧
          atoi text = Except.ok v.toInt) ∧
      (∀ v : BitVec 64, 0 ≤ v.toInt →
        ∃ text, Unlimited (zeroPadded [49, 50] [122]) [.long v] text ∧
          atosz text = Except.ok v.toInt) ∧
      (∀ v : BitVec 32, 0 ≤ v.toInt → ∀ x, x = 120 ∨ x = 88 →
        ∃ text, Unlimited (zeroPadded [49, 50] [x, 100]) [.word v] text ∧
          NetMask.hextoi text = v.toInt) := by
  refine print_parse [49, 50] (fun c hc => ?_)
  rcases List.mem_pair.mp hc with rfl | rfl <;> decide

end HCore.PrintParse
