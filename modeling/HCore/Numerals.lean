import HCore.DecimalText
import Mathlib.Data.Nat.Digits.Lemmas

/-!
Numerals: a number in a base as the text of its digits, the most significant
one first and at least one of them. A numeral in base ten is read back by the
decimal scanners.
-/

namespace HCore.Numerals

open DecimalText

def numeral (base : ℕ) (letter : ℕ → UInt8) (n : ℕ) : List UInt8 :=
  ((if n = 0 then [0] else Nat.digits base n).reverse).map letter

variable {base : ℕ} {letter : ℕ → UInt8} {n k : ℕ}

/-- The last digit comes off the end. -/
theorem numeral_eq (hbase : 1 < base) (letter : ℕ → UInt8) (n : ℕ) :
    numeral base letter n =
      (if n < base then [] else numeral base letter (n / base)) ++ [letter (n % base)] := by
  unfold numeral
  by_cases hzero : n = 0
  · subst hzero
    rw [if_pos rfl, if_pos (by omega), Nat.zero_mod]
    rfl
  · rw [if_neg hzero, Nat.digits_def' hbase (Nat.pos_of_ne_zero hzero), List.reverse_cons,
      List.map_append]
    congr 1
    by_cases hlt : n < base
    · rw [if_pos hlt, Nat.div_eq_of_lt hlt, Nat.digits_zero]
      rfl
    · have hquot : n / base ≠ 0 := (Nat.div_pos (by omega) (by omega)).ne'
      rw [if_neg hlt, if_neg hquot]

theorem numeral_ne_nil (hbase : 1 < base) : numeral base letter n ≠ [] := by
  rw [numeral_eq hbase]
  simp

theorem numeral_length_le (hbase : 1 < base) (hk : 1 ≤ k) (hn : n < base ^ k) :
    (numeral base letter n).length ≤ k := by
  unfold numeral
  rw [List.length_map, List.length_reverse]
  by_cases hzero : n = 0
  · rwa [if_pos hzero]
  · rw [if_neg hzero]
    exact (Nat.digits_length_le_iff hbase n).mpr hn

theorem forall_mem_numeral {P : UInt8 → Prop} (hbase : 1 < base) (h : ∀ d < base, P (letter d)) :
    ∀ c ∈ numeral base letter n, P c := by
  induction n using Nat.strong_induction_on with
  | _ n ih =>
    rw [numeral_eq hbase]
    intro c hc
    rw [List.mem_append, List.mem_singleton] at hc
    rcases hc with hc | rfl
    · by_cases hlt : n < base
      · simp [hlt] at hc
      · rw [if_neg hlt] at hc
        exact ih (n / base) (Nat.div_lt_self (by omega) hbase) c hc
    · exact h _ (Nat.mod_lt _ (by omega))

/-- The characters from `0` to `9`, by their values. -/
def decimalDigit (d : ℕ) : UInt8 := UInt8.ofNat (d + 48)

theorem decimalDigit_spec {d : ℕ} (hd : d < 10) :
    IsDigit (decimalDigit d) ∧ digitValue (decimalDigit d) = d := by
  interval_cases d <;> exact ⟨by decide, by decide⟩

/-- A decimal numeral stands for its number. -/
theorem number_numeral (n : ℕ) : Number (numeral 10 decimalDigit n) n := by
  refine ⟨numeral_ne_nil (by omega),
    forall_mem_numeral (by omega) (fun d hd => (decimalDigit_spec hd).1), ?_⟩
  induction n using Nat.strong_induction_on with
  | _ n ih =>
    have hlast := (decimalDigit_spec (Nat.mod_lt n (show 10 > 0 by omega))).2
    rw [numeral_eq (by omega), decimal, decimalFrom_append, decimalFrom_cons, decimalFrom_nil,
      hlast]
    by_cases hlt : n < 10
    · rw [if_pos hlt, decimalFrom_nil]
      omega
    · have hquot : decimalFrom 0 (numeral 10 decimalDigit (n / 10)) = n / 10 :=
        ih (n / 10) (by omega)
      rw [if_neg hlt, hquot]
      omega

end HCore.Numerals
