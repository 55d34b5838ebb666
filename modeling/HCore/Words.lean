import Mathlib.Data.Nat.Bitwise
import Mathlib.Data.Nat.Log
import Mathlib.Tactic.Ring

/-!
Bit masks and shifts of machine words, over natural numbers. Masking with a
power of two minus one is a remainder, clearing such a mask rounds down, and
a tag below an aligned address can be read back. Counting right shifts until
a word is zero computes the binary logarithm.
-/

namespace HCore.Words

/-- `x & ~m`. -/
def andNot (x m : ℕ) : ℕ := x - (x &&& m)

theorem and_mask (x k : ℕ) : x &&& (2 ^ k - 1) = x % 2 ^ k :=
  Nat.and_two_pow_sub_one_eq_mod x k

theorem andNot_mask (x k : ℕ) : andNot x (2 ^ k - 1) = 2 ^ k * (x / 2 ^ k) := by
  have h := Nat.div_add_mod x (2 ^ k)
  unfold andNot
  rw [and_mask]
  omega

theorem andNot_mask_dvd (x k : ℕ) : 2 ^ k ∣ andNot x (2 ^ k - 1) := by
  rw [andNot_mask]
  exact Dvd.intro _ rfl

theorem andNot_mask_le (x k : ℕ) : andNot x (2 ^ k - 1) ≤ x := Nat.sub_le _ _

theorem lt_andNot_mask_add (x k : ℕ) : x < andNot x (2 ^ k - 1) + 2 ^ k := by
  have h := Nat.mod_lt x (Nat.two_pow_pos k)
  unfold andNot
  rw [and_mask]
  omega

/-- Below an aligned word, bitwise or is addition. -/
theorem or_tag {a t k : ℕ} (ha : 2 ^ k ∣ a) (ht : t < 2 ^ k) : a ||| t = a + t := by
  obtain ⟨q, rfl⟩ := ha
  exact (Nat.two_pow_add_eq_or_of_lt ht q).symm

theorem tag_and_mask {a t k : ℕ} (ha : 2 ^ k ∣ a) (ht : t < 2 ^ k) :
    (a ||| t) &&& (2 ^ k - 1) = t := by
  rw [or_tag ha ht, and_mask]
  obtain ⟨q, rfl⟩ := ha
  rw [Nat.mul_add_mod, Nat.mod_eq_of_lt ht]

theorem andNot_tag {a t k : ℕ} (ha : 2 ^ k ∣ a) (ht : t < 2 ^ k) :
    andNot (a ||| t) (2 ^ k - 1) = a := by
  unfold andNot
  rw [tag_and_mask ha ht, or_tag ha ht]
  omega

/-- How often `n >>= 1` leaves a word that is not zero, with at most `fuel` shifts. -/
def halvings : ℕ → ℕ → ℕ
  | 0, _ => 0
  | fuel + 1, n => if n / 2 = 0 then 0 else halvings fuel (n / 2) + 1

theorem halvings_eq_log (fuel n : ℕ) (h : n < 2 ^ (fuel + 1)) : halvings fuel n = Nat.log 2 n := by
  induction fuel generalizing n with
  | zero =>
    have hn : n < 2 := by simpa using h
    exact (Nat.log_of_lt hn).symm
  | succ fuel ih =>
    unfold halvings
    split
    · have hn : n < 2 := by omega
      exact (Nat.log_of_lt hn).symm
    · have hhalf : n / 2 < 2 ^ (fuel + 1) := by
        rw [pow_succ] at h
        omega
      rw [ih _ hhalf, Nat.log_div_base]
      have hpos : 0 < Nat.log 2 n := Nat.log_pos (by omega) (by omega)
      omega

theorem halvings_two_pow (fuel k : ℕ) (h : k ≤ fuel) : halvings fuel (2 ^ k) = k := by
  rw [halvings_eq_log _ _ (Nat.pow_lt_pow_right (by omega) (by omega))]
  exact Nat.log_pow (by omega) k

end HCore.Words
