import HCore.BitMap
import HCore.Machine
import Mathlib.Tactic.Linarith

/-!
The tests for an overflow of a product. They divide the wrapped product by the
second factor and compare the quotient with the first one. A wrapped product
is off by a multiple of the modulus, and the remainder of the division is
smaller than the divisor, so the comparison is exact; the division itself is
undefined for the smallest integer and -1.
-/

namespace HCore.MultipOverflow

open Machine BitMap

section

variable {w : ℕ}

/-- The integers of a signed type of `w` bits. -/
def Fits (w : ℕ) (x : ℤ) : Prop := -2 ^ (w - 1) ≤ x ∧ x < 2 ^ (w - 1)

/-- The division of C: it rounds to zero, and traps on a divisor 0 and on a
quotient outside the type. -/
def divide (y b : BitVec w) : Exec (BitVec w) :=
  if b = 0 ∨ (y = BitVec.intMin w ∧ b = -1#w) then undefined else pure (y.sdiv b)

/-- The common text of the two tests, on integers of `w` bits. -/
def productTest (a b : BitVec w) : Exec ℤ :=
  let y := a * b
  if b = 0 then pure 0
  else do
    let q ← divide y b
    pure (if q = a then 0 else 1)

def multipIsOverflow (a b : BitVec 32) : Exec ℤ := productTest a b

def multipIsOverflowLong (a b : BitVec 64) : Exec ℤ := productTest a b

theorem fits_toInt (a : BitVec w) : Fits w a.toInt := ⟨BitVec.le_toInt a, BitVec.toInt_lt⟩

theorem modulus_eq (hw : 0 < w) : (2 : ℤ) ^ w = 2 * 2 ^ (w - 1) := by
  conv_lhs => rw [← Nat.sub_add_cancel hw, pow_succ]
  ring

/-- The wrapped product is the product if that fits. -/
theorem toInt_mul_of_fits {a b : BitVec w} (h : Fits w (a.toInt * b.toInt)) :
    (a * b).toInt = a.toInt * b.toInt := by
  refine BitVec.toInt_mul_of_not_smulOverflow ?_
  simp only [BitVec.smulOverflow, Bool.or_eq_true, decide_eq_true_eq, not_or, not_le, not_lt]
  exact ⟨h.2, h.1⟩

/-- An integer that is a multiple of the modulus and smaller than a divisor
of the type is 0. -/
theorem wrapped_eq_of_small (hw : 0 < w) {a b : BitVec w}
    (hsmall : |a.toInt * b.toInt - (a * b).toInt| < |b.toInt|) :
    (a * b).toInt = a.toInt * b.toInt := by
  have hpow := modulus_eq hw
  have hpos : (0 : ℤ) < 2 ^ (w - 1) := by positivity
  have hb : |b.toInt| ≤ 2 ^ (w - 1) := by
    have hfits := fits_toInt b
    exact abs_le.mpr ⟨hfits.1, hfits.2.le⟩
  have hdvd : (2 : ℤ) ^ w ∣ a.toInt * b.toInt - (a * b).toInt := by
    rw [BitVec.toInt_mul]
    exact_mod_cast Int.dvd_self_sub_bmod (x := a.toInt * b.toInt) (m := 2 ^ w)
  have hzero := Int.eq_zero_of_abs_lt_dvd hdvd (by rw [hpow]; linarith)
  linarith

/-- Dividing the wrapped product gives the first factor back exactly when the
product fits. -/
theorem quotient_eq_iff (hw : 0 < w) {a b : BitVec w} (hb : b ≠ 0)
    (htrap : ¬ (a * b = BitVec.intMin w ∧ b = -1#w)) :
    (a * b).sdiv b = a ↔ Fits w (a.toInt * b.toInt) := by
  have hbInt : b.toInt ≠ 0 := by
    intro hzero
    exact hb (BitVec.toInt_inj.mp (hzero.trans BitVec.toInt_zero.symm))
  have hquot : ((a * b).sdiv b).toInt = (a * b).toInt.tdiv b.toInt :=
    BitVec.toInt_sdiv_of_ne_or_ne _ _ (not_and_or.mp htrap)
  rw [← BitVec.toInt_inj, hquot]
  constructor
  · intro hback
    -- what the division leaves is smaller than the divisor
    have hrest := Int.mul_tdiv_add_tmod (a * b).toInt b.toInt
    rw [hback] at hrest
    have hmod : |(a * b).toInt.tmod b.toInt| < |b.toInt| := by
      rw [Int.abs_eq_natAbs, Int.abs_eq_natAbs, Int.natAbs_tmod]
      exact_mod_cast Nat.mod_lt _ (Int.natAbs_pos.mpr hbInt)
    have hdiff : a.toInt * b.toInt - (a * b).toInt = -(a * b).toInt.tmod b.toInt := by
      linarith [mul_comm a.toInt b.toInt]
    rw [← wrapped_eq_of_small hw (by rwa [hdiff, abs_neg])]
    exact fits_toInt _
  · intro hfits
    rw [toInt_mul_of_fits hfits, Int.mul_tdiv_cancel _ hbInt]

/-- The wrapped product of the smallest integer and -1 is the smallest integer
again, and no other first factor gives it. -/
theorem mul_neg_one_eq_intMin (a : BitVec w) :
    a * -1#w = BitVec.intMin w ↔ a = BitVec.intMin w := by
  have hneg : a * -1#w = -a := by
    rw [BitVec.mul_neg, BitVec.mul_one]
  rw [hneg]
  constructor
  · intro h
    rw [← BitVec.neg_neg (x := a), h, BitVec.neg_intMin]
  · rintro rfl
    exact BitVec.neg_intMin

/-- The test answers, and its answer is right. -/
def Exact (a b : BitVec w) (result : Exec ℤ) : Prop :=
  ∃ r, result = Except.ok r ∧ (r ≠ 0 ↔ ¬ Fits w (a.toInt * b.toInt))

theorem productTest_exact_iff (hw : 0 < w) (a b : BitVec w) :
    Exact a b (productTest a b) ↔ ¬ (a = BitVec.intMin w ∧ b = -1#w) := by
  unfold Exact productTest divide
  dsimp only
  by_cases hb : b = 0
  · have hne : b ≠ -1#w := by
      rintro rfl
      have hone : (1#w) = 0 := by simpa using congrArg Neg.neg hb
      have hval := congrArg BitVec.toNat hone
      simp [Nat.one_mod_two_pow hw] at hval
    refine iff_of_true ⟨0, by rw [if_pos hb, pure_eq_ok], ?_⟩ (fun h => hne h.2)
    have hfits := fits_toInt (0 : BitVec w)
    subst hb
    simpa using hfits
  · by_cases htrap : a * b = BitVec.intMin w ∧ b = -1#w
    · have ha : a = BitVec.intMin w := by
        rw [← mul_neg_one_eq_intMin, ← htrap.2]
        exact htrap.1
      rw [if_neg hb, if_pos (Or.inr htrap)]
      refine iff_of_false ?_ (not_not.mpr ⟨ha, htrap.2⟩)
      rintro ⟨r, hr, -⟩
      cases hr
    · have hargs : ¬ (a = BitVec.intMin w ∧ b = -1#w) := by
        rintro ⟨rfl, rfl⟩
        exact htrap ⟨(mul_neg_one_eq_intMin _).mpr rfl, rfl⟩
      rw [if_neg hb, if_neg (not_or.mpr ⟨hb, htrap⟩), pure_eq_ok, ok_bind]
      refine iff_of_true ⟨_, rfl, ?_⟩ hargs
      rw [← quotient_eq_iff hw hb htrap]
      by_cases hq : (a * b).sdiv b = a
      · rw [if_pos hq]
        exact iff_of_false (not_not.mpr rfl) (not_not.mpr hq)
      · rw [if_neg hq]
        exact iff_of_true one_ne_zero hq

end

/-- **The overflow tests are exact** for every pair of factors but one: the
smallest integer times -1, where the division traps. -/
theorem multip_overflow_exact_iff (a b : BitVec 32) (c d : BitVec 64) :
    (Exact a b (multipIsOverflow a b) ↔ ¬ (a = BitVec.intMin 32 ∧ b = -1#32)) ∧
      (Exact c d (multipIsOverflowLong c d) ↔ ¬ (c = BitVec.intMin 64 ∧ d = -1#64)) :=
  ⟨productTest_exact_iff (by decide) a b, productTest_exact_iff (by decide) c d⟩

/-- `INT_MIN * -1` is outside `int`, and the test does not say so: it divides
`INT_MIN` by -1. -/
theorem multip_overflow_traps :
    ¬ ∀ a b : BitVec 32, Exact a b (multipIsOverflow a b) := by
  intro h
  obtain ⟨r, hr, -⟩ := h (BitVec.intMin 32) (-1#32)
  have hundef : multipIsOverflow (BitVec.intMin 32) (-1#32) = undefined := by decide
  rw [hundef] at hr
  cases hr

end HCore.MultipOverflow
