import HCore.Machine
import Mathlib.Tactic.IntervalCases
import Mathlib.Tactic.Linarith

/-!
The unit of a size in a text. The loop takes ten bits off the value, moves the
unit pointer and shifts the scale together; nothing in it looks at the end of
the table of units, so the size alone decides where the pointer stops.
-/

namespace HCore.SizeUnits

open Machine

/-- The names of the units, and NULL behind them. -/
def units : List (Option String) := [some "B", some "KB", some "MB", some "GB", some "TB", none]

/-- The variables of the loop: `pu` counts from the beginning of `units`. -/
structure Choice where
  pu : ℕ
  scale : ℤ
  v : ℤ
  deriving DecidableEq

/-- The loop of `hcore_strlfmt_size` and `hcore_astrfmt_size`; the shift of
the scale wraps around, and that of the value keeps its sign. -/
def chooseUnit : ℕ → Choice → Exec Choice
  | 0, _ => outOfFuel
  | fuel + 1, c =>
    if c.v = 0 then pure c
    else if c.v >>> (10 : ℕ) = 0 then pure c
    else chooseUnit fuel ⟨c.pu + 1, (c.scale * 2 ^ 10).bmod (2 ^ 64), c.v >>> (10 : ℕ)⟩

/-- The choice that `hcore_strlfmt_size` formats. -/
def strlfmtSizeUnit (fuel : ℕ) (size : ℤ) : Exec Choice := chooseUnit fuel ⟨0, 1, size⟩

/-- The choice that `hcore_astrfmt_size` formats. -/
def astrfmtSizeUnit (fuel : ℕ) (size : ℤ) : Exec Choice := chooseUnit fuel ⟨0, 1, size⟩

/-- The pointer is on one of the five names. -/
def Named (pu : ℕ) : Prop := ∃ name, units[pu]? = some (some name)

theorem named_iff (pu : ℕ) : Named pu ↔ pu < 5 := by
  unfold Named units
  constructor
  · rintro ⟨name, hname⟩
    by_contra hge
    by_cases hnull : pu = 5
    · subst hnull
      cases hname
    · rw [List.getElem?_eq_none (by simp; omega)] at hname
      cases hname
  · intro hlt
    interval_cases pu <;> exact ⟨_, rfl⟩

section

variable {fuel n : ℕ} {c d : Choice}

theorem chooseUnit_done (h : c.v >>> (10 : ℕ) = 0) : chooseUnit (fuel + 1) c = Except.ok c := by
  unfold chooseUnit
  by_cases hv : c.v = 0
  · rw [if_pos hv, pure_eq_ok]
  · rw [if_neg hv, if_pos h, pure_eq_ok]

theorem chooseUnit_step (h : c.v >>> (10 : ℕ) ≠ 0) :
    chooseUnit (fuel + 1) c =
      chooseUnit fuel ⟨c.pu + 1, (c.scale * 2 ^ 10).bmod (2 ^ 64), c.v >>> (10 : ℕ)⟩ := by
  have hv : c.v ≠ 0 := by
    intro hzero
    rw [hzero] at h
    exact h rfl
  rw [chooseUnit, if_neg hv, if_neg h]

theorem shift_eq (v : ℤ) : v >>> (10 : ℕ) = v / 1024 := Int.shiftRight_eq_div_pow v 10

/-- Where the loop stops, the value has lost ten bits for each unit and has at
most ten left. -/
theorem chooseUnit_ok (h : chooseUnit fuel c = Except.ok d) :
    ∃ k : ℕ, d.pu = c.pu + k ∧ d.v = c.v / 1024 ^ k ∧ 0 ≤ d.v ∧ d.v < 1024 := by
  induction fuel generalizing c with
  | zero => cases h
  | succ fuel ih =>
    by_cases hdone : c.v >>> (10 : ℕ) = 0
    · rw [chooseUnit_done hdone] at h
      obtain rfl := Except.ok.inj h
      rw [shift_eq] at hdone
      exact ⟨0, rfl, by simp, by omega, by omega⟩
    · rw [chooseUnit_step hdone] at h
      obtain ⟨k, hpu, hv, hrange⟩ := ih h
      refine ⟨k + 1, by rw [hpu]; ring, ?_, hrange⟩
      rw [hv, shift_eq, Int.ediv_ediv_of_nonneg (by norm_num), pow_succ']

/-- A value of at most `n + 1` groups of ten bits stops the loop within as
many rounds. -/
theorem chooseUnit_stops (hv : 0 ≤ c.v) (hlt : c.v < 1024 ^ (n + 1)) (hscale : 0 < c.scale)
    (hroom : c.scale * 1024 ^ n < 2 ^ 63) :
    ∃ k ≤ n, chooseUnit (n + 1) c =
      Except.ok ⟨c.pu + k, c.scale * 1024 ^ k, c.v / 1024 ^ k⟩ := by
  induction n generalizing c with
  | zero =>
    have hdone : c.v >>> (10 : ℕ) = 0 := by
      rw [shift_eq]
      omega
    refine ⟨0, le_rfl, ?_⟩
    rw [chooseUnit_done hdone]
    simp
  | succ n ih =>
    by_cases hdone : c.v >>> (10 : ℕ) = 0
    · refine ⟨0, Nat.zero_le _, ?_⟩
      rw [chooseUnit_done hdone]
      simp
    · have hpow : (1024 : ℤ) ^ (n + 1) = 1024 * 1024 ^ n := pow_succ' 1024 n
      have hpos : (0 : ℤ) < 1024 ^ n := by positivity
      have hsmall : c.scale * 2 ^ 10 < 2 ^ 63 := by
        rw [hpow] at hroom
        nlinarith
      have hwrap : (c.scale * 2 ^ 10).bmod (2 ^ 64) = c.scale * 1024 := by
        rw [Int.bmod_eq_of_le_mul_two (by push_cast; linarith) (by push_cast; linarith)]
        norm_num
      have hquot : c.v / 1024 < 1024 ^ (n + 1) := by
        refine Int.ediv_lt_of_lt_mul (by norm_num) ?_
        rwa [← pow_succ]
      have hroom' : c.scale * 1024 * 1024 ^ n < 2 ^ 63 := by
        rw [hpow] at hroom
        linarith
      rw [chooseUnit_step hdone, hwrap, shift_eq]
      obtain ⟨k, hk, hrun⟩ := ih (c := ⟨c.pu + 1, c.scale * 1024, c.v / 1024⟩)
        (Int.ediv_nonneg hv (by norm_num)) hquot (by positivity) hroom'
      refine ⟨k + 1, by omega, ?_⟩
      rw [hrun, Int.ediv_ediv_of_nonneg (by norm_num), ← pow_succ']
      congr 2
      · ring
      · ring

end

/-- What the sizes are printed with: the loop stops, on a unit, with the size
between two multiples of the scale. -/
def Scaled (run : ℕ → Exec Choice) (size : ℤ) : Prop :=
  ∃ fuel c, run fuel = Except.ok c ∧ Named c.pu ∧
    (0 ≤ size → c.v * c.scale ≤ size ∧ size < (c.v + 1) * c.scale)

theorem chooseUnit_scaled_iff (size : ℤ) :
    Scaled (fun fuel => chooseUnit fuel ⟨0, 1, size⟩) size ↔ 0 ≤ size ∧ size < 2 ^ 50 := by
  constructor
  · rintro ⟨fuel, c, hrun, hnamed, -⟩
    obtain ⟨k, hpu, hv, hlow, hhigh⟩ := chooseUnit_ok hrun
    have hk : k < 5 := by
      have hlt := (named_iff _).mp hnamed
      omega
    dsimp only at hv
    have hpos : (0 : ℤ) < 1024 ^ k := by positivity
    have hle : (1024 : ℤ) ^ k ≤ 1024 ^ 4 := pow_le_pow_right₀ (by norm_num) (by omega)
    -- the value that is left is the whole quotient of the size
    have hdiv := Int.mul_ediv_add_emod size (1024 ^ k)
    have hrest := Int.emod_lt_of_pos size hpos
    have hrest' := Int.emod_nonneg size hpos.ne'
    rw [← hv] at hdiv
    constructor
    · nlinarith
    · nlinarith
  · rintro ⟨hlow, hhigh⟩
    obtain ⟨k, hk, hrun⟩ := chooseUnit_stops (n := 4) (c := ⟨0, 1, size⟩) hlow
      (by dsimp only; omega) one_pos (by norm_num)
    refine ⟨5, _, hrun, (named_iff _).mpr (by dsimp only; omega), fun _ => ?_⟩
    have hpos : (0 : ℤ) < 1024 ^ k := by positivity
    dsimp only
    rw [one_mul]
    exact ⟨Int.ediv_mul_le size hpos.ne', Int.lt_ediv_add_one_mul_self size hpos⟩

/-- **The units of sizes**: both loops stop on one of the five names, with the
size between two multiples of the scale, exactly for the sizes from 0 up to
1024 TB. -/
theorem size_unit_iff (size : ℤ) :
    (Scaled (fun fuel => strlfmtSizeUnit fuel size) size ∧
        Scaled (fun fuel => astrfmtSizeUnit fuel size) size) ↔
      0 ≤ size ∧ size < 2 ^ 50 := by
  unfold strlfmtSizeUnit astrfmtSizeUnit
  rw [and_self]
  exact chooseUnit_scaled_iff size

/-- For 1024 TB the pointer stops on NULL, and for -1 the loop does not end. -/
theorem size_unit_null :
    strlfmtSizeUnit 6 (2 ^ 50) = Except.ok ⟨5, 2 ^ 50, 1⟩ ∧ units[5]? = some none ∧
      ¬ Scaled (fun fuel => strlfmtSizeUnit fuel (2 ^ 50)) (2 ^ 50) ∧
      ∀ fuel c, strlfmtSizeUnit fuel (-1) ≠ Except.ok c := by
  refine ⟨by decide, rfl, ?_, fun fuel c hrun => ?_⟩
  · exact fun h => absurd ((chooseUnit_scaled_iff _).mp h).2 (lt_irrefl _)
  · obtain ⟨k, -, hv, hlow, -⟩ := chooseUnit_ok hrun
    have hneg : (-1 : ℤ) / 1024 ^ k < 0 := Int.ediv_neg_of_neg_of_pos (by norm_num) (by positivity)
    dsimp only at hv
    omega

end HCore.SizeUnits
