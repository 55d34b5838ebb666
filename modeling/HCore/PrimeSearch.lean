import HCore.Machine
import Mathlib.Data.Nat.Prime.Basic
import Mathlib.Data.Rat.Lemmas
import Mathlib.Order.Bounds.Basic

/-!
The search for a prime by trial division. The quotients are doubles, which are
exact for the integers here, so a quotient is a rational number. The loop over
the divisors has no end of its own: it leaves at a divisor, or at the number
before the candidate.
-/

namespace HCore.PrimeSearch

open Machine

/-- `(int)y`. -/
def truncate (y : ℚ) : ℤ := y.num.tdiv y.den

/-- The loop over the divisors: whether the candidate is returned, or left for
the next one. -/
def trial (x : ℤ) : ℕ → ℤ → Exec Bool
  | 0, _ => outOfFuel
  | fuel + 1, i =>
    let y : ℚ := x / i
    let integer := truncate y
    if y ≠ integer ∧ i = x - 1 then pure true
    else if y = integer then pure false
    else trial x fuel (i + 1)

/-- The loop over the candidates; each of them gets the same budget. -/
def search (maxValue : ℤ) (budget : ℕ) : ℕ → ℤ → Exec ℤ
  | 0, _ => outOfFuel
  | fuel + 1, x =>
    if x ≤ maxValue then do
      let found ← trial x budget 2
      if found then pure x else search maxValue budget fuel (x + 1)
    else pure (-1)

/-- `max_value`, where zero stands for `INT_MAX`. -/
def limit (max : ℤ) : ℤ := if max = 0 then 2 ^ 31 - 1 else max

def intToPrime (budget : ℕ) (n max : ℤ) : Exec ℤ := search (limit max) budget budget n

/-- The result is the smallest prime of the range, or -1 if there is none. -/
def IsAnswer (n max r : ℤ) : Prop :=
  (∃ p : ℕ, r = p ∧ IsLeast {q : ℕ | q.Prime ∧ n ≤ q ∧ (q : ℤ) ≤ limit max} p) ∨
    (r = -1 ∧ ∀ q : ℕ, q.Prime → n ≤ q → ¬ (q : ℤ) ≤ limit max)

/-- The search ends, and with the answer. -/
def FindsPrime (n max : ℤ) : Prop := ∃ budget r, intToPrime budget n max = Except.ok r ∧ IsAnswer n max r

/-- The candidates that the inner loop returns. -/
def Accepted (x : ℤ) : Prop := 3 ≤ x ∧ x.toNat.Prime

section

variable {x i d n M r : ℤ} {fuel budget : ℕ}

/-- A quotient is an integer exactly for a divisor. -/
theorem quotient_eq_truncate (hi : i ≠ 0) : (x / i : ℚ) = truncate (x / i) ↔ i ∣ x := by
  have hi' : (i : ℚ) ≠ 0 := Int.cast_ne_zero.mpr hi
  constructor
  · intro h
    rw [div_eq_iff hi'] at h
    exact ⟨_, by rw [mul_comm]; exact_mod_cast h⟩
  · rintro ⟨k, rfl⟩
    have hquot : ((i * k : ℤ) : ℚ) / i = (k : ℤ) := by
      rw [Int.cast_mul, mul_div_cancel_left₀ _ hi']
    rw [hquot, truncate, Rat.num_intCast, Rat.den_intCast, Nat.cast_one, Int.tdiv_one]

theorem trial_succ (hi : 2 ≤ i) : trial x (fuel + 1) i =
    if ¬ i ∣ x ∧ i = x - 1 then Except.ok true
    else if i ∣ x then Except.ok false
    else trial x fuel (i + 1) := by
  have hquot := quotient_eq_truncate (x := x) (show i ≠ 0 by omega)
  rw [trial]
  simp only [ne_eq, hquot, pure_eq_ok]

/-- Without a divisor the loop comes to the number before the candidate. -/
theorem trial_true (hi : 2 ≤ i) (hix : i < x) (hno : ∀ j, i ≤ j → j < x → ¬ j ∣ x)
    (hfuel : x - i ≤ fuel) : trial x fuel i = Except.ok true := by
  induction fuel generalizing i with
  | zero => omega
  | succ fuel ih =>
    have hi' := hno i le_rfl hix
    rw [trial_succ hi]
    by_cases hlast : i = x - 1
    · rw [if_pos ⟨hi', hlast⟩]
    · rw [if_neg (fun h => hlast h.2), if_neg hi']
      exact ih (by omega) (by omega) (fun j hj => hno j (by omega)) (by push_cast at hfuel; omega)

/-- With a divisor that comes first the loop leaves the candidate. -/
theorem trial_false (hi : 2 ≤ i) (hid : i ≤ d) (hd : d ∣ x)
    (hbefore : ∀ j, i ≤ j → j < d → j ≠ x - 1) (hfuel : d - i < fuel) :
    trial x fuel i = Except.ok false := by
  induction fuel generalizing i with
  | zero => omega
  | succ fuel ih =>
    rw [trial_succ hi]
    by_cases hdvd : i ∣ x
    · rw [if_neg (fun h => h.1 hdvd), if_pos hdvd]
    · have hne : i ≠ d := by
        rintro rfl
        exact hdvd hd
      have hlt : i < d := by omega
      rw [if_neg (fun h => hbefore i le_rfl hlt h.2), if_neg hdvd]
      exact ih (by omega) (by omega) (fun j hj => hbefore j (by omega)) (by push_cast at hfuel; omega)

/-- One and minus one have no divisor that the loop could come to. -/
theorem trial_unit (hi : 2 ≤ i) (hx : x = 1 ∨ x = -1) (fuel : ℕ) : trial x fuel i = outOfFuel := by
  induction fuel generalizing i with
  | zero => rfl
  | succ fuel ih =>
    have hdvd : ¬ i ∣ x := by
      intro h
      have hunit : i ∣ 1 := by
        rcases hx with rfl | rfl
        · exact h
        · exact (Int.dvd_neg).mp h
      have hle := Int.le_of_dvd one_pos hunit
      omega
    rw [trial_succ hi, if_neg (by omega), if_neg hdvd]
    exact ih (by omega)

/-- The loop accepts a candidate at the number before it. -/
theorem le_of_trial (hi : 2 ≤ i) (h : trial x fuel i = Except.ok true) : i + 1 ≤ x := by
  induction fuel generalizing i with
  | zero => cases h
  | succ fuel ih =>
    rw [trial_succ hi] at h
    by_cases hlast : ¬ i ∣ x ∧ i = x - 1
    · omega
    · rw [if_neg hlast] at h
      by_cases hdvd : i ∣ x
      · rw [if_pos hdvd] at h
        cases h
      · rw [if_neg hdvd] at h
        have hle := ih (by omega) h
        omega

/-- What becomes of any other candidate. -/
theorem trial_candidate (hone : x ≠ 1) (hneg : x ≠ -1) (hbudget : x.natAbs + 2 < budget) :
    ∃ found, trial x budget 2 = Except.ok found ∧ (found = true ↔ Accepted x) := by
  by_cases hlow : 3 ≤ x
  · obtain ⟨k, rfl⟩ := Int.eq_ofNat_of_zero_le (show 0 ≤ x by omega)
    by_cases hprime : k.Prime
    · refine ⟨true, trial_true le_rfl (by omega) (fun j hj hjk hdvd => ?_) (by omega),
        iff_of_true rfl ⟨hlow, hprime⟩⟩
      obtain ⟨j, rfl⟩ := Int.eq_ofNat_of_zero_le (show 0 ≤ j by omega)
      rcases (Nat.dvd_prime hprime).mp (Int.natCast_dvd_natCast.mp hdvd) with rfl | rfl
      · omega
      · omega
    · have hfac : k.minFac.Prime := Nat.minFac_prime (by omega)
      have hlt : k.minFac < k := (Nat.not_prime_iff_minFac_lt (by omega)).mp hprime
      have htwo := hfac.two_le
      refine ⟨false, trial_false le_rfl (by omega) (Int.natCast_dvd_natCast.mpr k.minFac_dvd)
        (fun j _ hj => by omega) (by omega), iff_of_false (by simp) (fun h => hprime h.2)⟩
  · have hleft : trial x budget 2 = Except.ok false := by
      by_cases hsmall : x ≤ -2
      · exact trial_false le_rfl (show 2 ≤ -x by omega) (Int.neg_dvd.mpr dvd_rfl)
          (fun j _ _ => by omega) (by omega)
      · have htwo : (2 : ℤ) ∣ x := by
          obtain rfl | rfl : x = 0 ∨ x = 2 := by omega
          · exact dvd_zero 2
          · exact dvd_rfl
        exact trial_false le_rfl le_rfl htwo (fun j _ _ => by omega) (by omega)
    exact ⟨false, hleft, iff_of_false (by simp) (fun h => hlow h.1)⟩

/-- Over candidates that are left sooner or later, the search returns the first
one that is accepted. -/
theorem search_spec (hrange : ∀ y, x ≤ y → y ≤ M → y ≠ 1 ∧ y ≠ -1)
    (hbudget : ∀ y, x ≤ y → y ≤ M → y.natAbs + 2 < budget) (hfuel : M + 1 - x < fuel)
    (hpos : 0 < fuel) : ∃ r, search M budget fuel x = Except.ok r ∧
      ((x ≤ r ∧ r ≤ M ∧ Accepted r ∧ ∀ y, x ≤ y → y < r → ¬ Accepted y) ∨
        (r = -1 ∧ ∀ y, x ≤ y → y ≤ M → ¬ Accepted y)) := by
  induction fuel generalizing x with
  | zero => exact absurd hpos (Nat.lt_irrefl 0)
  | succ fuel ih =>
    rw [search]
    by_cases hx : x ≤ M
    · obtain ⟨hone, hneg⟩ := hrange x le_rfl hx
      obtain ⟨found, hrun, hfound⟩ := trial_candidate hone hneg (hbudget x le_rfl hx)
      rw [if_pos hx, hrun, ok_bind]
      by_cases haccepted : Accepted x
      · rw [if_pos (hfound.mpr haccepted)]
        exact ⟨x, rfl, Or.inl ⟨le_rfl, hx, haccepted, fun y _ _ => by omega⟩⟩
      · rw [if_neg (fun h => haccepted (hfound.mp h))]
        have hpast {y : ℤ} (hy : x ≤ y) (hrest : x + 1 ≤ y → ¬ Accepted y) : ¬ Accepted y := by
          by_cases heq : y = x
          · rwa [heq]
          · exact hrest (by omega)
        push_cast at hfuel
        obtain ⟨r, hsearch, hr⟩ := ih (x := x + 1) (fun y hy => hrange y (by omega))
          (fun y hy => hbudget y (by omega)) (by omega) (by omega)
        refine ⟨r, hsearch, ?_⟩
        rcases hr with ⟨hlow, hhigh, hprime, hfirst⟩ | ⟨rfl, hnone⟩
        · exact Or.inl ⟨by omega, hhigh, hprime, fun y hy hyr => hpast hy (fun h => hfirst y h hyr)⟩
        · exact Or.inr ⟨rfl, fun y hy hyM => hpast hy (fun h => hnone y h hyM)⟩
    · rw [if_neg hx]
      exact ⟨-1, rfl, Or.inr ⟨rfl, fun y _ _ => by omega⟩⟩

/-- A candidate that is returned has been found by the inner loop. -/
theorem search_returns (h : search M budget fuel x = Except.ok r) : r = -1 ∨ 3 ≤ r := by
  induction fuel generalizing x with
  | zero => cases h
  | succ fuel ih =>
    rw [search] at h
    by_cases hx : x ≤ M
    · rw [if_pos hx] at h
      obtain ⟨found, hrun, h⟩ := bind_eq_ok.mp h
      cases found with
      | true =>
        obtain rfl := Except.ok.inj h
        exact Or.inr (le_of_trial le_rfl hrun)
      | false => exact ih h
    · rw [if_neg hx] at h
      exact Or.inl (Except.ok.inj h).symm

/-- The search does not get past one or minus one. -/
theorem search_stuck {w : ℤ} (hw : w = 1 ∨ w = -1) (hxw : x ≤ w) (hwM : w ≤ M) :
    search M budget fuel x ≠ Except.ok r := by
  induction fuel generalizing x with
  | zero => exact nofun
  | succ fuel ih =>
    intro h
    rw [search, if_pos (by omega)] at h
    obtain ⟨found, hrun, h⟩ := bind_eq_ok.mp h
    by_cases hunit : x = 1 ∨ x = -1
    · rw [trial_unit le_rfl hunit] at hrun
      cases hrun
    · cases found with
      | true =>
        have hle := le_of_trial le_rfl hrun
        omega
      | false => exact ih (by omega) h

end

theorem accepted_iff {x : ℤ} : Accepted x ↔ x ≠ 2 ∧ ∃ p : ℕ, x = p ∧ p.Prime := by
  constructor
  · rintro ⟨hlow, hprime⟩
    exact ⟨by omega, x.toNat, by omega, hprime⟩
  · rintro ⟨hne, p, rfl, hprime⟩
    have htwo := hprime.two_le
    exact ⟨by omega, hprime⟩

/-- Where two is not a candidate, what the search returns is the answer. -/
theorem isAnswer_of_search {n max r : ℤ} (htwo : ¬ (n ≤ 2 ∧ 2 ≤ limit max))
    (h : (n ≤ r ∧ r ≤ limit max ∧ Accepted r ∧ ∀ y, n ≤ y → y < r → ¬ Accepted y) ∨
      (r = -1 ∧ ∀ y, n ≤ y → y ≤ limit max → ¬ Accepted y)) : IsAnswer n max r := by
  have haccepted {q : ℕ} (hq : q.Prime) (hlow : n ≤ q) (hhigh : (q : ℤ) ≤ limit max) :
      Accepted q := accepted_iff.mpr ⟨by omega, q, rfl, hq⟩
  rcases h with ⟨hlow, hhigh, hr, hfirst⟩ | ⟨rfl, hnone⟩
  · obtain ⟨-, p, rfl, hp⟩ := accepted_iff.mp hr
    refine Or.inl ⟨p, rfl, ⟨hp, hlow, hhigh⟩, ?_⟩
    rintro q ⟨hq, hqlow, hqhigh⟩
    by_contra hlt
    exact hfirst q hqlow (by omega) (haccepted hq hqlow hqhigh)
  · exact Or.inr ⟨rfl, fun q hq hqlow hqhigh => hnone q hqlow hqhigh (haccepted hq hqlow hqhigh)⟩

/-- The search never returns two. -/
theorem not_findsPrime_two {max : ℤ} (hmax : 2 ≤ limit max) : ¬ FindsPrime 2 max := by
  rintro ⟨budget, r, hrun, hanswer⟩
  have hr := search_returns hrun
  rcases hanswer with ⟨p, rfl, -, hleast⟩ | ⟨-, hnone⟩
  · have hle : p ≤ 2 := hleast ⟨Nat.prime_two, le_rfl, by push_cast; omega⟩
    omega
  · exact hnone 2 Nat.prime_two le_rfl (by push_cast; omega)

/-- **The search for a prime is right** exactly on the ranges that are empty, that begin
behind two, or that end before minus one. -/
theorem int_to_prime_iff (n max : ℤ) :
    FindsPrime n max ↔ limit max < n ∨ 3 ≤ n ∨ limit max < -1 := by
  constructor
  · intro h
    by_contra hcon
    obtain rfl | hne := eq_or_ne n 2
    · exact not_findsPrime_two (by omega) h
    · obtain ⟨budget, r, hrun, -⟩ := h
      have hzero : limit max ≠ 0 := by
        unfold limit
        split
        · norm_num
        · assumption
      by_cases hn : n ≤ -1
      · exact search_stuck (Or.inr rfl) hn (by omega) hrun
      · exact search_stuck (Or.inl rfl) (show n ≤ 1 by omega) (by omega) hrun
  · intro hrange
    have hunits (y : ℤ) (hlow : n ≤ y) (hhigh : y ≤ limit max) : y ≠ 1 ∧ y ≠ -1 := by omega
    obtain ⟨budget, hbudget⟩ : ∃ budget, n.natAbs + (limit max).natAbs + 3 < budget :=
      ⟨_, Nat.lt_succ_self _⟩
    obtain ⟨r, hrun, hr⟩ := @search_spec n (limit max) budget budget hunits
      (fun y _ _ => by omega) (by omega) (by omega)
    exact ⟨budget, r, hrun, isAnswer_of_search (by omega) hr⟩

/-- From two on, the search returns three. -/
theorem two_is_skipped : ¬ ∀ n max : ℤ, FindsPrime n max := by
  intro h
  exact not_findsPrime_two (show 2 ≤ limit 10 by decide) (h 2 10)

end HCore.PrimeSearch
