import Mathlib.Logic.Function.Iterate
import Mathlib.Order.Monotone.Basic
import Mathlib.Tactic.IntervalCases
import Mathlib.Tactic.Tauto

/-!
The proleptic Gregorian calendar. A date is followed by the next day of its
month, by the first of the next month or by the first of January; the date `n`
days after an epoch is what `n` steps lead to. Counted from the first of
March, the days before a month do not depend on the year, and the number of a
day determines its date.
-/

namespace HCore.Gregorian

structure Date where
  year : ℕ
  month : ℕ
  day : ℕ
  deriving DecidableEq, Repr

def IsLeap (y : ℕ) : Prop := y % 4 = 0 ∧ (y % 100 ≠ 0 ∨ y % 400 = 0)

instance decidableIsLeap (y : ℕ) : Decidable (IsLeap y) := inferInstanceAs (Decidable (_ ∧ _))

def monthLength (y m : ℕ) : ℕ :=
  if m = 2 then if IsLeap y then 29 else 28
  else if m = 4 ∨ m = 6 ∨ m = 9 ∨ m = 11 then 30 else 31

structure Date.Valid (d : Date) : Prop where
  month_pos : 1 ≤ d.month
  month_le : d.month ≤ 12
  day_pos : 1 ≤ d.day
  day_le : d.day ≤ monthLength d.year d.month

/-- The next day. -/
def Date.next (d : Date) : Date :=
  if d.day < monthLength d.year d.month then ⟨d.year, d.month, d.day + 1⟩
  else if d.month < 12 then ⟨d.year, d.month + 1, 1⟩ else ⟨d.year + 1, 1, 1⟩

/-- The date `n` days after `epoch`. -/
def dateAfter (epoch : Date) (n : ℕ) : Date := Date.next^[n] epoch

theorem monthLength_pos (y m : ℕ) : 1 ≤ monthLength y m := by
  unfold monthLength
  split <;> split <;> omega

theorem Date.Valid.next {d : Date} (h : d.Valid) : d.next.Valid := by
  obtain ⟨h1, h2, h3, h4⟩ := h
  unfold Date.next
  split
  · next hlt => exact ⟨h1, h2, by simp only; omega, hlt⟩
  · split
    · next hlt => exact ⟨by simp only; omega, hlt, le_rfl, monthLength_pos _ _⟩
    · exact ⟨le_rfl, by simp only; omega, le_rfl, monthLength_pos _ _⟩

theorem dateAfter_valid {epoch : Date} (h : epoch.Valid) (n : ℕ) : (dateAfter epoch n).Valid := by
  induction n with
  | zero => exact h
  | succ n ih =>
    rw [dateAfter, Function.iterate_succ_apply']
    exact ih.next

/-- The days from the first of March of year 0 to that of year `y`. -/
def marchDays (y : ℕ) : ℕ := 365 * y + y / 4 - y / 100 + y / 400

/-- The year that began with the last first of March. -/
def marchYear (d : Date) : ℕ := if 3 ≤ d.month then d.year else d.year - 1

/-- The months since the last first of March. -/
def marchMonth (d : Date) : ℕ := if 3 ≤ d.month then d.month - 3 else d.month + 9

/-- The days from the first of March to the first of the month `i` behind it. -/
def monthDays : ℕ → ℕ
  | 0 => 0
  | 1 => 31
  | 2 => 61
  | 3 => 92
  | 4 => 122
  | 5 => 153
  | 6 => 184
  | 7 => 214
  | 8 => 245
  | 9 => 275
  | 10 => 306
  | _ => 337

/-- The days from the first of March of year 0. -/
def dayNumber (d : Date) : ℕ := marchDays (marchYear d) + (monthDays (marchMonth d) + d.day - 1)

/-- A year that begins with March ends with the February of the next one. -/
theorem marchDays_succ (y : ℕ) :
    marchDays (y + 1) = marchDays y + 365 + if IsLeap (y + 1) then 1 else 0 := by
  have hle : y / 100 ≤ y := Nat.div_le_self y 100
  have hfour : (y + 1) % 100 = 0 → (y + 1) % 4 = 0 := by omega
  have hera : (y + 1) % 400 = 0 → (y + 1) % 100 = 0 := by omega
  unfold marchDays IsLeap
  rw [Nat.succ_div, Nat.succ_div, Nat.succ_div]
  simp only [Nat.dvd_iff_mod_eq_zero]
  generalize y / 4 = q4, y / 100 = q100, y / 400 = q400 at *
  by_cases h4 : (y + 1) % 4 = 0
  · by_cases h100 : (y + 1) % 100 = 0
    · by_cases h400 : (y + 1) % 400 = 0
      · simp [h4, h100, h400]
        omega
      · simp [h4, h100, h400]
        omega
    · have h400 : (y + 1) % 400 ≠ 0 := fun h => h100 (hera h)
      simp [h4, h100, h400]
      omega
  · have h100 : (y + 1) % 100 ≠ 0 := fun h => h4 (hfour h)
    have h400 : (y + 1) % 400 ≠ 0 := fun h => h100 (hera h)
    simp [h4, h100, h400]
    omega

theorem marchDays_mono : Monotone marchDays := by
  refine monotone_nat_of_le_succ (fun y => ?_)
  rw [marchDays_succ]
  omega

/-- The days of the months follow each other, but for the end of February. -/
theorem monthDays_next {d : Date} (hpos : 1 ≤ d.month) (hle : d.month ≤ 12) (hm : d.month ≠ 2) :
    marchMonth d ≤ 10 ∧
      monthDays (marchMonth d) + monthLength d.year d.month = monthDays (marchMonth d + 1) := by
  obtain ⟨y, m, day⟩ := d
  dsimp only at hpos hle hm
  unfold marchMonth monthLength
  dsimp only
  interval_cases m <;> simp_all [monthDays]

theorem monthDays_mono : Monotone monthDays := by
  refine monotone_nat_of_le_succ (fun i => ?_)
  match i with
  | 0 | 1 | 2 | 3 | 4 | 5 | 6 | 7 | 8 | 9 | 10 => decide
  | _ + 11 => exact le_rfl

theorem marchMonth_february {d : Date} (h : d.month = 2) : marchMonth d = 11 := by
  rw [marchMonth, h]
  rfl

theorem monthLength_february {d : Date} (h : d.month = 2) :
    monthLength d.year d.month = 28 + if IsLeap d.year then 1 else 0 := by
  rw [monthLength, if_pos h]
  split <;> rfl

theorem marchYear_february {d : Date} (h : d.month = 2) (hy : 1 ≤ d.year) :
    marchYear d + 1 = d.year := by
  rw [marchYear, if_neg (by omega)]
  omega

/-- A day lies before the first of March that follows it. -/
theorem monthDays_lt {d : Date} (h : d.Valid) (hy : 1 ≤ d.year) :
    dayNumber d < marchDays (marchYear d + 1) := by
  have hpos := h.day_pos
  have hle := h.day_le
  unfold dayNumber
  rw [marchDays_succ]
  by_cases hm : d.month = 2
  · rw [monthLength_february hm] at hle
    rw [marchMonth_february hm, marchYear_february hm hy]
    simp only [monthDays]
    omega
  · obtain ⟨hten, hnext⟩ := monthDays_next h.month_pos h.month_le hm
    have hlast : monthDays (marchMonth d + 1) ≤ 337 := monthDays_mono (show _ ≤ 11 by omega)
    omega

theorem dayNumber_next {d : Date} (h : d.Valid) (hy : 1 ≤ d.year) :
    dayNumber d.next = dayNumber d + 1 := by
  have hpos := h.day_pos
  have hle := h.day_le
  unfold Date.next
  by_cases hday : d.day < monthLength d.year d.month
  · rw [if_pos hday]
    simp only [dayNumber, marchYear, marchMonth]
    omega
  · rw [if_neg hday]
    by_cases hm : d.month = 2
    · have hlen := monthLength_february hm
      have hyear := marchYear_february hm hy
      have hsucc := marchDays_succ (marchYear d)
      rw [hyear] at hsucc
      rw [if_pos (by omega), dayNumber, dayNumber, marchMonth_february hm]
      simp only [marchYear, marchMonth, hm, monthDays] at *
      simp only [Nat.reduceAdd, Nat.reduceLeDiff, if_true, Nat.sub_self] at *
      omega
    · obtain ⟨hten, hnext⟩ := monthDays_next h.month_pos h.month_le hm
      have hmonth := h.month_le
      have hmonth' := h.month_pos
      by_cases hlast : d.month < 12
      · have hyear : marchYear ⟨d.year, d.month + 1, 1⟩ = marchYear d := by
          simp only [marchYear]
          split <;> split <;> omega
        have hmarch : marchMonth ⟨d.year, d.month + 1, 1⟩ = marchMonth d + 1 := by
          simp only [marchMonth]
          split <;> split <;> omega
        rw [if_pos hlast, dayNumber, dayNumber, hyear, hmarch]
        dsimp only
        omega
      · have hyear : marchYear ⟨d.year + 1, 1, 1⟩ = marchYear d := by
          simp only [marchYear]
          rw [if_neg (by omega), if_pos (by omega)]
          omega
        have hmarch : marchMonth ⟨d.year + 1, 1, 1⟩ = marchMonth d + 1 := by
          simp only [marchMonth]
          rw [if_neg (by omega), if_pos (by omega)]
          omega
        rw [if_neg hlast, dayNumber, dayNumber, hyear, hmarch]
        dsimp only
        omega

theorem le_year_next (d : Date) : d.year ≤ d.next.year := by
  unfold Date.next
  split
  · exact le_rfl
  · split
    · exact le_rfl
    · exact Nat.le_succ _

/-- The number of the date that follows an epoch. -/
theorem dayNumber_dateAfter {epoch : Date} (h : epoch.Valid) (hy : 1 ≤ epoch.year) (n : ℕ) :
    1 ≤ (dateAfter epoch n).year ∧ dayNumber (dateAfter epoch n) = dayNumber epoch + n := by
  induction n with
  | zero => exact ⟨hy, rfl⟩
  | succ n ih =>
    rw [dateAfter, Function.iterate_succ_apply']
    obtain ⟨hyear, hnumber⟩ := ih
    refine ⟨le_trans hyear (le_year_next _), ?_⟩
    change dayNumber (dateAfter epoch n).next = _
    rw [dayNumber_next (dateAfter_valid h n) hyear, hnumber, Nat.add_assoc]

theorem dayNumber_lt_of_year {d d' : Date} (h : d.Valid) (hy : 1 ≤ d.year)
    (hlt : marchYear d < marchYear d') : dayNumber d < dayNumber d' :=
  calc
    dayNumber d < marchDays (marchYear d + 1) := monthDays_lt h hy
    _ ≤ marchDays (marchYear d') := marchDays_mono hlt
    _ ≤ dayNumber d' := Nat.le_add_right _ _

theorem dayNumber_lt_of_month {d d' : Date} (h : d.Valid) (h' : d'.Valid)
    (heq : marchYear d = marchYear d') (hlt : marchMonth d < marchMonth d') :
    dayNumber d < dayNumber d' := by
  have hpos := h.day_pos
  have hpos' := h'.day_pos
  have hle := h.day_le
  have hmonth' := h'.month_le
  have hm : d.month ≠ 2 := by
    intro hm
    rw [marchMonth_february hm] at hlt
    unfold marchMonth at hlt
    split at hlt <;> omega
  obtain ⟨-, hnext⟩ := monthDays_next h.month_pos h.month_le hm
  have hmono : monthDays (marchMonth d + 1) ≤ monthDays (marchMonth d') := monthDays_mono hlt
  unfold dayNumber
  rw [heq]
  omega

theorem eq_of_march {d d' : Date} (h : d.Valid) (h' : d'.Valid) (hy : 1 ≤ d.year)
    (hy' : 1 ≤ d'.year) (hyear : marchYear d = marchYear d')
    (hmonth : marchMonth d = marchMonth d') (hday : d.day = d'.day) : d = d' := by
  obtain ⟨y, m, day⟩ := d
  obtain ⟨y', m', day'⟩ := d'
  have hle : m ≤ 12 := h.month_le
  have hle' : m' ≤ 12 := h'.month_le
  have hpos : 1 ≤ m := h.month_pos
  have hpos' : 1 ≤ m' := h'.month_pos
  simp only [marchYear, marchMonth] at *
  have hm : m = m' := by
    by_cases hthree : 3 ≤ m
    · by_cases hthree' : 3 ≤ m'
      · rw [if_pos hthree, if_pos hthree'] at hmonth
        omega
      · rw [if_pos hthree, if_neg hthree'] at hmonth
        omega
    · by_cases hthree' : 3 ≤ m'
      · rw [if_neg hthree, if_pos hthree'] at hmonth
        omega
      · rw [if_neg hthree, if_neg hthree'] at hmonth
        omega
  subst hm
  have hyy : y = y' := by
    by_cases hthree : 3 ≤ m
    · rwa [if_pos hthree, if_pos hthree] at hyear
    · rw [if_neg hthree, if_neg hthree] at hyear
      omega
  rw [hyy, hday]

/-- A date is determined by the number of its day. -/
theorem dayNumber_injective {d d' : Date} (h : d.Valid) (h' : d'.Valid) (hy : 1 ≤ d.year)
    (hy' : 1 ≤ d'.year) (heq : dayNumber d = dayNumber d') : d = d' := by
  have hyear : marchYear d = marchYear d' := by
    rcases Nat.lt_trichotomy (marchYear d) (marchYear d') with hlt | heq' | hlt
    · have := dayNumber_lt_of_year h hy hlt
      omega
    · exact heq'
    · have := dayNumber_lt_of_year h' hy' hlt
      omega
  have hmonth : marchMonth d = marchMonth d' := by
    rcases Nat.lt_trichotomy (marchMonth d) (marchMonth d') with hlt | heq' | hlt
    · have := dayNumber_lt_of_month h h' hyear hlt
      omega
    · exact heq'
    · have := dayNumber_lt_of_month h' h hyear.symm hlt
      omega
  refine eq_of_march h h' hy hy' hyear hmonth ?_
  have hpos := h.day_pos
  have hpos' := h'.day_pos
  unfold dayNumber at heq
  rw [hyear, hmonth] at heq
  omega

/-- The year, the month and the day decide which of two dates is the earlier one. -/
def Date.Before (d d' : Date) : Prop :=
  d.year < d'.year ∨ d.year = d'.year ∧ (d.month < d'.month ∨ d.month = d'.month ∧ d.day < d'.day)

/-- An earlier date has a smaller number. -/
theorem Date.Before.dayNumber_lt {d d' : Date} (hlt : d.Before d') (h : d.Valid) (h' : d'.Valid)
    (hy : 1 ≤ d.year) : dayNumber d < dayNumber d' := by
  have hpos := h.month_pos
  have hpos' := h'.month_pos
  have hle := h.month_le
  have hle' := h'.month_le
  have hmarch : marchYear d < marchYear d' ∨ marchYear d = marchYear d' ∧
      (marchMonth d < marchMonth d' ∨ marchMonth d = marchMonth d' ∧ d.day < d'.day) := by
    unfold Date.Before at hlt
    unfold marchYear marchMonth
    split <;> split <;> omega
  rcases hmarch with hyear | ⟨hyear, hmonth | ⟨hmonth, hday⟩⟩
  · exact dayNumber_lt_of_year h hy hyear
  · exact dayNumber_lt_of_month h h' hyear hmonth
  · have hone := h.day_pos
    unfold dayNumber
    rw [hyear, hmonth]
    omega

theorem Date.before_of_dayNumber_lt {d d' : Date} (h : d.Valid) (h' : d'.Valid)
    (hy' : 1 ≤ d'.year) (hlt : dayNumber d < dayNumber d') : d.Before d' := by
  by_contra hnot
  have hcases : d = d' ∨ d'.Before d := by
    obtain ⟨y, m, day⟩ := d
    obtain ⟨y', m', day'⟩ := d'
    unfold Date.Before at hnot ⊢
    rw [Date.mk.injEq]
    dsimp only at hnot ⊢
    omega
  rcases hcases with rfl | hbefore
  · exact lt_irrefl _ hlt
  · exact lt_asymm hlt (hbefore.dayNumber_lt h' h hy')

/-- A valid date with the number of a day is the date of that day. -/
theorem eq_dateAfter {epoch d : Date} (he : epoch.Valid) (hey : 1 ≤ epoch.year) (h : d.Valid)
    (hy : 1 ≤ d.year) {n : ℕ} (heq : dayNumber d = dayNumber epoch + n) :
    d = dateAfter epoch n := by
  obtain ⟨hyear, hnumber⟩ := dayNumber_dateAfter he hey n
  exact dayNumber_injective h (dateAfter_valid he n) hy hyear (heq.trans hnumber.symm)

/-- More days after an epoch are a later date. -/
theorem dateAfter_before {epoch : Date} (he : epoch.Valid) (hey : 1 ≤ epoch.year) {n n' : ℕ}
    (hlt : n < n') : (dateAfter epoch n).Before (dateAfter epoch n') := by
  obtain ⟨-, hnumber⟩ := dayNumber_dateAfter he hey n
  obtain ⟨hyear', hnumber'⟩ := dayNumber_dateAfter he hey n'
  exact Date.before_of_dayNumber_lt (dateAfter_valid he n) (dateAfter_valid he n') hyear' (by omega)

theorem dateAfter_injective {epoch : Date} (he : epoch.Valid) (hey : 1 ≤ epoch.year) {n n' : ℕ}
    (heq : dateAfter epoch n = dateAfter epoch n') : n = n' := by
  have h := (dayNumber_dateAfter he hey n).2
  have h' := (dayNumber_dateAfter he hey n').2
  rw [heq, h'] at h
  omega

end HCore.Gregorian
