import HCore.Machine
import HCore.Gregorian
import Mathlib.Order.Lattice

/-!
The conversion of a time to a date. The day count is cut to 32 bits before it
is compared with the last day that is supported, so a time far behind that
day can come out as a date of any year. For the counts that pass the
comparison the closed formula gives the date of the calendar.
-/

namespace HCore.GmTime

open Machine Gregorian

/-- The fields of `hcore_tm_t` that are written. -/
structure Tm where
  sec : ℕ
  min : ℕ
  hour : ℕ
  mday : ℕ
  mon : ℕ
  year : ℕ
  wday : ℕ
  deriving DecidableEq, Repr

/-- The year by Gauss' formula, for the days since March 1, 1 BC. -/
def gaussYear (days : ℕ) : ℕ :=
  toUInt32 (((days + 2) * 400 : ℕ) : ℤ) / (365 * 400 + 100 - 4 + 1)

def gaussYday (days year : ℕ) : ℤ :=
  toInt32 ((days : ℤ) -
    (365 * year + (year / 4 : ℕ) - (year / 100 : ℕ) + (year / 400 : ℕ)))

def leap (year : ℕ) : ℕ := if year % 4 = 0 ∧ (year % 100 ≠ 0 ∨ year % 400 = 0) then 1 else 0

/-- `year` and `yday` behind the correction of a negative `yday`. -/
def marchDate (days : ℕ) : ℕ × ℤ :=
  let year := gaussYear days
  let yday := gaussYday days year
  if yday < 0 then (toUInt32 ((year : ℤ) - 1), toInt32 (365 + leap year + yday))
  else (year, yday)

/-- The empirical formula that maps `yday` to a month. -/
def monthOf (yday : ℤ) : ℕ := toUInt32 (((yday + 31) * 10).tdiv 306)

def mdayOf (yday : ℤ) (mon : ℕ) : ℕ := toUInt32 (yday - ((367 * mon / 12 : ℕ) - 30) + 1)

/-- The date of a day, counted from January 1, 1970. -/
def civil (days : ℕ) : Date :=
  let days := toUInt32 ((days : ℤ) - (31 + 28) + 719527)
  let r := marchDate days
  let mon := monthOf r.2
  let mday := mdayOf r.2 mon
  if 306 ≤ r.2 then ⟨toUInt32 ((r.1 : ℤ) + 1), toUInt32 ((mon : ℤ) - 10), mday⟩
  else ⟨r.1, toUInt32 ((mon : ℤ) + 2), mday⟩

/-- The fields for a count of days and the seconds of the day. -/
def fields (days sec : ℕ) : Tm where
  sec := sec % 3600 % 60
  min := sec % 3600 / 60
  hour := sec / 3600
  mday := (civil days).day
  mon := (civil days).month
  year := (civil days).year
  wday := toUInt32 ((4 + days : ℕ) : ℤ) % 7

def gmtime (s : ℤ) : Tm :=
  let s := if s < 0 then 0 else s
  let days := toUInt32 (s / 86400)
  let sec := toUInt32 (s % 86400)
  if 2932896 < days then fields 2932896 86399 else fields days sec

/-- January 1, 1970, a Thursday. -/
def epoch : Date := ⟨1970, 1, 1⟩

def weekday (n : ℕ) : ℕ := (4 + n) % 7

/-- The times from 1970-01-01 00:00:00 to 9999-12-31 23:59:59. -/
def clamp (s : ℤ) : ℤ := max 0 (min s 253402300799)

/-- The fields of a time in the calendar. -/
def calendarFields (t : ℤ) : Tm where
  sec := (t % 60).toNat
  min := (t / 60 % 60).toNat
  hour := (t / 3600 % 24).toNat
  mday := (dateAfter epoch (t / 86400).toNat).day
  mon := (dateAfter epoch (t / 86400).toNat).month
  year := (dateAfter epoch (t / 86400).toNat).year
  wday := weekday (t / 86400).toNat

/-- The day count fits 32 bits, or what is left of it is cut to the last day
as well, or is the last second of it. -/
def DayCountFits (s : ℤ) : Prop :=
  max s 0 / 86400 < 2 ^ 32 ∨ 2932896 < max s 0 / 86400 % 2 ^ 32 ∨
    (max s 0 / 86400 % 2 ^ 32 = 2932896 ∧ s % 86400 = 86399)

/-- What the formulas give for the days of a year that begins with March. -/
def MonthFormula (y : ℕ) : Prop :=
  1 ≤ (y + 31) * 10 / 306 ∧ (y + 31) * 10 / 306 ≤ 12 ∧
    ((y + 31) * 10 / 306 ≤ 10 ↔ y < 306) ∧
    367 * ((y + 31) * 10 / 306) / 12 = monthDays ((y + 31) * 10 / 306 - 1) + 30 ∧
    monthDays ((y + 31) * 10 / 306 - 1) ≤ y ∧
    ((y + 31) * 10 / 306 = 12 ∨ y < monthDays ((y + 31) * 10 / 306))

instance decidableMonthFormula (y : ℕ) : Decidable (MonthFormula y) :=
  inferInstanceAs (Decidable (_ ∧ _ ∧ _ ∧ _ ∧ _ ∧ _))

theorem month_formula : ∀ y < 366, MonthFormula y := by decide +kernel

theorem marchDays_cast (x : ℕ) : (365 * x + (x / 4 : ℕ) - (x / 100 : ℕ) + (x / 400 : ℕ) : ℤ) =
    (marchDays x : ℤ) := by
  have hle : x / 100 ≤ x := Nat.div_le_self x 100
  unfold marchDays
  omega

/-- The year of the formula is that of the day or, for the last two days of
February, the next one. -/
theorem gaussYear_bounds (n x : ℕ) (hx : x = (n + 2) * 400 / 146097) :
    n < marchDays (x + 1) ∧ marchDays x ≤ n + 2 := by
  have hmul : x * 146097 ≤ (n + 2) * 400 := hx ▸ Nat.div_mul_le_self _ _
  have hlt : (n + 2) * 400 < (x + 1) * 146097 := by
    rw [hx, ← Nat.div_lt_iff_lt_mul (by omega)]
    exact Nat.lt_succ_self _
  clear hx
  constructor
  · have h4 := Nat.lt_div_mul_add (a := x + 1) (show 0 < 4 by omega)
    have h100 := Nat.div_mul_le_self (x + 1) 100
    have h400 := Nat.lt_div_mul_add (a := x + 1) (show 0 < 400 by omega)
    unfold marchDays
    generalize (x + 1) / 4 = a, (x + 1) / 100 = b, (x + 1) / 400 = c at *
    omega
  · have h4 := Nat.div_mul_le_self x 4
    have h100 := Nat.lt_div_mul_add (a := x) (show 0 < 100 by omega)
    have h400 := Nat.div_mul_le_self x 400
    unfold marchDays
    generalize x / 4 = a, x / 100 = b, x / 400 = c at *
    omega

theorem leap_eq (y : ℕ) : leap y = if IsLeap y then 1 else 0 := rfl

/-- The days of the supported range, split into a year and a day of it. -/
theorem marchDate_spec (n : ℕ) (hlow : 719468 ≤ n) (hhigh : n ≤ 719468 + 2932896) :
    ∃ y d : ℕ, marchDate n = (y, (d : ℤ)) ∧ n = marchDays y + d ∧ n < marchDays (y + 1) ∧
      1969 ≤ y ∧ y < 10000 := by
  obtain ⟨x, hx⟩ : ∃ x, x = (n + 2) * 400 / 146097 := ⟨_, rfl⟩
  obtain ⟨hnext, hfirst⟩ := gaussYear_bounds n x hx
  have hyear : gaussYear n = x := by
    rw [gaussYear, toUInt32_of_lt (by omega), hx]
  have hlow' : 1969 ≤ x := by
    rw [hx, Nat.le_div_iff_mul_le (by omega)]
    omega
  have hhigh' : x < 10000 := by
    rw [hx, Nat.div_lt_iff_lt_mul (by omega)]
    omega
  have hleap : (if IsLeap (x - 1 + 1) then 1 else 0) ≤ 1 := by
    split <;> omega
  have hprev := marchDays_succ (x - 1)
  rw [show x - 1 + 1 = x by omega] at hprev hleap
  have hspan := marchDays_succ x
  have hleap' : (if IsLeap (x + 1) then 1 else 0) ≤ 1 := by
    split <;> omega
  have hyday : gaussYday n x = (n : ℤ) - marchDays x := by
    rw [gaussYday, marchDays_cast]
    exact toInt32_of_range (by omega) (by omega)
  unfold marchDate
  dsimp only
  rw [hyear, hyday]
  by_cases hneg : (n : ℤ) - marchDays x < 0
  · rw [if_pos hneg, leap_eq]
    refine ⟨x - 1, n - marchDays (x - 1), ?_, by omega, ?_, ?_, by omega⟩
    · rw [Prod.mk.injEq]
      constructor
      · rw [show (x : ℤ) - 1 = ((x - 1 : ℕ) : ℤ) by omega]
        exact toUInt32_of_lt (by omega)
      · rw [toInt32_of_range (by omega) (by omega)]
        omega
    · rw [show x - 1 + 1 = x by omega]
      omega
    · by_contra hlt
      obtain rfl : x = 1969 := by omega
      have hfixed : marchDays 1969 = 719162 := by decide
      omega
  · rw [if_neg hneg]
    refine ⟨x, n - marchDays x, ?_, by omega, hnext, hlow', hhigh'⟩
    rw [Prod.mk.injEq]
    exact ⟨rfl, by omega⟩

/-- A day of a year that begins with March, by its month and the day there. -/
theorem valid_of_march {d : Date} {y n : ℕ} (hpos : 1 ≤ d.month) (hle : d.month ≤ 12)
    (hy : 1 ≤ d.year) (hyear : marchYear d = y) (hday : d.day = n - monthDays (marchMonth d) + 1)
    (hlow : monthDays (marchMonth d) ≤ n)
    (hhigh : marchMonth d = 11 ∨ n < monthDays (marchMonth d + 1))
    (hn : marchDays y + n < marchDays (y + 1)) :
    d.Valid ∧ dayNumber d = marchDays y + n := by
  refine ⟨⟨hpos, hle, by omega, ?_⟩, ?_⟩
  · by_cases hm : d.month = 2
    · have hspan := marchDays_succ y
      have hfeb : marchYear d + 1 = d.year := marchYear_february hm hy
      rw [hyear] at hfeb
      rw [marchMonth_february hm] at hday hlow
      rw [monthLength_february hm, ← hfeb, hday]
      simp only [monthDays] at *
      omega
    · obtain ⟨hten, hnext⟩ := monthDays_next hpos hle hm
      omega
  · rw [dayNumber, hyear]
    omega

theorem epoch_valid : epoch.Valid := ⟨by decide, by decide, by decide, by decide⟩

/-- The date of a supported day. -/
theorem civil_eq (n : ℕ) (hn : n ≤ 2932896) : civil n = dateAfter epoch n := by
  obtain ⟨y, d, hmarch, hsum, hlt, hlow, hhigh⟩ :=
    marchDate_spec (n + 719468) (by omega) (by omega)
  have hspan := marchDays_succ y
  have hleap : (if IsLeap (y + 1) then 1 else 0) ≤ 1 := by
    split <;> omega
  obtain ⟨hmon, hmon', hten, hmday, hfirst, hlast⟩ := month_formula d (by omega)
  have hmonth : monthOf d = (d + 31) * 10 / 306 := by
    rw [monthOf, Int.tdiv_eq_ediv_of_nonneg (by omega),
      show ((d : ℤ) + 31) * 10 / 306 = (((d + 31) * 10 / 306 : ℕ) : ℤ) by omega]
    exact toUInt32_of_lt (by omega)
  generalize (d + 31) * 10 / 306 = m at *
  have hday : mdayOf d m = d - monthDays (m - 1) + 1 := by
    rw [mdayOf, hmday, show (d : ℤ) - ((monthDays (m - 1) + 30 : ℕ) - 30) + 1 =
      ((d - monthDays (m - 1) + 1 : ℕ) : ℤ) by omega]
    exact toUInt32_of_lt (by omega)
  have hnumber : dayNumber epoch + n = marchDays y + d := by
    rw [show dayNumber epoch = 719468 by decide]
    omega
  have hdays : toUInt32 ((n : ℤ) - (31 + 28) + 719527) = n + 719468 := by
    rw [show (n : ℤ) - (31 + 28) + 719527 = ((n + 719468 : ℕ) : ℤ) by omega]
    exact toUInt32_of_lt (by omega)
  unfold civil
  dsimp only
  rw [hdays, hmarch]
  dsimp only
  rw [hmonth, hday]
  by_cases hlate : 306 ≤ d
  · have hm : toUInt32 ((m : ℤ) - 10) = m - 10 := by
      rw [show (m : ℤ) - 10 = ((m - 10 : ℕ) : ℤ) by omega]
      exact toUInt32_of_lt (by omega)
    have hy : toUInt32 ((y : ℤ) + 1) = y + 1 := toUInt32_of_lt (x := y + 1) (by omega)
    have hmarchMonth (k : ℕ) : marchMonth ⟨y + 1, m - 10, k⟩ = m - 1 := by
      rw [marchMonth, if_neg (by dsimp only; omega)]
      dsimp only
      omega
    rw [if_pos (by omega), hm, hy]
    obtain ⟨hvalid, hdate⟩ := valid_of_march (d := ⟨y + 1, m - 10, d - monthDays (m - 1) + 1⟩)
      (y := y) (n := d) (by dsimp only; omega) (by dsimp only; omega) (by dsimp only; omega)
      (by rw [marchYear, if_neg (by dsimp only; omega)]; rfl) (by rw [hmarchMonth])
      (by rw [hmarchMonth]; exact hfirst)
      (by rw [hmarchMonth, show m - 1 + 1 = m by omega]; omega) (by omega)
    exact eq_dateAfter epoch_valid (by decide) hvalid (by dsimp only; omega)
      (hdate.trans hnumber.symm)
  · have hm : toUInt32 ((m : ℤ) + 2) = m + 2 := toUInt32_of_lt (x := m + 2) (by omega)
    have hmarchMonth (k : ℕ) : marchMonth ⟨y, m + 2, k⟩ = m - 1 := by
      rw [marchMonth, if_pos (by dsimp only; omega)]
      dsimp only
      omega
    rw [if_neg (by omega), hm]
    obtain ⟨hvalid, hdate⟩ := valid_of_march (d := ⟨y, m + 2, d - monthDays (m - 1) + 1⟩)
      (y := y) (n := d) (by dsimp only; omega) (by dsimp only; omega) (by dsimp only; omega)
      (by rw [marchYear, if_pos (by dsimp only; omega)]) (by rw [hmarchMonth])
      (by rw [hmarchMonth]; exact hfirst)
      (by rw [hmarchMonth, show m - 1 + 1 = m by omega]; omega) (by omega)
    exact eq_dateAfter epoch_valid (by decide) hvalid (by dsimp only; omega)
      (hdate.trans hnumber.symm)

/-- The fields of a supported day are those of the calendar. -/
theorem fields_eq (n sec : ℕ) (hn : n ≤ 2932896) (hsec : sec < 86400) (t : ℤ)
    (ht : t = n * 86400 + sec) : fields n sec = calendarFields t := by
  have hday : (t / 86400).toNat = n := by omega
  have hwday : toUInt32 ((4 + n : ℕ) : ℤ) = 4 + n := toUInt32_of_lt (by omega)
  unfold fields calendarFields
  rw [civil_eq n hn, hday, hwday, Tm.mk.injEq]
  refine ⟨?_, ?_, ?_, rfl, rfl, rfl, rfl⟩ <;> omega

theorem fields_injective {n n' sec sec' : ℕ} (hn : n ≤ 2932896) (hn' : n' ≤ 2932896)
    (h : fields n sec = fields n' sec') : n = n' ∧ sec = sec' := by
  unfold fields at h
  obtain ⟨h1, h2, h3, h4, h5, h6, -⟩ := Tm.mk.inj h
  refine ⟨?_, by omega⟩
  have hdate : civil n = civil n' := by
    cases hc : civil n
    cases hc' : civil n'
    rw [hc, hc'] at h4 h5 h6
    dsimp only at h4 h5 h6
    rw [h4, h5, h6]
  rw [civil_eq n hn, civil_eq n' hn'] at hdate
  exact dateAfter_injective epoch_valid (by decide) hdate

theorem gmtime_eq (s : ℤ) : gmtime s =
    if 2932896 < max s 0 / 86400 % 2 ^ 32 then fields 2932896 86399
    else fields (max s 0 / 86400 % 2 ^ 32).toNat (max s 0 % 86400).toNat := by
  have hs : (if s < 0 then 0 else s) = max s 0 := by
    split <;> omega
  have hsec : toUInt32 (max s 0 % 86400) = (max s 0 % 86400).toNat := by
    unfold toUInt32
    omega
  unfold gmtime
  dsimp only
  rw [hs, hsec]
  change (if 2932896 < (max s 0 / 86400 % 2 ^ 32).toNat then _ else _) = _
  by_cases hlarge : 2932896 < max s 0 / 86400 % 2 ^ 32
  · rw [if_pos hlarge, if_pos (by omega)]
  · rw [if_neg hlarge, if_neg (by omega)]
    rfl

/-- The fields are the calendar's exactly where the day count survives. -/
theorem gmtime_iff (s : ℤ) : gmtime s = calendarFields (clamp s) ↔ DayCountFits s := by
  rw [gmtime_eq]
  unfold DayCountFits clamp
  obtain ⟨d, hd⟩ : ∃ d, d = max s 0 / 86400 := ⟨_, rfl⟩
  rw [← hd]
  have hlast : fields 2932896 86399 = calendarFields 253402300799 :=
    fields_eq 2932896 86399 le_rfl (by omega) _ (by omega)
  by_cases hlarge : 2932896 < d % 2 ^ 32
  · have hmax : max 0 (min s 253402300799) = 253402300799 := by omega
    rw [if_pos hlarge, hmax, hlast]
    exact iff_of_true rfl (Or.inr (Or.inl hlarge))
  · rw [if_neg hlarge]
    by_cases hfits : d < 2 ^ 32
    · have hday : d % 2 ^ 32 = d := Int.emod_eq_of_lt (by omega) hfits
      have hclamp : max 0 (min s 253402300799) = max s 0 := by omega
      rw [hday, hclamp]
      exact iff_of_true (fields_eq _ _ (by omega) (by omega) _ (by omega)) (Or.inl hfits)
    · have hmax : max 0 (min s 253402300799) = 253402300799 := by omega
      rw [hmax, ← hlast]
      constructor
      · intro h
        obtain ⟨hday, hsec⟩ := fields_injective (by omega) le_rfl h
        exact Or.inr (Or.inr ⟨by omega, by omega⟩)
      · rintro (h | h | ⟨hday, hsec⟩)
        · exact absurd h hfits
        · exact absurd h hlarge
        · rw [hday, show max s 0 % 86400 = 86399 by omega]
          rfl

/-- A time 2 ^ 32 days after the epoch comes out as January 1, 1970. -/
theorem gmtime_wraps : ¬ ∀ s : ℤ, -2 ^ 63 ≤ s → s < 2 ^ 63 →
    gmtime s = calendarFields (clamp s) := by
  intro h
  have hlast : calendarFields (clamp (86400 * 2 ^ 32)) = fields 2932896 86399 :=
    (fields_eq 2932896 86399 le_rfl (by omega) _ (by decide)).symm
  have hzero : gmtime (86400 * 2 ^ 32) = fields 0 0 := by
    rw [gmtime_eq]
    rfl
  have heq := h (86400 * 2 ^ 32) (by decide) (by decide)
  rw [hzero, hlast] at heq
  have hday := (fields_injective (by omega) le_rfl heq).1
  omega

end HCore.GmTime
