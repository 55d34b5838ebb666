import HCore.LogLine
import HCore.TextOrder

/-!
The times in front of the lines of a log, in Greenwich. From 1970 to the end of
9999 they are in the order of a dictionary if they are in the order of time, so
a log whose clock is not set back is sorted.
-/

namespace HCore.LogOrder

open Machine Numerals DecimalText TextOrder TextWindow Formatter FormatText Gregorian GmTime SockText
  LogTime LogLine

/-- 9999-12-31 23:59:59 -/
def lastSecond : ℤ := 253402300799

/-- The fields from the year to the second decide which of two times is the sooner one. -/
def Sooner (tm tm' : Tm) : Prop :=
  tm.year < tm'.year ∨ tm.year = tm'.year ∧ (tm.mon < tm'.mon ∨ tm.mon = tm'.mon ∧
    (tm.mday < tm'.mday ∨ tm.mday = tm'.mday ∧ (tm.hour < tm'.hour ∨ tm.hour = tm'.hour ∧
      (tm.min < tm'.min ∨ tm.min = tm'.min ∧ tm.sec < tm'.sec))))

/-- The text of a time in Greenwich, without its zero. -/
def stamp (gmt : Tm) : List UInt8 := dateText gmt ++ bytesOf " +0000 GMT"

section

variable {a b width : ℕ} {u v : List UInt8}

theorem isDigit_padded (width n : ℕ) : ∀ c ∈ padded 48 width n, IsDigit c := by
  intro c hc
  rcases List.mem_append.mp hc with hfill | hdigit
  · rw [List.eq_of_mem_replicate hfill]
    decide
  · exact (number_numeral n).2.1 c hdigit

/-- Zeros in front do not change a number. -/
theorem decimalFrom_padded (width n : ℕ) : decimalFrom 0 (padded 48 width n) = n := by
  have hzeros (k : ℕ) : decimalFrom 0 (List.replicate k 48) = 0 := by
    induction k with
    | zero => rfl
    | succ k ih => exact ih
  rw [padded, decimalFrom_append, hzeros]
  exact (number_numeral n).2.2

theorem padded_lt (hwidth : 1 ≤ width) (ha : a < 10 ^ width) (hb : b < 10 ^ width) (h : a < b) :
    padded 48 width a < padded 48 width b := by
  apply lt_of_decimalFrom_lt (isDigit_padded width a) (isDigit_padded width b)
  · rw [padded_length_eq hwidth ha, padded_length_eq hwidth hb]
  · rwa [decimalFrom_padded, decimalFrom_padded]

/-- A number goes first, and what is behind it counts where it is the same. -/
theorem padded_append_lt (hwidth : 1 ≤ width) (ha : a < 10 ^ width) (hb : b < 10 ^ width)
    (h : a < b ∨ a = b ∧ u < v) : padded 48 width a ++ u < padded 48 width b ++ v := by
  apply append_lt_append_of_le
  · rw [padded_length_eq hwidth ha, padded_length_eq hwidth hb]
  · rcases h with hlt | ⟨rfl, hlt⟩
    · exact Or.inl (padded_lt hwidth ha hb hlt)
    · exact Or.inr ⟨rfl, hlt⟩

/-- A year of four digits is not filled up. -/
theorem padded_year {year : ℕ} (h : 1000 ≤ year ∧ year ≤ 9999) :
    padded 32 4 year = padded 48 4 year := by
  have hlength : 4 ≤ (decimalText year).length := by
    by_contra hshort
    have hlt : year < 10 ^ (decimalText year).length := by
      have hbound := (decimalFrom_bounds (number_numeral year).2.1 0).2
      rw [zero_add, one_mul] at hbound
      exact lt_of_eq_of_lt (number_numeral year).2.2.symm hbound
    have hle : 10 ^ (decimalText year).length ≤ 10 ^ 3 := Nat.pow_le_pow_right (by decide) (by omega)
    omega
  unfold padded
  rw [Nat.sub_eq_zero_of_le hlength]
  rfl

end

section

variable {tm tm' : Tm}

theorem dateText_lt (h : InCalendar tm) (h' : InCalendar tm') (hlt : Sooner tm tm') :
    dateText tm < dateText tm' := by
  have htwo {a b : ℕ} {u v : List UInt8} {c : UInt8} (ha : a < 100) (hb : b < 100)
      (hlt : a < b ∨ a = b ∧ u < v) :
      padded 48 2 a ++ c :: u < padded 48 2 b ++ c :: v :=
    padded_append_lt (by decide) ha hb (hlt.imp_right (And.imp_right List.cons_lt_cons_self.mpr))
  have hyear := h.year
  have hyear' := h'.year
  have hmon := h.mon
  have hmon' := h'.mon
  have hmday := h.mday
  have hmday' := h'.mday
  have hhour := h.hour
  have hhour' := h'.hour
  have hmin := h.min
  have hmin' := h'.min
  have hsec := h.sec
  have hsec' := h'.sec
  unfold dateText
  rw [padded_year hyear, padded_year hyear']
  apply padded_append_lt (by decide) (by omega) (by omega)
  refine hlt.imp_right (And.imp_right fun hlt => List.cons_lt_cons_self.mpr ?_)
  apply htwo (by omega) (by omega)
  refine hlt.imp_right (And.imp_right fun hlt => ?_)
  apply htwo (by omega) (by omega)
  refine hlt.imp_right (And.imp_right fun hlt => ?_)
  apply htwo (by omega) (by omega)
  refine hlt.imp_right (And.imp_right fun hlt => ?_)
  apply htwo (by omega) (by omega)
  exact hlt.imp_right (And.imp_right (padded_lt (by decide) (by omega) (by omega)))

theorem stamp_length (h : InCalendar tm) : (stamp tm).length = 29 := by
  rw [stamp, List.length_append, dateText_length h]
  rfl

theorem stamp_lt (h : InCalendar tm) (h' : InCalendar tm') (hlt : Sooner tm tm') :
    stamp tm < stamp tm' := by
  apply append_lt_append
  · rw [dateText_length h, dateText_length h']
  · exact dateText_lt h h' hlt

/-- What `hcore_log_get_time` leaves in its buffer. -/
theorem logGetTime_bytes (byte : ℕ → UInt8) (time : ℕ) (h : InCalendar tm) :
    ∃ byte', logGetTime byte time tm = Except.ok byte' ∧ timeBytes byte' time = stamp tm ++ [0] := by
  obtain ⟨byte', hrun, hbytes, -⟩ := snprintf_eq byte time timeLength (prints_gmt h)
  refine ⟨byte', hrun, ?_⟩
  have hlength : (stamp tm ++ [0]).length = timeLength := by
    rw [List.length_append, stamp_length h]
    rfl
  apply List.ext_getElem
  · rw [timeBytes, List.length_map, List.length_range, hlength]
  · intro i hi hi'
    rw [hlength] at hi'
    simp only [timeBytes, List.getElem_map, List.getElem_range]
    exact hbytes i (by unfold stamp at hlength; omega) hi'

end

section

variable {s t : ℤ}

/-- The fields of a time up to the end of 9999 are those of the calendar. -/
theorem gmtime_calendar (hs : 0 ≤ s) (hlast : s ≤ lastSecond) : gmtime s = calendarFields s := by
  unfold lastSecond at hlast
  rw [gmtime_eq, if_neg (by omega)]
  exact fields_eq _ _ (by omega) (by omega) s (by omega)

theorem lastDay : dateAfter epoch 2932896 = ⟨9999, 12, 31⟩ := by
  refine (eq_dateAfter epoch_valid (by decide) ?_ (by decide) (by decide)).symm
  exact ⟨by decide, by decide, by decide, by decide⟩

theorem year_bounds {n : ℕ} (hn : n ≤ 2932896) :
    1970 ≤ (dateAfter epoch n).year ∧ (dateAfter epoch n).year ≤ 9999 := by
  have hvalid := dateAfter_valid epoch_valid n
  constructor
  · rcases Nat.eq_zero_or_pos n with rfl | hpos
    · exact le_rfl
    · rcases dateAfter_before epoch_valid (by decide) hpos with hyear | ⟨hyear, -⟩
      · exact hyear.le
      · exact hyear.le
  · rcases Nat.lt_or_eq_of_le hn with hlt | rfl
    · have hbefore := dateAfter_before epoch_valid (by decide) hlt
      rw [lastDay] at hbefore
      rcases hbefore with hyear | ⟨hyear, -⟩
      · exact hyear.le
      · exact hyear.le
    · rw [lastDay]

theorem calendarFields_inCalendar (hs : 0 ≤ s) (hlast : s ≤ lastSecond) :
    InCalendar (calendarFields s) := by
  unfold lastSecond at hlast
  have hday : (s / 86400).toNat ≤ 2932896 := by omega
  have hvalid := dateAfter_valid epoch_valid (s / 86400).toNat
  have hyear := year_bounds hday
  have hlength : monthLength (dateAfter epoch (s / 86400).toNat).year
      (dateAfter epoch (s / 86400).toNat).month ≤ 31 := by
    unfold monthLength
    split <;> (try split) <;> omega
  unfold calendarFields
  exact ⟨⟨by dsimp only; omega, hyear.2⟩, ⟨hvalid.month_pos, hvalid.month_le⟩,
    ⟨hvalid.day_pos, hvalid.day_le.trans hlength⟩, by dsimp only; omega, by dsimp only; omega,
    by dsimp only; omega⟩

theorem calendarFields_sooner (hs : 0 ≤ s) (hlt : s < t) :
    Sooner (calendarFields s) (calendarFields t) := by
  unfold Sooner calendarFields
  dsimp only
  rcases Nat.lt_or_eq_of_le (show (s / 86400).toNat ≤ (t / 86400).toNat by omega) with hday | hday
  · rcases dateAfter_before epoch_valid (by decide) hday with hyear | ⟨hyear, hmonth⟩
    · exact Or.inl hyear
    · refine Or.inr ⟨hyear, hmonth.imp_right (And.imp_right Or.inl)⟩
  · rw [hday]
    omega

/-- The stamp of a second. -/
def stampOf (s : ℤ) : List UInt8 := stamp (gmtime s)

theorem gmtime_inCalendar (hs : 0 ≤ s) (hlast : s ≤ lastSecond) : InCalendar (gmtime s) := by
  rw [gmtime_calendar hs hlast]
  exact calendarFields_inCalendar hs hlast

theorem stampOf_lt (hs : 0 ≤ s) (hlast : t ≤ lastSecond) (hlt : s < t) : stampOf s < stampOf t := by
  have hs' := gmtime_inCalendar hs (hlt.le.trans hlast)
  have ht' := gmtime_inCalendar (hs.trans hlt.le) hlast
  apply stamp_lt hs' ht'
  rw [gmtime_calendar hs (hlt.le.trans hlast), gmtime_calendar (hs.trans hlt.le) hlast]
  exact calendarFields_sooner hs hlt

/-- **The time strings sort as the times**, from 1970 to the end of 9999, whatever
was in their buffers. -/
theorem log_times_ordered (byte byte' : ℕ → UInt8) (time time' : ℕ) (hs : 0 ≤ s)
    (hslast : s ≤ lastSecond) (ht : 0 ≤ t) (htlast : t ≤ lastSecond) :
    ∃ left right, logGetTime byte time (gmtime s) = Except.ok left ∧
      logGetTime byte' time' (gmtime t) = Except.ok right ∧
      (timeBytes left time < timeBytes right time' ↔ s < t) := by
  have hs' := gmtime_inCalendar hs hslast
  have ht' := gmtime_inCalendar ht htlast
  have hlength : (stampOf s).length = (stampOf t).length :=
    (stamp_length hs').trans (stamp_length ht').symm
  obtain ⟨left, hleft, hlbytes⟩ := logGetTime_bytes byte time hs'
  obtain ⟨right, hright, hrbytes⟩ := logGetTime_bytes byte' time' ht'
  refine ⟨left, right, hleft, hright, ?_⟩
  rw [hlbytes, hrbytes]
  constructor
  · intro hlt
    rcases lt_trichotomy s t with h | rfl | h
    · exact h
    · exact absurd hlt (List.lt_irrefl _)
    · have hback : stampOf t ++ [0] < stampOf s ++ [0] :=
        append_lt_append hlength.symm (stampOf_lt ht hslast h)
      exact absurd hback (List.lt_asymm hlt)
  · exact fun h => append_lt_append hlength (stampOf_lt hs htlast h)

theorem log_times_ordered_day :
    ∃ left right, logGetTime (fun _ => 0) 4096 (gmtime 86399) = Except.ok left ∧
      logGetTime (fun _ => 0xff) 8192 (gmtime 86400) = Except.ok right ∧
      (timeBytes left 4096 < timeBytes right 8192 ↔ (86399 : ℤ) < 86400) :=
  log_times_ordered _ _ _ _ (by decide) (by decide) (by decide) (by decide)

end

/-- A call whose time was taken in a second, with `hcore_log_get_time`. -/
def Stamped (call : LogCall) (s : ℤ) : Prop :=
  ∃ byte byte' time, logGetTime byte time (gmtime s) = Except.ok byte' ∧
    call.time = timeBytes byte' time

section

variable {call : LogCall} {s : ℤ} {logLevel : ℕ}

/-- A line begins with its stamp. -/
theorem Stamped.line (h : Stamped call s) (hs : 0 ≤ s) (hlast : s ≤ lastSecond)
    (hlevel : call.level < logLevels.length) : call.line.take 29 = stampOf s := by
  obtain ⟨byte, byte', time, hrun, htime⟩ := h
  have hcalendar := gmtime_inCalendar hs hlast
  obtain ⟨byte₂, hrun₂, hbytes⟩ := logGetTime_bytes byte time hcalendar
  obtain rfl := Except.ok.inj (hrun.symm.trans hrun₂)
  have hzero : ∀ c ∈ stampOf s, c ≠ 0 := by
    have hsuffix : 0 ∉ bytesOf " +0000 GMT" := by decide
    intro c hc hceq
    rcases List.mem_append.mp (hceq ▸ hc) with hmem | hmem
    · exact zero_notMem_dateText _ hmem
    · exact hsuffix hmem
  have htext : call.timeText = stampOf s := by
    rw [LogCall.timeText, htime, hbytes, List.takeWhile_append_of_pos]
    · simp [stampOf]
    · exact fun c hc => decide_eq_true (hzero c hc)
  have hlength : (stampOf s).length = 29 := stamp_length hcalendar
  rw [LogCall.line, List.getElem?_eq_getElem hlevel, Option.elim_some, List.take_take,
    Nat.min_eq_left (by decide), LogCall.fullText, htext, List.take_left' hlength]

end

end HCore.LogOrder
