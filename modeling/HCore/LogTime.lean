import HCore.GmTime
import HCore.SockText

/-!
The time in front of a line of the log. The buffer has the size of one time
with its zero, in Greenwich, where the name of the zone has three letters. The
formatter cuts a longer text together with its zero, and the line of the log
reads on behind the buffer.
-/

namespace HCore.LogTime

open Machine Numerals TextWindow Formatter FormatText GmTime SockText

/-- `sizeof("1970/09/28 12:00:00 +0000 GMT")` -/
def timeLength : ℕ := (bytesOf "1970/09/28 12:00:00 +0000 GMT").length + 1

/-- The fields that `localtime_r` stores; months and years count from 0 and
from 1900, and `gmtoff` is in seconds. -/
structure LocalTm where
  sec : ℕ
  min : ℕ
  hour : ℕ
  mday : ℕ
  mon : ℕ
  year : ℤ
  wday : ℕ
  gmtoff : ℤ

/-- `hcore_localtime`; the offset stays as it is. -/
def localtime (r : LocalTm) : Tm where
  sec := r.sec
  min := r.min
  hour := r.hour
  mday := r.mday
  mon := toUInt32 ((r.mon + 1 : ℕ) : ℤ)
  year := toUInt32 (r.year + 1900)
  wday := r.wday

/-- The arguments for the date and the time of day. -/
def dateArgs (tm : Tm) : List Arg :=
  [intArg tm.year, intArg tm.mon, intArg tm.mday, intArg tm.hour, intArg tm.min, intArg tm.sec]

/-- `hcore_log_get_time`, for the fields of the time in Greenwich. -/
def logGetTime (byte : ℕ → UInt8) (time : ℕ) (gmt : Tm) : Exec (ℕ → UInt8) :=
  snprintf byte time timeLength (bytesOf "%4d/%02d/%02d %02d:%02d:%02d +0000 GMT%Z") (dateArgs gmt)

/-- The offset in minutes, in 32 bits. -/
def gmtoffMinutes (r : LocalTm) : ℤ := toInt32 (r.gmtoff.tdiv 60)

/-- `hcore_abs(gmtoff_m / 60)` and `hcore_abs(gmtoff_m % 60)`. -/
def offsetHours (r : LocalTm) : ℕ := ((gmtoffMinutes r).tdiv 60).natAbs

def offsetMinutes (r : LocalTm) : ℕ := ((gmtoffMinutes r).tmod 60).natAbs

/-- `gmtoff > 0 ? '+' : '-'` -/
def offsetSign (r : LocalTm) : ℕ := if 0 < r.gmtoff then 43 else 45

/-- `hcore_log_get_localtime`; `zone` are the bytes of `tzname[0]` in front of
its zero. -/
def logGetLocaltime (byte : ℕ → UInt8) (time : ℕ) (r : LocalTm) (zone : List UInt8) :
    Exec (ℕ → UInt8) :=
  snprintf byte time timeLength (bytesOf "%4d/%02d/%02d %02d:%02d:%02d %c%02d%02d %s%Z")
    (dateArgs (localtime r) ++
      [intArg (offsetSign r), intArg (offsetHours r), intArg (offsetMinutes r),
        .chars (zone ++ [0])])

/-- The bytes of the buffer, which is all that may be read. -/
def timeBytes (byte : ℕ → UInt8) (time : ℕ) : List UInt8 :=
  (List.range timeLength).map fun i => byte (time + i)

/-- The beginning of a line, in `hcore_log_error_core`. -/
def putTime (errstr : Window) (byte : ℕ → UInt8) (time : ℕ) : Exec Window :=
  vslprintf errstr (bytesOf "%s%Z") [.chars (timeBytes byte time)]

/-- There is a zero in the buffer, and the line reads only inside. -/
def Terminated (byte : ℕ → UInt8) (time : ℕ) : Prop :=
  0 ∈ timeBytes byte time ∧ ∀ errstr, ∃ w, putTime errstr byte time = Except.ok w

/-- A year of four digits, and the other fields in their ranges. -/
structure InCalendar (tm : Tm) : Prop where
  year : 1000 ≤ tm.year ∧ tm.year ≤ 9999
  mon : 1 ≤ tm.mon ∧ tm.mon ≤ 12
  mday : 1 ≤ tm.mday ∧ tm.mday ≤ 31
  hour : tm.hour ≤ 23
  min : tm.min ≤ 59
  sec : tm.sec ≤ 60

/-- The date and the time of day. -/
def dateText (tm : Tm) : List UInt8 :=
  padded 32 4 tm.year ++ 47 :: (padded 48 2 tm.mon ++ 47 :: (padded 48 2 tm.mday ++ 32 ::
    (padded 48 2 tm.hour ++ 58 :: (padded 48 2 tm.min ++ 58 :: padded 48 2 tm.sec))))

def localText (r : LocalTm) (zone : List UInt8) : List UInt8 :=
  dateText (localtime r) ++ 32 :: UInt8.ofNat (offsetSign r) :: (padded 48 2 (offsetHours r) ++
    (padded 48 2 (offsetMinutes r) ++ 32 :: zone))

/-- The digits of the hours, at least two. -/
def hourDigits (r : LocalTm) : ℕ := max 2 (decimalText (offsetHours r)).length

section

variable {n width : ℕ} {zero : UInt8}

theorem decimalText_length_le {k : ℕ} (hk : 1 ≤ k) (hn : n < 10 ^ k) :
    (decimalText n).length ≤ k := numeral_length_le (by decide) hk hn

theorem padded_length (zero : UInt8) (width n : ℕ) :
    (padded zero width n).length = max width (decimalText n).length := by
  rw [padded, List.length_append, List.length_replicate]
  omega

/-- A number that fits its width takes exactly that. -/
theorem padded_length_eq (hwidth : 1 ≤ width) (hn : n < 10 ^ width) :
    (padded zero width n).length = width := by
  rw [padded_length, max_eq_left (decimalText_length_le hwidth hn)]

theorem zero_notMem_padded (hzero : zero ≠ 0) : 0 ∉ padded zero width n := by
  have hdigit (d : ℕ) (hd : d < 10) : decimalDigit d ≠ 0 := by
    interval_cases d <;> decide
  rw [padded, List.mem_append, not_or]
  refine ⟨fun hmem => hzero (List.eq_of_mem_replicate hmem).symm, fun hmem => ?_⟩
  exact forall_mem_numeral (P := (· ≠ 0)) (by decide) hdigit 0 hmem rfl

end

section

variable {tm : Tm} {r : LocalTm} {zone : List UInt8}

theorem offsetHours_lt (r : LocalTm) : offsetHours r < 2 ^ 31 := by
  have hlow : -2 ^ 31 ≤ gmtoffMinutes r := Int.le_bmod (by decide)
  have hhigh : gmtoffMinutes r < 2 ^ 31 := Int.bmod_lt (by decide)
  have hdiv : offsetHours r = (gmtoffMinutes r).natAbs / 60 := Int.natAbs_tdiv ..
  omega

theorem offsetMinutes_lt (r : LocalTm) : offsetMinutes r < 60 := by
  rw [offsetMinutes, Int.natAbs_tmod]
  exact Nat.mod_lt _ (by decide)

theorem zero_notMem_dateText (tm : Tm) : 0 ∉ dateText tm := by
  have hzero (n : ℕ) : 0 ∉ padded 48 2 n := zero_notMem_padded (by decide)
  have hyear : 0 ∉ padded 32 4 tm.year := zero_notMem_padded (by decide)
  simp [dateText, hzero, hyear]

theorem dateText_length (h : InCalendar tm) : (dateText tm).length = 19 := by
  have htwo (n : ℕ) (hn : n < 100) : (padded 48 2 n).length = 2 :=
    padded_length_eq (by decide) hn
  have hyear : (padded 32 4 tm.year).length = 4 :=
    padded_length_eq (by decide) (Nat.lt_succ_of_le h.year.2)
  have hmon := htwo tm.mon (by have := h.mon.2; omega)
  have hmday := htwo tm.mday (by have := h.mday.2; omega)
  have hhour := htwo tm.hour (by have := h.hour; omega)
  have hmin := htwo tm.min (by have := h.min; omega)
  have hsec := htwo tm.sec (by have := h.sec; omega)
  simp only [dateText, List.length_append, List.length_cons]
  omega

theorem zero_notMem_localText (r : LocalTm) (hzone : 0 ∉ zone) : 0 ∉ localText r zone := by
  have hzero (n : ℕ) : 0 ∉ padded 48 2 n := zero_notMem_padded (by decide)
  have hsign : UInt8.ofNat (offsetSign r) ≠ 0 := by
    unfold offsetSign
    split <;> decide
  simp [localText, zero_notMem_dateText, hzero, hzone, hsign.symm]

theorem localText_length (h : InCalendar (localtime r)) :
    (localText r zone).length = 24 + hourDigits r + zone.length := by
  have hmin : (padded 48 2 (offsetMinutes r)).length = 2 :=
    padded_length_eq (by decide) ((offsetMinutes_lt r).trans (by decide))
  simp only [localText, List.length_append, List.length_cons, dateText_length h, hmin,
    padded_length 48 2 (offsetHours r), hourDigits]
  omega

end

section

variable {fmt text : List UInt8} {args : List Arg} {tm : Tm}

/-- The date and the time of day go in front of what else is printed. -/
theorem prints_date (h : InCalendar tm) (hrest : Prints fmt args text true) :
    Prints (bytesOf "%4d/%02d/%02d %02d:%02d:%02d" ++ fmt) (dateArgs tm ++ args)
      (dateText tm ++ text) true := by
  have htwo {fmt text : List UInt8} {args : List Arg} (n : ℕ) (hn : n < 100)
      (hrest : Prints fmt args text true) :
      Prints (37 :: 48 :: 50 :: 100 :: fmt) (intArg n :: args) (padded 48 2 n ++ text) true :=
    @prints_padded fmt text args true n 48 2 [48, 50] (by omega) rfl hrest
  have hslash : (47 : UInt8) ≠ 37 := by decide
  have hblank : (32 : UInt8) ≠ 37 := by decide
  have hcolon : (58 : UInt8) ≠ 37 := by decide
  have hmon := h.mon.2
  have hmday := h.mday.2
  have hhour := h.hour
  have hmin := h.min
  have hsec := h.sec
  have hyear := h.year.2
  have hclock := htwo tm.hour (by omega) (Prints.plain hcolon (htwo tm.min (by omega)
    (Prints.plain hcolon (htwo tm.sec (by omega) hrest))))
  have hday := htwo tm.mon (by omega) (Prints.plain hslash (htwo tm.mday (by omega)
    (Prints.plain hblank hclock)))
  have hdate := @prints_padded _ _ _ true tm.year 32 4 [52] (by omega) rfl
    (Prints.plain hslash hday)
  have htext : dateText tm ++ text = padded 32 4 tm.year ++ 47 :: (padded 48 2 tm.mon ++ 47 ::
      (padded 48 2 tm.mday ++ 32 :: (padded 48 2 tm.hour ++ 58 :: (padded 48 2 tm.min ++ 58 ::
        (padded 48 2 tm.sec ++ text))))) := by
    simp only [dateText, List.append_assoc, List.cons_append]
  rw [htext]
  exact hdate

theorem prints_gmt (h : InCalendar tm) :
    Prints (bytesOf "%4d/%02d/%02d %02d:%02d:%02d +0000 GMT%Z") (dateArgs tm)
      (dateText tm ++ bytesOf " +0000 GMT" ++ [0]) true := by
  have hrest : Prints (bytesOf " +0000 GMT" ++ [37, 90]) [] (bytesOf " +0000 GMT" ++ [0]) true :=
    Prints.literal (by decide) prints_zero
  rw [List.append_assoc]
  exact prints_date h hrest

theorem prints_local {r : LocalTm} {zone : List UInt8} (h : InCalendar (localtime r))
    (hzone : 0 ∉ zone) :
    Prints (bytesOf "%4d/%02d/%02d %02d:%02d:%02d %c%02d%02d %s%Z")
      (dateArgs (localtime r) ++
        [intArg (offsetSign r), intArg (offsetHours r), intArg (offsetMinutes r),
          .chars (zone ++ [0])])
      (localText r zone ++ [0]) true := by
  have hblank : (32 : UInt8) ≠ 37 := by decide
  have hname := Prints.plain hblank (Prints.string hzone [] prints_zero)
  have hmin := @prints_padded _ _ _ true (offsetMinutes r) 48 2 [48, 50]
    ((offsetMinutes_lt r).trans (by decide)) rfl hname
  have hhour := @prints_padded _ _ _ true (offsetHours r) 48 2 [48, 50] (offsetHours_lt r) rfl hmin
  have hsign : UInt8.ofNat ((BitVec.ofNat 32 (offsetSign r)).toNat &&& 0xff) =
      UInt8.ofNat (offsetSign r) := by
    unfold offsetSign
    split <;> decide
  have hpiece : Yields ⟨32, 0, true, 0, false, 0, noLen⟩ 99 .char
      (intArg (offsetSign r) :: intArg (offsetHours r) :: intArg (offsetMinutes r) ::
        [.chars (zone ++ [0])])
      [UInt8.ofNat (offsetSign r)]
      (intArg (offsetHours r) :: intArg (offsetMinutes r) :: [.chars (zone ++ [0])]) := by
    rw [← hsign]
    exact Yields.char
  have hoffset : Prints (bytesOf " %c%02d%02d %s%Z")
      (intArg (offsetSign r) :: intArg (offsetHours r) :: intArg (offsetMinutes r) ::
        [.chars (zone ++ [0])])
      (32 :: ([UInt8.ofNat (offsetSign r)] ++ (padded 48 2 (offsetHours r) ++
        (padded 48 2 (offsetMinutes r) ++ 32 :: (zone ++ [0]))))) true :=
    Prints.plain hblank (Prints.directive rfl hpiece hhour)
  have htext : localText r zone ++ [0] = dateText (localtime r) ++
      32 :: ([UInt8.ofNat (offsetSign r)] ++ (padded 48 2 (offsetHours r) ++
        (padded 48 2 (offsetMinutes r) ++ 32 :: (zone ++ [0])))) := by
    simp only [localText, List.append_assoc, List.cons_append, List.nil_append]
  rw [htext]
  exact prints_date h hoffset

end

section

variable {byte : ℕ → UInt8} {time : ℕ} {fmt text : List UInt8} {args : List Arg}

/-- A buffer with a zero ends the reading of the line there. -/
theorem terminated_iff : Terminated byte time ↔ 0 ∈ timeBytes byte time := by
  refine ⟨fun h => h.1, fun hmem => ⟨hmem, fun errstr => ?_⟩⟩
  obtain ⟨pre, rest, hsplit, hpre⟩ := List.eq_append_cons_of_mem hmem
  refine ⟨errstr.emit (pre ++ [0]), ?_⟩
  rw [putTime, hsplit]
  exact (Prints.string hpre rest prints_zero).emits errstr

/-- A text without a zero in front of its last byte leaves one in the buffer
exactly if all of it fits. -/
theorem snprintf_terminated_iff (h : Prints fmt args (text ++ [0]) true) (hzero : 0 ∉ text) :
    (∃ byte', snprintf byte time timeLength fmt args = Except.ok byte' ∧ Terminated byte' time) ↔
      text.length < timeLength := by
  obtain ⟨byte', hrun, hbytes, -⟩ := snprintf_eq byte time timeLength h
  constructor
  · rintro ⟨byte₂, hrun₂, hterm⟩
    obtain rfl := Except.ok.inj (hrun.symm.trans hrun₂)
    obtain ⟨i, hi, hbyte⟩ := List.mem_map.mp hterm.1
    rw [List.mem_range] at hi
    by_contra hfull
    have hlt : i < text.length := by omega
    rw [hbytes i (by simp; omega) hi, List.getElem_append_left hlt] at hbyte
    exact hzero (hbyte ▸ List.getElem_mem hlt)
  · intro hlt
    refine ⟨byte', hrun, terminated_iff.mpr (List.mem_map.mpr
      ⟨text.length, List.mem_range.mpr hlt, ?_⟩)⟩
    rw [hbytes text.length (by simp) hlt]
    exact List.getElem_concat_length rfl _

/-- The time in Greenwich always fits. -/
theorem logGetTime_terminated (byte : ℕ → UInt8) (time : ℕ) {gmt : Tm} (h : InCalendar gmt) :
    ∃ byte', logGetTime byte time gmt = Except.ok byte' ∧ Terminated byte' time := by
  have hzero : 0 ∉ dateText gmt ++ bytesOf " +0000 GMT" := by
    rw [List.mem_append, not_or]
    exact ⟨zero_notMem_dateText gmt, by decide⟩
  refine (snprintf_terminated_iff (prints_gmt h) hzero).mpr ?_
  rw [List.length_append, dateText_length h]
  decide

theorem logGetLocaltime_terminated_iff (byte : ℕ → UInt8) (time : ℕ) {r : LocalTm}
    {zone : List UInt8} (h : InCalendar (localtime r)) (hzone : 0 ∉ zone) :
    (∃ byte', logGetLocaltime byte time r zone = Except.ok byte' ∧ Terminated byte' time) ↔
      zone.length + hourDigits r ≤ 5 := by
  have hlength : timeLength = 30 := by decide
  refine (snprintf_terminated_iff (prints_local h hzone) (zero_notMem_localText r hzone)).trans ?_
  rw [localText_length h, hlength]
  omega

/-- **The time strings end** with a zero in their buffers exactly if the name of the
zone and the hours of the offset are short enough. -/
theorem log_time_terminated_iff (byte : ℕ → UInt8) (time : ℕ) (gmt : Tm) (r : LocalTm)
    (zone : List UInt8) (hgmt : InCalendar gmt) (hr : InCalendar (localtime r))
    (hzone : 0 ∉ zone) :
    ((∃ byte', logGetTime byte time gmt = Except.ok byte' ∧ Terminated byte' time) ∧
        ∃ byte', logGetLocaltime byte time r zone = Except.ok byte' ∧ Terminated byte' time) ↔
      zone.length + hourDigits r ≤ 5 := by
  rw [logGetLocaltime_terminated_iff byte time hr hzone]
  exact and_iff_right (logGetTime_terminated byte time hgmt)

end

/-- Noon on New Year's Day, in Greenwich, and ten hours east of it. -/
def newYear : Tm := ⟨0, 0, 12, 1, 1, 2024, 1⟩

def newYearEast : LocalTm := ⟨0, 0, 22, 1, 0, 124, 1, 36000⟩

theorem newYear_inCalendar : InCalendar newYear :=
  ⟨by decide, by decide, by decide, by decide, by decide, by decide⟩

theorem newYearEast_inCalendar : InCalendar (localtime newYearEast) :=
  ⟨by decide, by decide, by decide, by decide, by decide, by decide⟩

theorem log_time_terminated_est :
    ((∃ byte', logGetTime (fun _ => 0xff) 4096 newYear = Except.ok byte' ∧
          Terminated byte' 4096) ∧
        ∃ byte', logGetLocaltime (fun _ => 0xff) 4096 newYearEast (bytesOf "EST") =
          Except.ok byte' ∧ Terminated byte' 4096) ↔
      (bytesOf "EST").length + hourDigits newYearEast ≤ 5 :=
  log_time_terminated_iff _ _ _ _ _ newYear_inCalendar newYearEast_inCalendar (by decide)

/-- A zone with a name of four letters leaves no room for the zero. -/
theorem four_letter_zone_unterminated :
    ¬ ∀ (byte : ℕ → UInt8) (time : ℕ) (r : LocalTm) (zone : List UInt8),
      InCalendar (localtime r) → 0 ∉ zone →
      ∃ byte', logGetLocaltime byte time r zone = Except.ok byte' ∧ Terminated byte' time := by
  intro h
  have hterm := h (fun _ => 0xff) 4096 newYearEast (bytesOf "AEST") newYearEast_inCalendar
    (by decide)
  rw [logGetLocaltime_terminated_iff _ _ newYearEast_inCalendar (by decide)] at hterm
  exact absurd hterm (by decide)

end HCore.LogTime
