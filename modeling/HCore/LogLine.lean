import HCore.LogTime

/-!
The lines of the log. A line is put together in a buffer on the stack by seven
calls of the formatter and a handler, each of which stops at the end of the
buffer; the last byte of the line is a line feed in any case. A log takes the
calls up to its level, and its file is their lines one behind the other.
-/

namespace HCore.LogLine

open Machine Numerals TextWindow Formatter FormatText SockText LogTime

/-- `HCORE_LOG_ERRSTR_LENGTH_MAX` -/
def errstrLengthMax : ℕ := 2048

/-- The name of a level and what goes in front of it. -/
structure LogLevel where
  name : List UInt8
  padding : List UInt8

/-- `g_hcore_log_level`; the levels are the indices. -/
def logLevels : List LogLevel :=
  [⟨bytesOf "stderr", bytesOf ""⟩, ⟨bytesOf "emerg", bytesOf " "⟩, ⟨bytesOf "alert", bytesOf " "⟩,
    ⟨bytesOf "crit", bytesOf "  "⟩, ⟨bytesOf "error", bytesOf " "⟩, ⟨bytesOf "warn", bytesOf "  "⟩,
    ⟨bytesOf "notice", bytesOf ""⟩, ⟨bytesOf "info", bytesOf "  "⟩, ⟨bytesOf "debug", bytesOf " "⟩]

/-- The length of a string in an `int`, as it is compared with a length of 64 bits. -/
def intLength (logStr : List UInt8) : ℕ := ((BitVec.ofNat 32 logStr.length).signExtend 64).toNat

/-- `hcore_log_parse_level`, for the bytes in front of the zero; -1 for no level. -/
def logParseLevel (logStr : List UInt8) : ℤ :=
  if intLength logStr = 0 then -1
  else
    ((logLevels.findIdx? fun level => level.name.length == intLength logStr &&
      level.name == logStr.take (intLength logStr)).map Int.ofNat).getD (-1)

/-- What `strerror_r` makes of an error number. -/
inductive StrError
  | message (bytes : List UInt8)
  | invalid
  | range
  | other

/-- The text for an error number in a line. -/
def StrError.bytes : StrError → List UInt8
  | .message bytes => bytes
  | .invalid => bytesOf "parse error: INVAL"
  | .range => bytesOf "parse error: RANGE"
  | .other => bytesOf "no parsed"

/-- A handler that adds a text to a line. -/
structure Handler where
  run : Window → Exec Window
  text : List UInt8
  emits : ∀ w, run w = Except.ok (w.emit text)

/-- A call with what it finds in the log and in the process: the bytes of the time
buffer with their zero, an object and an error text without one, and arguments
that match the format. -/
structure LogCall where
  level : ℕ
  err : BitVec 32
  fmt : List UInt8
  args : List Arg
  text : List UInt8
  prints : Prints fmt args text true
  time : List UInt8
  terminated : 0 ∈ time
  pid : BitVec 32
  object : Option (List UInt8)
  object_zero : ∀ bytes ∈ object, 0 ∉ bytes
  strerror : StrError
  strerror_zero : 0 ∉ strerror.bytes
  handler : Option Handler

/-- `log->object ? log->object : "unknown"` -/
def LogCall.objectName (call : LogCall) : List UInt8 := call.object.getD (bytesOf "unknown")

/-- A number of 32 bits with its sign, filled up to a width. -/
def signedPadded (zero : UInt8) (width : ℕ) (v : BitVec 32) : List UInt8 :=
  if v.toInt < 0 then 45 :: padded zero width v.toInt.natAbs else padded zero width v.toInt.natAbs

/-- The time up to its zero. -/
def LogCall.timeText (call : LogCall) : List UInt8 := call.time.takeWhile (fun c => decide (c ≠ 0))

def LogCall.errText (call : LogCall) : List UInt8 :=
  if call.err ≠ 0 then
    bytesOf " (" ++ (signedPadded 32 0 call.err ++ (bytesOf ": " ++ (call.strerror.bytes ++ bytesOf ") ")))
  else bytesOf " (0) "

/-- The whole text of a call: the time with a zero behind it, the level, the
process, the object, the error, the message and what the handler adds. -/
def LogCall.fullText (call : LogCall) (level : LogLevel) : List UInt8 :=
  call.timeText ++ ([0] ++ (bytesOf " [" ++ (level.padding ++ (level.name ++ (bytesOf "]" ++
    (bytesOf " " ++ (signedPadded 32 5 call.pid ++ (bytesOf " " ++ (call.objectName ++ (bytesOf ":" ++
      (call.errText ++ (call.text ++ (call.handler.elim [] Handler.text)))))))))))))

/-- The line of a call, without its line feed. -/
def LogCall.line (call : LogCall) : List UInt8 :=
  logLevels[call.level]?.elim [] fun level => (call.fullText level).take (errstrLengthMax - 1)

/-- Nothing that a call brings with it has a line feed. -/
structure LogCall.OneLine (call : LogCall) : Prop where
  time : 10 ∉ call.time
  object : ∀ bytes ∈ call.object, 10 ∉ bytes
  strerror : 10 ∉ call.strerror.bytes
  text : 10 ∉ call.text
  handler : ∀ handler ∈ call.handler, 10 ∉ handler.text

section

variable {fmt text : List UInt8} {args : List Arg} {whole : Bool} {n : ℕ}

end

section

/-- A length below 2^31 is the one that is kept. -/
theorem intLength_eq_iff (logStr : List UInt8) {n : ℕ} (hn : n < 2 ^ 31) :
    n = intLength logStr ↔ logStr.length % 2 ^ 32 = n := by
  have hlow := BitVec.toNat_ofNat logStr.length 32
  have hmsb := BitVec.msb_eq_decide (BitVec.ofNat 32 logStr.length)
  unfold intLength
  rw [BitVec.toNat_signExtend, BitVec.toNat_setWidth_of_le (by decide)]
  split
  · rename_i hhigh
    rw [hhigh, eq_comm, decide_eq_true_eq] at hmsb
    omega
  · omega

/-- What the search compares says that the name begins the string. -/
theorem matches_iff (logStr : List UInt8) {level : LogLevel} (hlevel : level ∈ logLevels) :
    (level.name.length == intLength logStr && level.name == logStr.take (intLength logStr)) = true ↔
      level.name <+: logStr ∧ logStr.length % 2 ^ 32 = level.name.length := by
  have hshort : level.name.length < 2 ^ 31 := by
    revert level
    decide
  rw [Bool.and_eq_true, beq_iff_eq, beq_iff_eq, List.prefix_iff_eq_take,
    ← intLength_eq_iff logStr hshort, and_comm]
  constructor
  · intro ⟨hname, hlength⟩
    exact ⟨hlength ▸ hname, hlength⟩
  · intro ⟨hname, hlength⟩
    exact ⟨hlength ▸ hname, hlength⟩

/-- A level is found by its name, up to multiples of 2^32 in the length. -/
theorem logParseLevel_eq_iff (logStr : List UInt8) (level : ℕ) :
    logParseLevel logStr = level ↔ ∃ entry, logLevels[level]? = some entry ∧
      entry.name <+: logStr ∧ logStr.length % 2 ^ 32 = entry.name.length := by
  have hnames : (logLevels.map LogLevel.name).Nodup := by decide
  have hnonempty : ∀ entry ∈ logLevels, entry.name.length ≠ 0 := by decide
  have hminus : ((-1 : ℤ) = level) ↔ False := iff_false_intro (by omega)
  have hmatch {i : ℕ} {entry : LogLevel} (h : logLevels[i]? = some entry) :=
    matches_iff logStr (List.mem_of_getElem? h)
  unfold logParseLevel
  split
  · rename_i hzero
    rw [hminus, false_iff]
    intro ⟨entry, hentry, hfound⟩
    rw [← hmatch hentry, hzero, Bool.and_eq_true, beq_iff_eq] at hfound
    exact hnonempty entry (List.mem_of_getElem? hentry) hfound.1
  · rcases hsearch : logLevels.findIdx? _ with - | i
    · rw [Option.map_none, Option.getD_none, hminus, false_iff]
      intro ⟨entry, hentry, hfound⟩
      rw [List.findIdx?_eq_none_iff] at hsearch
      rw [← hmatch hentry, hsearch entry (List.mem_of_getElem? hentry)] at hfound
      exact Bool.false_ne_true hfound
    · obtain ⟨hi, hp, -⟩ := List.findIdx?_eq_some_iff_getElem.mp hsearch
      have hfirst := List.getElem?_eq_getElem hi
      rw [Option.map_some, Option.getD_some, Int.ofNat_eq_natCast, Int.natCast_inj]
      constructor
      · rintro rfl
        exact ⟨_, hfirst, (hmatch hfirst).mp hp⟩
      · intro ⟨entry, hentry, hfound⟩
        have hq := (hmatch hentry).mpr hfound
        rw [Bool.and_eq_true, beq_iff_eq, beq_iff_eq] at hp hq
        have hlevel := (List.getElem?_eq_some_iff.mp hentry).1
        rw [List.getElem?_eq_getElem hlevel, Option.some_inj] at hentry
        have hi' : i < (logLevels.map LogLevel.name).length := by simpa using hi
        have hlevel' : level < (logLevels.map LogLevel.name).length := by simpa using hlevel
        apply (@List.Nodup.getElem_inj_iff _ _ hnames i hi' level hlevel').mp
        rw [List.getElem_map, List.getElem_map, hentry, hp.2, hq.2]

end

section

variable {w : Window} {errstr : ℕ} {text : List UInt8} {call : LogCall} {level : LogLevel}

end

section

variable {call : LogCall} {level : LogLevel} {logLevel : ℕ}

theorem feed_notMem_signedPadded (width : ℕ) (v : BitVec 32) : 10 ∉ signedPadded 32 width v := by
  have hdigit (d : ℕ) (hd : d < 10) : decimalDigit d ≠ 10 := by
    interval_cases d <;> decide
  have hpadded (n : ℕ) : 10 ∉ padded 32 width n := by
    rw [padded, List.mem_append, not_or]
    refine ⟨fun hmem => absurd (List.eq_of_mem_replicate hmem) (by decide), fun hmem => ?_⟩
    exact forall_mem_numeral (P := (· ≠ 10)) (by decide) hdigit 10 hmem rfl
  unfold signedPadded
  split
  · simp [hpadded]
  · exact hpadded _

theorem feed_notMem_level (hlevel : level ∈ logLevels) : 10 ∉ level.padding ∧ 10 ∉ level.name := by
  revert level
  decide

theorem LogCall.OneLine.errText (h : call.OneLine) : 10 ∉ call.errText := by
  have hnumber := feed_notMem_signedPadded 0 call.err
  have hopen : 10 ∉ bytesOf " (" := by decide
  have hcolon : 10 ∉ bytesOf ": " := by decide
  have hclose : 10 ∉ bytesOf ") " := by decide
  unfold LogCall.errText
  split
  · simp only [List.mem_append, not_or]
    exact ⟨hopen, hnumber, hcolon, h.strerror, hclose⟩
  · decide

/-- No line feed gets into a line but at its end. -/
theorem LogCall.OneLine.line (h : call.OneLine) : 10 ∉ call.line := by
  unfold LogCall.line
  cases hlevel : logLevels[call.level]? with
  | none => exact List.not_mem_nil
  | some level =>
    have htime : 10 ∉ call.timeText := fun hmem => h.time (List.takeWhile_subset _ hmem)
    have hlevels := feed_notMem_level (List.mem_of_getElem? hlevel)
    have hpid := feed_notMem_signedPadded 5 call.pid
    have hobject : 10 ∉ call.objectName := by
      unfold LogCall.objectName
      cases hname : call.object with
      | none => decide
      | some bytes => exact h.object bytes hname
    have hhandler : 10 ∉ call.handler.elim [] Handler.text := by
      cases hadds : call.handler with
      | none => exact List.not_mem_nil
      | some handler => exact h.handler handler hadds
    have hfixed : 10 ∉ bytesOf " [" ∧ 10 ∉ bytesOf "]" ∧ 10 ∉ bytesOf " " ∧ 10 ∉ bytesOf ":" ∧
        10 ∉ [(0 : UInt8)] := by decide
    have hfull : 10 ∉ call.fullText level := by
      simp only [LogCall.fullText, List.mem_append, not_or]
      exact ⟨htime, hfixed.2.2.2.2, hfixed.1, hlevels.1, hlevels.2, hfixed.2.1, hfixed.2.2.1, hpid,
        hfixed.2.2.1, hobject, hfixed.2.2.2.1, h.errText, h.text, hhandler⟩
    exact fun hmem => hfull (List.mem_of_mem_take hmem)

end

end HCore.LogLine
