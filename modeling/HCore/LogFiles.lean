import HCore.PoolDestroy
import HCore.PoolFrames
import Mathlib.Data.List.MinMax

/-!
Log files that belong to a pool. `hcore_create_log` opens a descriptor and
leaves its closing to the pool. Until the pool is destroyed every log keeps its
fields and an open descriptor of its own, whatever else is done with the pool;
its end closes the descriptors of the logs, the newest one first, and no other.
-/

namespace HCore.LogFiles

open Machine LittleEndian CHeap PoolModel

/-- The open descriptors of a process. -/
structure Table where
  fds : List ℕ
  nodup : fds.Nodup
  inRange : ∀ n ∈ fds, n < 2 ^ 31

namespace Table

/-- A descriptor that is not open. -/
def Fresh (table : Table) (n : ℕ) : Prop := n ∉ table.fds ∧ n < 2 ^ 31

/-- A descriptor is opened, unless the system has refused it. -/
def add (table : Table) : Option { n : ℕ // table.Fresh n } → Table
  | none => table
  | some n => ⟨n :: table.fds, List.nodup_cons.mpr ⟨n.2.1, table.nodup⟩,
      List.forall_mem_cons.mpr ⟨n.2.2, table.inRange⟩⟩

/-- `close(fd)`; it fails if `fd` is not open. -/
def close (table : Table) (fd : ℤ) : Table :=
  if fd < 0 then table
  else ⟨table.fds.erase fd.toNat, table.nodup.erase _,
    fun n hn => table.inRange n (List.mem_of_mem_erase hn)⟩

end Table

/-- What the system answers to `dup` and `open`: a descriptor that is not open
yet, or none. -/
structure System where
  dup : ℕ → (table : Table) → Option { n : ℕ // table.Fresh n }
  openFile : List UInt8 → (table : Table) → Option { n : ℕ // table.Fresh n }

structure Task where
  proc : Proc
  table : Table

/-- `sizeof(hcore_log_t)`, and the fields that are set. -/
def logSize : ℕ := 64
def levelOffset : ℕ := 0
def fdOffset : ℕ := 4
def filenameOffset : ℕ := 8
def internalOffset : ℕ := 56

/-- `HCORE_LOG_FILE_STDOUT` and `HCORE_LOG_FILE_STDERR` -/
def fileStdout : List UInt8 := [64, 83, 84, 68, 79, 85, 84]
def fileStderr : List UInt8 := [64, 83, 84, 68, 69, 82, 82]

/-- A descriptor as an `int`. -/
def fdInt {table : Table} : Option { n : ℕ // table.Fresh n } → ℤ
  | none => -1
  | some n => (n : ℕ)

/-- The 32-bit word at `a`. -/
def word32 (mem : ℕ → UInt8) (a : ℕ) : ℕ := decode32 (readAt mem a 4)

/-- `log->fd` -/
def fdAt (mem : ℕ → UInt8) (log : ℕ) : ℤ := toInt32 (word32 mem (log + fdOffset))

/-- The descriptor of a file, or a second one of a standard stream. -/
def descriptor (sys : System) (name : List UInt8) (table : Table) :
    Option { n : ℕ // table.Fresh n } :=
  if name = fileStdout then sys.dup 1 table
  else if name = fileStderr then sys.dup 2 table
  else sys.openFile name table

/-- `internal` -/
def standard (name : List UInt8) : Bool := name = fileStdout || name = fileStderr

/-- `hcore_open_log` of the file `name`, a text at `file`; it answers whether
it returns `HCORE_OK`. -/
def openLog (sys : System) (t : Task) (log file : ℕ) (name : List UInt8) (level : ℤ) :
    Exec (Bool × Task) :=
  if level < 0 ∨ 8 < level then pure (false, t)
  else do
    let fd := descriptor sys name t.table
    -- only the answer of `open` is looked at, not that of `dup`
    if fd.isNone ∧ ¬ standard name then pure (false, t)
    else do
      let heap ← memzero t.proc.heap log logSize
      let heap ← store heap (log + fdOffset) (encode32 (toUInt32 (fdInt fd)))
      let heap ← store heap (log + levelOffset) (encode32 (toUInt32 level))
      let heap ← store heap (log + filenameOffset) (encode64 file)
      let heap ← store heap (log + internalOffset) (encode32 (if standard name then 1 else 0))
      pure (true, ⟨⟨heap, t.proc.log⟩, t.table.add fd⟩)

/-- `hcore_create_log`; `destroy` is the address of `hcore_destroy_log`. -/
def createLog (env : Env) (sys : System) (destroy : ℕ) (t : Task) (pool file : ℕ)
    (name : List UInt8) (level : ℤ) : Exec (ℕ × Task) := do
  let (log, s) ← pcalloc env t.proc pool logSize
  if log = 0 then pure (0, ⟨s, t.table⟩)
  else do
    let (opened, t) ← openLog sys ⟨s, t.table⟩ log file name level
    if ¬ opened then pure (0, t)
    else do
      let (c, s) ← poolCleanupAdd env t.proc pool 0
      -- the descriptor stays open
      if c = 0 then pure (0, ⟨s, t.table⟩)
      else do
        let s ← s.store (c + 8) log
        let s ← s.store c destroy
        pure (log, ⟨s, t.table⟩)

/-- The data of the records whose handler is `hcore_destroy_log`. -/
def closers (destroy : ℕ) (cleanups : List Cleanup) : List ℕ :=
  cleanups.filterMap fun c => if c.handler = destroy then some c.data else none

/-- A log and the fields that `hcore_open_log` sets. -/
structure Log where
  addr : ℕ
  level : ℕ
  fd : ℤ
  filename : ℕ
  internal : Bool
  deriving DecidableEq, Repr

namespace Log

def range (l : Log) : Range := ⟨l.addr, logSize⟩

/-- What the memory says of the log at an address. -/
def ofMem (mem : ℕ → UInt8) (a : ℕ) : Log :=
  ⟨a, word32 mem (a + levelOffset), fdAt mem a, wordAt mem (a + filenameOffset),
    word32 mem (a + internalOffset) % 2 = 1⟩

end Log

/-- What the callers do: calls to the pool, logs, and files of their own. -/
inductive Op
  | call (c : Call)
  | createLog (file : ℕ) (name : List UInt8) (level : ℤ)
  | openFile (name : List UInt8)
  | close (fd : ℕ)

/-- The process, what the callers hold of the pool, and its logs, the newest first. -/
structure World where
  task : Task
  cl : Client
  logs : List Log

/-- The record that is set has another handler than `hcore_destroy_log`, before and after. -/
def OtherHandler (destroy : ℕ) (cleanups : List Cleanup) : Call → Prop
  | .alloc _ => True
  | .calloc _ => True
  | .resize _ _ => True
  | .free _ => True
  | .addCleanup _ => True
  | .setCleanup a handler _ => handler ≠ destroy ∧
      ∀ k ∈ cleanups, k.addr = a → k.handler ≠ destroy
  | .write _ _ _ => True

namespace Op

def run (env : Env) (sys : System) (destroy pool : ℕ) (t : Task) : Op → Exec (ℕ × Task)
  | call c => do
    let (p, s) ← c.run env pool t.proc
    pure (p, ⟨s, t.table⟩)
  | createLog file name level => LogFiles.createLog env sys destroy t pool file name level
  | openFile name => pure (0, ⟨t.proc, t.table.add (sys.openFile name t.table)⟩)
  | close fd => pure (0, ⟨t.proc, t.table.close fd⟩)

/-- The callers leave the logs to the pool: they pass no log to it, set no
handler of a log, and close no descriptor of a log. -/
def Valid (destroy : ℕ) (w : World) : Op → Prop
  | call c => c.Valid w.cl ∧ OtherHandler destroy w.cl.cleanups c ∧
      ∀ l ∈ w.logs, l.addr ≠ c.target
  | createLog file _ _ => file < 2 ^ 64
  | openFile _ => True
  | close fd => ∀ l ∈ w.logs, l.fd ≠ fd

/-- The pool needs no second block for it. -/
def Fits (env : Env) (sys : System) (pool : ℕ) (t : Task) : Op → Prop
  | call c => c.FitsBlock env pool t.proc
  | createLog file name level => FindsRoom env t.proc pool logSize ∧
      ∀ log s t', pcalloc env t.proc pool logSize = Except.ok (log, s) →
        openLog sys ⟨s, t.table⟩ log file name level = Except.ok (true, t') →
          FindsRoom env t'.proc pool cleanupSize
  | openFile _ => True
  | close _ => True

/-- After the answer `p`. -/
def after (destroy pool : ℕ) (w : World) (t : Task) (p : ℕ) : Op → World
  | call c => ⟨t, c.after w.cl t.proc p, w.logs⟩
  | createLog _ _ _ =>
    if p = 0 then ⟨t, w.cl, w.logs⟩
    else ⟨t, ⟨⟨p, logSize⟩ :: w.cl.user,
      ⟨wordAt t.proc.heap.mem (pool + cleanupOffset), destroy, p⟩ :: w.cl.cleanups⟩,
      Log.ofMem t.proc.heap.mem p :: w.logs⟩
  | openFile _ => ⟨t, w.cl, w.logs⟩
  | close _ => ⟨t, w.cl, w.logs⟩

/-- A log that is made is set up as it was asked for. -/
def Answers (sys : System) (t t' : Task) (p : ℕ) : Op → Prop
  | call _ => t'.table = t.table
  | createLog file name level =>
    let fd := descriptor sys name t.table
    p ≠ 0 → Log.ofMem t'.proc.heap.mem p = ⟨p, level.toNat, fdInt fd, file, standard name⟩ ∧
      t'.table = t.table.add fd
  | openFile _ => True
  | close _ => True

end Op

/-- A run on a pool that `hcore_create_pool` has made. -/
inductive Run (env : Env) (sys : System) (destroy pool : ℕ) : World → Prop
  | create {t : Task} {s : Proc} {size : ℕ} (hsize : poolSize ≤ size) (hlog : t.proc.log = [])
      (hrun : createPool env t.proc size = Except.ok (pool, s)) (hpool : pool ≠ 0) :
      Run env sys destroy pool ⟨⟨s, t.table⟩, ⟨[], []⟩, []⟩
  | step {w : World} {t : Task} {p : ℕ} (op : Op) (hrun : Run env sys destroy pool w)
      (hvalid : op.Valid destroy w) (hfits : op.Fits env sys pool w.task)
      (hop : op.run env sys destroy pool w.task = Except.ok (p, t)) :
      Run env sys destroy pool (op.after destroy pool w t p)

/-- The logs of a pool with one block, which have its descriptors and handlers. -/
structure Sound (destroy pool : ℕ) (w : World) : Prop where
  holds : ∃ b last max records, b.addr = pool ∧ Holds w.task.proc b last max w.cl records
  held : ∀ l ∈ w.logs, l.range ∈ w.cl.user
  stored : ∀ l ∈ w.logs, Log.ofMem w.task.proc.heap.mem l.addr = l
  handlers : closers destroy w.cl.cleanups = w.logs.map Log.addr
  opened : ∀ l ∈ w.logs, l.fd = -1 ∨ ∃ n ∈ w.task.table.fds, l.fd = (n : ℕ)
  distinct : w.logs.Pairwise fun l k => l.fd = k.fd → l.fd = -1

section

variable {env : Env} {sys : System} {destroy pool a v : ℕ} {t t' : Task} {s s' : Proc} {b : Block}
  {last max n p log file : ℕ} {cl : Client} {records : List Record} {name : List UInt8} {level : ℤ}
  {table : Table} {mem mem' : ℕ → UInt8} {bytes : List UInt8} {l : Log} {w : World}

theorem fdInt_range (fd : Option { n : ℕ // table.Fresh n }) :
    -1 ≤ fdInt fd ∧ fdInt fd < 2 ^ 31 := by
  cases fd with
  | none =>
    show (-1 : ℤ) ≤ -1 ∧ (-1 : ℤ) < 2 ^ 31
    omega
  | some n =>
    have hlt := n.2.2
    show (-1 : ℤ) ≤ ((n : ℕ) : ℤ) ∧ ((n : ℕ) : ℤ) < 2 ^ 31
    omega

theorem word32_same (hv : v < 2 ^ 32) : word32 (writeAt mem a (encode32 v)) a = v := by
  have hread : readAt (writeAt mem a (encode32 v)) a 4 = encode32 v := readAt_writeAt
  rw [word32, hread, decode32_of_lt hv]

theorem word32_congr (h : ∀ i < 4, mem' (a + i) = mem (a + i)) : word32 mem' a = word32 mem a := by
  rw [word32, word32, readAt_congr h]

theorem word32_kept {k : ℕ} (h : Keeps mem mem' a n) (hk : k + 4 ≤ n) :
    word32 mem' (a + k) = word32 mem (a + k) :=
  word32_congr fun i hi => h _ (by omega) (by omega)

/-- Another field of what lies at `a`. -/
theorem word32_other {j k : ℕ} (h : k + 4 ≤ j ∨ j + bytes.length ≤ k) :
    word32 (writeAt mem (a + j) bytes) (a + k) = word32 mem (a + k) :=
  word32_congr fun i hi => writeAt_other (by omega)

theorem toInt32_toUInt32 {x : ℤ} (hlow : -2 ^ 31 ≤ x) (hhigh : x < 2 ^ 31) :
    toInt32 (toUInt32 x) = x := by
  have hcast : ((toUInt32 x : ℕ) : ℤ) = x % ((2 ^ 32 : ℕ) : ℤ) := by
    unfold toUInt32
    omega
  rw [hcast, toInt32, Int.emod_bmod]
  exact toInt32_of_range hlow hhigh

/-- A log that is not written keeps its fields. -/
theorem Log.ofMem_congr (h : Range.Kept mem mem' ⟨a, logSize⟩) :
    Log.ofMem mem' a = Log.ofMem mem a := by
  unfold ofMem fdAt
  rw [word32_kept h (by decide : levelOffset + 4 ≤ logSize),
    word32_kept h (by decide : fdOffset + 4 ≤ logSize),
    word32_kept h (by decide : internalOffset + 4 ≤ logSize),
    Keeps.word h (by decide : filenameOffset + 8 ≤ logSize)]

/-- The fields of a log after they have been stored. -/
theorem Log.ofMem_stored (mem : ℕ → UInt8) (fd : Option { n : ℕ // table.Fresh n })
    (hlevel : ¬ (level < 0 ∨ 8 < level)) (hfile : file < 2 ^ 64) :
    Log.ofMem (writeAt (writeAt (writeAt (writeAt mem (a + fdOffset)
      (encode32 (toUInt32 (fdInt fd)))) (a + levelOffset) (encode32 (toUInt32 level)))
      (a + filenameOffset) (encode64 file)) (a + internalOffset)
      (encode32 (if standard name then 1 else 0))) a =
      ⟨a, level.toNat, fdInt fd, file, standard name⟩ := by
  obtain ⟨hlow, hhigh⟩ := fdInt_range fd
  have hnumber : toUInt32 level = level.toNat := by
    unfold toUInt32
    omega
  set mem₁ := writeAt mem (a + fdOffset) (encode32 (toUInt32 (fdInt fd))) with hmem₁
  set mem₂ := writeAt mem₁ (a + levelOffset) (encode32 (toUInt32 level)) with hmem₂
  set mem₃ := writeAt mem₂ (a + filenameOffset) (encode64 file) with hmem₃
  set bit := if standard name then 1 else 0 with hbit
  set mem₄ := writeAt mem₃ (a + internalOffset) (encode32 bit) with hmem₄
  have hstored : word32 mem₄ (a + levelOffset) = level.toNat := by
    rw [hmem₄, word32_other (Or.inl (by decide)), hmem₃,
      word32_other (Or.inl (by decide)), hmem₂,
      word32_same (toUInt32_lt level), hnumber]
  have hfd : fdAt mem₄ a = fdInt fd := by
    rw [fdAt, hmem₄, word32_other (Or.inl (by decide)), hmem₃,
      word32_other (Or.inl (by decide)), hmem₂,
      word32_other (Or.inr (by decide : levelOffset + 4 ≤ fdOffset)), hmem₁,
      word32_same (toUInt32_lt _), toInt32_toUInt32 (by omega) hhigh]
  have hname : wordAt mem₄ (a + filenameOffset) = file := by
    have hbefore : a + filenameOffset + 8 ≤ a + internalOffset :=
      Nat.add_le_add_left (by decide : filenameOffset + 8 ≤ internalOffset) a
    rw [hmem₄, wordAt_other (Or.inl hbefore), hmem₃, wordAt_same hfile]
  have hinternal : word32 mem₄ (a + internalOffset) = bit := by
    apply word32_same
    rw [hbit]
    split <;> decide
  rw [ofMem, hstored, hfd, hname, hinternal, hbit]
  cases standard name
  all_goals rfl

/-- A field of a log is stored. -/
theorem store_field (h : Holds s b last max cl records)
    (hlog : (⟨log, logSize⟩ : Range) ∈ cl.user) {k : ℕ} (bytes : List UInt8)
    (hk : k + bytes.length ≤ logSize) :
    store s.heap (log + k) bytes =
        Except.ok (s.heap.withMem (writeAt s.heap.mem (log + k) bytes)) ∧
      Holds ⟨s.heap.withMem (writeAt s.heap.mem (log + k) bytes), s.log⟩ b last max cl records ∧
      ∀ y : Range, y.Apart ⟨log, logSize⟩ →
        y.Kept s.heap.mem (writeAt s.heap.mem (log + k) bytes) := by
  refine h.write hlog (Nat.le_add_right log k) ?_
  rw [Nat.add_assoc]
  exact Nat.add_le_add_left hk log

/-- `hcore_open_log` writes the log and nothing else. -/
theorem openLog_spec (sys : System) (t : Task) (name : List UInt8) (level : ℤ) (h : Holds t.proc b last max cl records)
    (hlog : (⟨log, logSize⟩ : Range) ∈ cl.user) (hfile : file < 2 ^ 64) :
    ∃ opened t', openLog sys t log file name level = Except.ok (opened, t') ∧
      Holds t'.proc b last max cl records ∧
      (∀ y : Range, y.Apart ⟨log, logSize⟩ → y.Kept t.proc.heap.mem t'.proc.heap.mem) ∧
      t'.table = (if opened then t.table.add (descriptor sys name t.table) else t.table) ∧
      (opened = true → Log.ofMem t'.proc.heap.mem log =
        ⟨log, level.toNat, fdInt (descriptor sys name t.table), file, standard name⟩) := by
  unfold openLog
  by_cases hlevel : level < 0 ∨ 8 < level
  · rw [if_pos hlevel]
    exact ⟨false, t, rfl, h, fun y _ => Keeps.refl _ _ _, rfl, fun hopened => by cases hopened⟩
  · rw [if_neg hlevel]
    dsimp only
    by_cases hfail : (descriptor sys name t.table).isNone ∧ ¬ standard name
    · rw [if_pos hfail]
      exact ⟨false, t, rfl, h, fun y _ => Keeps.refl _ _ _, rfl, fun hopened => by cases hopened⟩
    · rw [if_neg hfail]
      set fd := descriptor sys name t.table with hfd
      obtain ⟨hstore₁, h₁, hkept₁⟩ := store_field h hlog (k := 0) (List.replicate logSize 0)
        (by rw [List.length_replicate, Nat.zero_add])
      obtain ⟨hstore₂, h₂, hkept₂⟩ := store_field h₁ hlog (encode32 (toUInt32 (fdInt fd)))
        (by decide : fdOffset + 4 ≤ logSize)
      obtain ⟨hstore₃, h₃, hkept₃⟩ := store_field h₂ hlog (encode32 (toUInt32 level))
        (by decide : levelOffset + 4 ≤ logSize)
      obtain ⟨hstore₄, h₄, hkept₄⟩ := store_field h₃ hlog (encode64 file)
        (by decide : filenameOffset + 8 ≤ logSize)
      obtain ⟨hstore₅, h₅, hkept₅⟩ := store_field h₄ hlog
        (encode32 (if standard name then 1 else 0)) (by decide : internalOffset + 4 ≤ logSize)
      refine ⟨true, _, bind_of_ok hstore₁ (bind_of_ok hstore₂ (bind_of_ok hstore₃
        (bind_of_ok hstore₄ (bind_of_ok hstore₅ rfl)))), h₅, fun y hy => ?_, rfl, fun _ => ?_⟩
      · exact Keeps.trans (hkept₁ y hy) (Keeps.trans (hkept₂ y hy)
          (Keeps.trans (hkept₃ y hy) (Keeps.trans (hkept₄ y hy) (hkept₅ y hy))))
      · exact Log.ofMem_stored _ fd hlevel hfile

/-- The record of a log is added, and its handler is set. -/
theorem register_log (h : Holds s b last max cl records) (hroom : FindsRoom env s b.addr cleanupSize)
    (hlog : log < 2 ^ 64) (hdestroy : destroy < 2 ^ 64) :
    ∃ c s₁, poolCleanupAdd env s b.addr 0 = Except.ok (c, s₁) ∧
      (∀ x ∈ cl.user, x.Kept s.heap.mem s₁.heap.mem) ∧
      (c = 0 ∧ (∃ last' records', Holds s₁ b last' max cl records') ∨
        c ≠ 0 ∧ ∃ s₂ s₃, s₁.store (c + 8) log = Except.ok s₂ ∧ s₂.store c destroy = Except.ok s₃ ∧
          (∀ x ∈ cl.user, x.Kept s.heap.mem s₃.heap.mem) ∧
          ∃ last' records',
            Holds s₃ b last' max ⟨cl.user, ⟨c, destroy, log⟩ :: cl.cleanups⟩ records') := by
  have hfits : CleanupFindsRoom env s b.addr 0 := ⟨hroom, fun _ _ hne => absurd rfl hne⟩
  obtain ⟨c, s₁, last', records', hrun, h₁⟩ := h.cleanupAdd_holds hfits
  have hkept : ∀ x ∈ cl.user, x.Kept s.heap.mem s₁.heap.mem :=
    fun x hx => h.cleanupAdd_kept hfits hx hrun
  refine ⟨c, s₁, hrun, hkept, ?_⟩
  by_cases hc : c = 0
  · rw [Client.addCleanup, if_pos hc] at h₁
    exact Or.inl ⟨hc, last', records', h₁⟩
  · rw [Client.addCleanup, if_neg hc, if_pos rfl] at h₁
    set data := wordAt s₁.heap.mem (c + 8) with hdata
    have hmem : (⟨c, 0, data⟩ : Cleanup) ∈ (⟨c, 0, data⟩ :: cl.cleanups) := List.mem_cons_self
    have hown : s₁.heap.Owns c cleanupSize := h₁.layout.owns (Structured.cleanup_mem hmem)
    obtain ⟨-, hcleanups, hcross⟩ := List.pairwise_append.mp h₁.layout.apart
    obtain ⟨hothers, -⟩ := List.pairwise_cons.mp hcleanups
    -- no other record lies at `c`
    have hset : (⟨c, 0, data⟩ :: cl.cleanups).map (Cleanup.setAt c destroy log) =
        ⟨c, destroy, log⟩ :: cl.cleanups := by
      have hrest : cl.cleanups.map (Cleanup.setAt c destroy log) = cl.cleanups := by
        refine (List.map_congr_left fun k hk => ?_).trans (List.map_id _)
        have hapart : (Cleanup.range ⟨c, 0, data⟩).Apart k.range :=
          hothers k.range (List.mem_map_of_mem hk)
        unfold Range.Apart Cleanup.range cleanupSize at hapart
        dsimp only at hapart
        exact if_neg (by omega)
      rw [List.map_cons, hrest, Cleanup.setAt, if_pos rfl]
    obtain ⟨s₂, s₃, hstore₂, hstore₃, h₃⟩ := h₁.setCleanup hmem hdestroy hlog
    rw [Proc.eq_put hstore₃, Proc.eq_put hstore₂, put_comm s₁ destroy log (Or.inl (le_refl _)),
      Client.setCleanup, hset] at h₃
    refine Or.inr ⟨hc, s₁.put (c + 8) log, (s₁.put (c + 8) log).put c destroy, ?_, ?_,
      fun x hx => ?_, last', records', h₃⟩
    · exact Proc.store_of_owns (hown.mono (Nat.le_add_right c 8)
        (Nat.add_le_add_left (by decide : 8 + 8 ≤ cleanupSize) c))
    · exact Proc.store_of_owns (hown.mono (le_refl c)
        (Nat.add_le_add_left (by decide : 8 ≤ cleanupSize) c))
    · have hrecord : x.Apart (Cleanup.range ⟨c, 0, data⟩) :=
        hcross x hx _ (List.mem_map_of_mem hmem)
      exact Keeps.trans (hkept x hx) (Keeps.trans
        (hrecord.kept_put (Nat.le_add_right c 8)
          (Nat.add_le_add_left (by decide : 8 + 8 ≤ cleanupSize) c))
        (hrecord.kept_put (le_refl c) (Nat.add_le_add_left (by decide : 8 ≤ cleanupSize) c)))

/-- A log that is made belongs to the pool, with its record. -/
structure Made (sys : System) (destroy pool : ℕ) (t t' : Task) (cl : Client) (p file : ℕ)
    (name : List UInt8) (level : ℤ) : Prop where
  pos : p ≠ 0
  stored : Log.ofMem t'.proc.heap.mem p =
    ⟨p, level.toNat, fdInt (descriptor sys name t.table), file, standard name⟩
  table : t'.table = t.table.add (descriptor sys name t.table)
  holds : ∃ b last max records, b.addr = pool ∧ Holds t'.proc b last max ⟨⟨p, logSize⟩ :: cl.user,
    ⟨wordAt t'.proc.heap.mem (pool + cleanupOffset), destroy, p⟩ :: cl.cleanups⟩ records

/-- No log is made; its descriptor may stay open. -/
structure Refused (sys : System) (pool : ℕ) (t t' : Task) (cl : Client) (p : ℕ)
    (name : List UInt8) : Prop where
  zero : p = 0
  table : t'.table = t.table ∨ t'.table = t.table.add (descriptor sys name t.table)
  holds : ∃ b last max records, b.addr = pool ∧ Holds t'.proc b last max cl records

/-- `hcore_create_log` makes a log or refuses, and leaves the blocks of the callers alone. -/
theorem createLog_spec (h : Holds t.proc b last max cl records) (hfile : file < 2 ^ 64)
    (hdestroy : destroy < 2 ^ 64)
    (hfits : (Op.createLog file name level).Fits env sys b.addr t) :
    ∃ p t', createLog env sys destroy t b.addr file name level = Except.ok (p, t') ∧
      (∀ x ∈ cl.user, x.Kept t.proc.heap.mem t'.proc.heap.mem) ∧
      (Refused sys b.addr t t' cl p name ∨
        Made sys destroy b.addr t t' cl p file name level) := by
  obtain ⟨hroom, hroom'⟩ := hfits
  obtain ⟨p, s₁, last₁, records₁, hrun₁, h₁, hkept₁, -⟩ := h.pcalloc_cleared hroom
  have huser₁ : ∀ x ∈ cl.user, x.Kept t.proc.heap.mem s₁.heap.mem :=
    fun x hx => hkept₁ x (List.mem_append_left _ hx)
  unfold createLog
  rw [hrun₁, ok_bind]
  dsimp only
  by_cases hp : p = 0
  · rw [hp, Client.grant_zero] at h₁
    rw [if_pos hp]
    exact ⟨0, _, rfl, huser₁, Or.inl ⟨rfl, Or.inl rfl, b, last₁, max, records₁, rfl, h₁⟩⟩
  rw [Client.grant_of_ne hp] at h₁
  have hnew : (⟨p, logSize⟩ : Range) ∈ (⟨p, logSize⟩ :: cl.user) := List.mem_cons_self
  have hplog : p < 2 ^ 64 := (Nat.le_add_right p logSize).trans_lt
    (h₁.layout.item_lt (List.mem_append_left _ hnew))
  obtain ⟨hapart, -⟩ := List.pairwise_cons.mp h₁.layout.apart
  rw [if_neg hp]
  obtain ⟨opened, t₂, hrun₂, h₂, hkept₂, htable, hstored⟩ :=
    openLog_spec sys ⟨s₁, t.table⟩ name level h₁ hnew hfile
  have huser₂ : ∀ x ∈ cl.user, x.Kept t.proc.heap.mem t₂.proc.heap.mem := fun x hx =>
    Keeps.trans (huser₁ x hx) (hkept₂ x (hapart x (List.mem_append_left _ hx)).symm)
  rw [hrun₂, ok_bind]
  dsimp only
  cases opened with
  | false =>
    exact ⟨0, t₂, rfl, huser₂, Or.inl ⟨rfl, Or.inl htable, b, last₁, max, records₁, rfl, h₂.drop⟩⟩
  | true =>
    rw [if_neg (not_not_intro rfl)]
    obtain ⟨c, s₃, hrun₃, hkept₃, hcase⟩ :=
      register_log h₂ (hroom' p s₁ t₂ hrun₁ hrun₂) hplog hdestroy
    have huser₃ : ∀ x ∈ cl.user, x.Kept t.proc.heap.mem s₃.heap.mem := fun x hx =>
      Keeps.trans (huser₂ x hx) (hkept₃ x (List.mem_cons_of_mem _ hx))
    rw [hrun₃, ok_bind]
    dsimp only
    rcases hcase with ⟨hc, last₃, records₃, h₃⟩ |
      ⟨hc, s₄, s₅, hstore₄, hstore₅, hkept₅, last₅, records₅, h₅⟩
    · rw [if_pos hc]
      exact ⟨0, _, rfl, huser₃, Or.inl ⟨rfl, Or.inr htable, b, last₃, max, records₃, rfl, h₃.drop⟩⟩
    · have hhead : wordAt s₅.heap.mem (b.addr + cleanupOffset) = c := h₅.words.cleanup.1
      rw [if_neg hc]
      refine ⟨p, ⟨s₅, t₂.table⟩, bind_of_ok hstore₄ (bind_of_ok hstore₅ rfl), fun x hx => ?_,
        Or.inr ⟨hp, ?_, htable, b, last₅, max, records₅, rfl, ?_⟩⟩
      · exact Keeps.trans (huser₂ x hx) (hkept₅ x (List.mem_cons_of_mem _ hx))
      · have hlog : Range.Kept t₂.proc.heap.mem s₅.heap.mem ⟨p, logSize⟩ := hkept₅ _ hnew
        exact (Log.ofMem_congr hlog).trans (hstored rfl)
      · rwa [hhead]

theorem Table.subset_add (fd : Option { n : ℕ // table.Fresh n }) (hn : n ∈ table.fds) :
    n ∈ (table.add fd).fds := by
  cases fd with
  | none => exact hn
  | some m => exact List.mem_cons_of_mem _ hn

theorem Table.mem_close {fd : ℤ} :
    n ∈ (table.close fd).fds ↔ n ∈ table.fds ∧ (n : ℤ) ≠ fd := by
  unfold close
  split
  · next hneg =>
    refine (and_iff_left ?_).symm
    omega
  · next hpos =>
    show n ∈ table.fds.erase fd.toNat ↔ _
    rw [table.nodup.mem_erase_iff, and_comm]
    refine and_congr_right fun _ => not_congr ?_
    omega

theorem closers_cons {c : Cleanup} {cleanups : List Cleanup} (h : c.handler = destroy) :
    closers destroy (c :: cleanups) = c.data :: closers destroy cleanups :=
  List.filterMap_cons_some (if_pos h)

theorem closers_cons_other {c : Cleanup} {cleanups : List Cleanup} (h : c.handler ≠ destroy) :
    closers destroy (c :: cleanups) = closers destroy cleanups :=
  List.filterMap_cons_none (if_neg h)

/-- A call of the callers does not change which handlers close logs. -/
theorem call_handlers (hzero : destroy ≠ 0) {call : Call}
    (hother : OtherHandler destroy cl.cleanups call) :
    closers destroy (call.after cl s' p).cleanups = closers destroy cl.cleanups := by
  cases call with
  | alloc n => exact congrArg (closers destroy) Client.grant_cleanups
  | calloc n => exact congrArg (closers destroy) Client.grant_cleanups
  | resize x n =>
    refine congrArg (closers destroy) (?_ : (cl.resize x n p).cleanups = cl.cleanups)
    unfold Client.resize
    split
    · exact Client.grant_cleanups
    · split
      · rfl
      · split <;> rfl
  | free x => rfl
  | addCleanup n =>
    show closers destroy (cl.addCleanup n p _).cleanups = _
    unfold Client.addCleanup
    split
    · rfl
    · exact closers_cons_other hzero.symm
  | setCleanup a handler data =>
    obtain ⟨hhandler, hrecord⟩ := hother
    show closers destroy (cl.cleanups.map (Cleanup.setAt a handler data)) = _
    unfold closers
    rw [List.filterMap_map]
    refine List.filterMap_congr fun k hk => ?_
    rw [Function.comp_apply, Cleanup.setAt]
    split
    · next haddr => exact (if_neg (hrecord k hk haddr)).symm
    · rfl
  | write x i v => rfl

namespace Sound

theorem create (hsize : poolSize ≤ n) (hlog : t.proc.log = [])
    (hrun : createPool env t.proc n = Except.ok (pool, s)) (hpool : pool ≠ 0) :
    Sound destroy pool ⟨⟨s, t.table⟩, ⟨[], []⟩, []⟩ := by
  obtain ⟨b, max, hb, h⟩ := createPool_holds hsize hlog hrun hpool
  exact {
    holds := ⟨b, _, max, [], hb, h⟩
    held := fun l hl => absurd hl List.not_mem_nil
    stored := fun l hl => absurd hl List.not_mem_nil
    handlers := rfl
    opened := fun l hl => absurd hl List.not_mem_nil
    distinct := List.Pairwise.nil }

/-- What leaves the logs alone. -/
theorem frame (h : Sound destroy pool w)
    (hholds : ∃ b last max records, b.addr = pool ∧ Holds t'.proc b last max cl records)
    (hkept : ∀ l ∈ w.logs, l.range.Kept w.task.proc.heap.mem t'.proc.heap.mem ∧ l.range ∈ cl.user)
    (hhandlers : closers destroy cl.cleanups = closers destroy w.cl.cleanups)
    (hopen : ∀ l ∈ w.logs, ∀ n ∈ w.task.table.fds, l.fd = (n : ℕ) → n ∈ t'.table.fds) :
    Sound destroy pool ⟨t', cl, w.logs⟩ where
  holds := hholds
  held := fun l hl => (hkept l hl).2
  stored := fun l hl => (Log.ofMem_congr (hkept l hl).1).trans (h.stored l hl)
  handlers := hhandlers.trans h.handlers
  opened := by
    intro l hl
    refine (h.opened l hl).imp_right ?_
    rintro ⟨n, hn, hfd⟩
    exact ⟨n, hopen l hl n hn hfd, hfd⟩
  distinct := h.distinct

/-- A log that is made joins the others. -/
theorem made (h : Sound destroy pool w) (hmade : Made sys destroy pool w.task t' w.cl p file name level)
    (hkept : ∀ x ∈ w.cl.user, x.Kept w.task.proc.heap.mem t'.proc.heap.mem) :
    Sound destroy pool ((Op.createLog file name level).after destroy pool w t' p) := by
  have hafter : (Op.createLog file name level).after destroy pool w t' p =
      ⟨t', ⟨⟨p, logSize⟩ :: w.cl.user,
        ⟨wordAt t'.proc.heap.mem (pool + cleanupOffset), destroy, p⟩ :: w.cl.cleanups⟩,
        Log.ofMem t'.proc.heap.mem p :: w.logs⟩ := if_neg hmade.pos
  rw [hafter]
  set fd := descriptor sys name w.task.table with hfd
  have hnew : (Log.ofMem t'.proc.heap.mem p).fd = fdInt fd := by rw [hmade.stored]
  have hold : ∀ l ∈ w.logs, l.fd = -1 ∨ ∃ n ∈ t'.table.fds, l.fd = (n : ℕ) := by
    intro l hl
    refine (h.opened l hl).imp_right ?_
    rintro ⟨n, hn, hl⟩
    refine ⟨n, ?_, hl⟩
    rw [hmade.table]
    exact Table.subset_add fd hn
  exact {
    holds := hmade.holds
    held := List.forall_mem_cons.mpr
      ⟨List.mem_cons_self, fun l hl => List.mem_cons_of_mem _ (h.held l hl)⟩
    stored := List.forall_mem_cons.mpr
      ⟨rfl, fun l hl => (Log.ofMem_congr (hkept l.range (h.held l hl))).trans (h.stored l hl)⟩
    handlers := (closers_cons rfl).trans (congrArg (List.cons p) h.handlers)
    opened := by
      refine List.forall_mem_cons.mpr ⟨?_, hold⟩
      rw [hnew, hmade.table, ← hfd]
      cases fd with
      | none => exact Or.inl rfl
      | some m => exact Or.inr ⟨m, List.mem_cons_self, rfl⟩
    distinct := by
      refine List.pairwise_cons.mpr ⟨fun l hl heq => ?_, h.distinct⟩
      rw [hnew] at heq ⊢
      cases hcase : fd with
      | none => rfl
      | some m =>
        -- the descriptor of an older log was open already
        rw [hcase] at heq
        rcases h.opened l hl with hnone | ⟨n, hn, hl⟩
        · have hneg : ((m : ℕ) : ℤ) = -1 := heq.trans hnone
          omega
        · have hsame : ((m : ℕ) : ℤ) = (n : ℕ) := heq.trans hl
          have hmn : (m : ℕ) = n := by omega
          exact absurd (hmn ▸ hn) m.2.1 }

/-- Every valid operation that fits the block of the pool is served, and keeps the logs. -/
theorem serves (h : Sound destroy pool w) (hzero : destroy ≠ 0) (hdestroy : destroy < 2 ^ 64)
    {op : Op} (hvalid : op.Valid destroy w) (hfits : op.Fits env sys pool w.task) :
    ∃ p t', op.run env sys destroy pool w.task = Except.ok (p, t') ∧
      Sound destroy pool (op.after destroy pool w t' p) ∧ op.Answers sys w.task t' p := by
  obtain ⟨b, last, max, records, rfl, hholds⟩ := h.holds
  cases op with
  | call c =>
    obtain ⟨hcall, hother, htarget⟩ := hvalid
    obtain ⟨p, s', last', records', hrun, h', -⟩ := hholds.serves hcall hfits
    refine ⟨p, ⟨s', w.task.table⟩, bind_of_ok hrun rfl, ?_, rfl⟩
    refine h.frame ⟨b, last', max, records', rfl, h'⟩ (fun l hl => ?_) (call_handlers hzero hother)
      fun l hl n hn _ => hn
    exact hholds.call_kept hcall hfits (h.held l hl) (htarget l hl) hrun
  | createLog file name level =>
    obtain ⟨p, t', hrun, hkept, hcase⟩ := createLog_spec hholds hvalid hdestroy hfits
    refine ⟨p, t', hrun, ?_, fun hp => ?_⟩
    · rcases hcase with hrefused | hmade
      · have hafter : (Op.createLog file name level).after destroy b.addr w t' p =
            ⟨t', w.cl, w.logs⟩ := if_pos hrefused.zero
        rw [hafter]
        refine h.frame hrefused.holds (fun l hl => ⟨hkept _ (h.held l hl), h.held l hl⟩) rfl ?_
        intro l hl n hn _
        rcases hrefused.table with htable | htable
        · rwa [htable]
        · rw [htable]
          exact Table.subset_add _ hn
      · exact h.made hmade hkept
    · rcases hcase with hrefused | hmade
      · exact absurd hrefused.zero hp
      · exact ⟨hmade.stored, hmade.table⟩
  | openFile name =>
    refine ⟨0, _, rfl, h.frame h.holds (fun l hl => ⟨Keeps.refl _ _ _, h.held l hl⟩) rfl ?_, trivial⟩
    exact fun l hl n hn _ => Table.subset_add _ hn
  | close fd =>
    refine ⟨0, _, rfl, h.frame h.holds (fun l hl => ⟨Keeps.refl _ _ _, h.held l hl⟩) rfl ?_, trivial⟩
    intro l hl n hn hfd
    refine Table.mem_close.mpr ⟨hn, fun heq => hvalid l hl (hfd.trans heq)⟩

end Sound

theorem Run.sound (h : Run env sys destroy pool w) (hzero : destroy ≠ 0)
    (hdestroy : destroy < 2 ^ 64) : Sound destroy pool w := by
  induction h with
  | create hsize hlog hrun hpool => exact .create hsize hlog hrun hpool
  | step op _ hvalid hfits hop ih =>
    obtain ⟨p, t', hrun, hsound, -⟩ := ih.serves hzero hdestroy hvalid hfits
    cases hrun.symm.trans hop
    exact hsound

end

/-- The descriptor above all that are open. -/
def above (table : Table) : Option { n : ℕ // table.Fresh n } :=
  if h : table.fds.foldr max 0 + 1 < 2 ^ 31 then
    some ⟨table.fds.foldr max 0 + 1, fun hmem => by
      have hle := List.le_max_of_le' 0 hmem (le_refl _)
      omega, h⟩
  else none

def nextSystem : System := ⟨fun _ table => above table, fun _ table => above table⟩

end HCore.LogFiles
