import HCore.LogFiles

/-!
The life of a connection. `hcore_create_connection` makes a pool and puts the
connection, its events and a copy of the log into it. Whatever is done with that
pool afterwards, `hcore_destroy_connection` closes the descriptor, unless it is
shared, and gives back all that the connection has obtained.
-/

namespace HCore.ConnectionLife

open Machine LittleEndian CHeap PoolModel LogFiles

/-- `HCORE_POOL_SIZE_DEFAULT` -/
def poolSizeDefault : ℕ := 16 * 1024

/-- `sizeof(struct hcore_connection_s)` and `sizeof(hcore_event_t)` -/
def connectionSize : ℕ := 144
def eventSize : ℕ := 80

/-- Fields of `struct hcore_connection_s`; `shared` is a bit. -/
def fdField : ℕ := 0
def revField : ℕ := 56
def wevField : ℕ := 64
def poolField : ℕ := 72
def logField : ℕ := 80
def sharedField : ℕ := 136

/-- `event->data` -/
def dataField : ℕ := 16

/-- The 32-bit word at `a`. -/
def load32 (s : Proc) (a : ℕ) : Exec ℕ :=
  if s.heap.Owns a 4 then pure (word32 s.heap.mem a) else undefined

def store32 (s : Proc) (a v : ℕ) : Exec Proc := do
  let heap ← store s.heap a (encode32 v)
  pure { s with heap }

/-- An event that belongs to the connection `c`; NULL if there is no room. -/
def allocEvent (env : Env) (s : Proc) (pool c : ℕ) : Exec (ℕ × Proc) := do
  let (event, s) ← pnalloc env s pool eventSize
  if event = 0 then pure (0, s)
  else do
    let heap ← memzero s.heap event eventSize
    let s ← Proc.store ⟨heap, s.log⟩ (event + dataField) c
    pure (event, s)

/-- `goto failed` -/
def failed (env : Env) (s : Proc) (pool : ℕ) : Exec (ℕ × Proc) := do
  let s ← destroyPool env s pool
  pure (0, s)

/-- `hcore_create_connection` -/
def createConnection (env : Env) (s : Proc) (log : ℕ) (fd : ℤ) : Exec (ℕ × Proc) := do
  let (pool, s) ← createPool env s poolSizeDefault
  if pool = 0 then pure (0, s)
  else do
    let (newLog, s) ← pnalloc env s pool logSize
    if newLog = 0 then failed env s pool
    else do
      let heap ← memcpy s.heap newLog log logSize
      let s ← Proc.store ⟨heap, s.log⟩ (pool + logOffset) newLog
      let (c, s) ← pnalloc env s pool connectionSize
      if c = 0 then failed env s pool
      else do
        let heap ← memzero s.heap c connectionSize
        let (rev, s) ← allocEvent env ⟨heap, s.log⟩ pool c
        if rev = 0 then failed env s pool
        else do
          let (wev, s) ← allocEvent env s pool c
          if wev = 0 then failed env s pool
          else do
            let s ← s.store (c + logField) newLog
            let s ← s.store (c + poolField) pool
            let s ← store32 s (c + fdField) (toUInt32 fd)
            let s ← s.store (c + revField) rev
            let s ← s.store (c + wevField) wev
            pure (c, s)

/-- `hcore_destroy_connection` -/
def destroyConnection (env : Env) (t : Task) (c : ℕ) : Exec Task := do
  let bits ← load32 t.proc (c + sharedField)
  if bits % 2 = 1 then do
    let s ← store32 t.proc (c + fdField) (toUInt32 (-1))
    let pool ← s.load (c + poolField)
    let s ← destroyPool env s pool
    pure ⟨s, t.table⟩
  else do
    let word ← load32 t.proc (c + fdField)
    let fd := toInt32 word
    let pool ← t.proc.load (c + poolField)
    let s ← destroyPool env t.proc pool
    pure ⟨s, if fd = -1 then t.table else t.table.close fd⟩

/-- A process with a connection and what is held of its pool. -/
structure World where
  task : Task
  cl : Client
  pool : ℕ
  conn : ℕ
  fd : ℤ
  shared : Bool

/-- The connection at `c`, with its pool, as it has been made. -/
def made (s : Proc) (table : Table) (c : ℕ) (fd : ℤ) : World :=
  let word (k : ℕ) := wordAt s.heap.mem (c + k)
  ⟨⟨s, table⟩, ⟨[⟨word wevField, eventSize⟩, ⟨word revField, eventSize⟩, ⟨c, connectionSize⟩,
    ⟨word logField, logSize⟩], []⟩, word poolField, c, fd, false⟩

/-- What is done with a connection: calls to its pool and writes to what lies
there, and the mark that its descriptor is shared. Meanwhile the process opens
and closes other files. -/
inductive Op
  | call (c : Call)
  | share
  | openFile (name : List UInt8)
  | close (fd : ℕ)

/-- A call is not given the connection, but for writes to the fields that its
end does not look at. -/
def Spares (conn : ℕ) : Call → Prop
  | .alloc _ => True
  | .calloc _ => True
  | .resize x _ => x.addr ≠ conn
  | .free x => x.addr ≠ conn
  | .addCleanup _ => True
  | .setCleanup _ _ _ => True
  | .write x i _ => x.addr = conn →
      4 ≤ i ∧ (i < poolField ∨ poolField + 8 ≤ i) ∧ (i < sharedField ∨ sharedField + 4 ≤ i)

namespace Op

def run (env : Env) (sys : System) (w : World) : Op → Exec World
  | call c => do
    let (p, s) ← c.run env w.pool w.task.proc
    pure { w with task := ⟨s, w.task.table⟩, cl := c.after w.cl s p }
  | share => do
    let bits ← load32 w.task.proc (w.conn + sharedField)
    let s ← store32 w.task.proc (w.conn + sharedField) (bits / 2 * 2 + 1)
    pure { w with task := ⟨s, w.task.table⟩, shared := true }
  | openFile name =>
    pure { w with task := ⟨w.task.proc, w.task.table.add (sys.openFile name w.task.table)⟩ }
  | close fd => pure { w with task := ⟨w.task.proc, w.task.table.close fd⟩ }

def Valid (w : World) : Op → Prop
  | call c => c.Valid w.cl ∧ Spares w.conn c
  | share => True
  | openFile _ => True
  | close fd => w.fd ≠ fd

/-- The pool needs no second block for it. -/
def Fits (env : Env) (w : World) : Op → Prop
  | call c => c.FitsBlock env w.pool w.task.proc
  | share => True
  | openFile _ => True
  | close _ => True

end Op

inductive Run (env : Env) (sys : System) (w₀ : World) : World → Prop
  | start : Run env sys w₀ w₀
  | step {w w' : World} (op : Op) (hrun : Run env sys w₀ w) (hvalid : op.Valid w)
      (hfits : op.Fits env w) (hop : op.run env sys w = Except.ok w') : Run env sys w₀ w'

/-- The pool is in order, and the connection has the fields that its end looks at. -/
structure Sound (w : World) : Prop where
  holds : ∃ b last max records, b.addr = w.pool ∧ Holds w.task.proc b last max w.cl records
  held : (⟨w.conn, connectionSize⟩ : Range) ∈ w.cl.user
  fd : word32 w.task.proc.heap.mem (w.conn + fdField) = toUInt32 w.fd
  pool : wordAt w.task.proc.heap.mem (w.conn + poolField) = w.pool
  shared : word32 w.task.proc.heap.mem (w.conn + sharedField) % 2 = if w.shared then 1 else 0
  inRange : -1 ≤ w.fd ∧ w.fd < 2 ^ 31

section

variable {env : Env} {sys : System} {s s' : Proc} {b : Block} {last max c log p : ℕ} {cl : Client}
  {records : List Record} {fd : ℤ} {table : Table} {w w' w₀ : World} {x : Range}

theorem word32_zero {mem : ℕ → UInt8} {a : ℕ} (h : ∀ i < 4, mem (a + i) = 0) :
    word32 mem a = 0 := by
  rw [word32, readAt_zero mem a 4 h]
  rfl

/-- An event is made, since the block has room for it. -/
theorem allocEvent_spec (env : Env) (h : Holds s b last max cl records) (hle : eventSize ≤ max)
    (hroom : last + eventSize ≤ b.addr + b.size) (c : ℕ) :
    ∃ s', allocEvent env s b.addr c = Except.ok (last, s') ∧
      Holds s' b (last + eventSize) max ⟨⟨last, eventSize⟩ :: cl.user, cl.cleanups⟩ records ∧
      ItemsKept s s' cl.items := by
  obtain ⟨s₁, heap, hrun, hzero, h₁, hkept₁, -⟩ := h.pnalloc_zeroed env hle hroom
  have hne : last ≠ 0 := h₁.user_pos List.mem_cons_self
  have hfield : last + dataField + 8 ≤ last + eventSize :=
    Nat.add_le_add_left (by decide : dataField + 8 ≤ eventSize) last
  obtain ⟨hstore, h₂⟩ := h₁.put_item List.mem_cons_self (Nat.le_add_right last dataField) hfield c
  obtain ⟨hapart, -⟩ := List.pairwise_cons.mp h₁.layout.apart
  refine ⟨_, ?_, h₂, hkept₁.trans fun x hx => ?_⟩
  · unfold allocEvent
    rw [hrun, ok_bind]
    dsimp only
    rw [if_neg hne]
    exact bind_of_ok hzero (bind_of_ok hstore rfl)
  · exact (hapart x hx).symm.kept_put (Nat.le_add_right last dataField) hfield

/-- The fields of a connection while one of them is stored. -/
structure Fields (mem : ℕ → UInt8) (c newLog pool rev wev bits : ℕ) (fd : ℤ) : Prop where
  log : wordAt mem (c + logField) = newLog
  pool : wordAt mem (c + poolField) = pool
  fd : word32 mem (c + fdField) = toUInt32 fd
  rev : wordAt mem (c + revField) = rev
  wev : wordAt mem (c + wevField) = wev
  shared : word32 mem (c + sharedField) = bits

theorem fields_written (mem : ℕ → UInt8) (c : ℕ) {newLog pool rev wev : ℕ}
    (hlog : newLog < 2 ^ 64) (hpool : pool < 2 ^ 64) (hrev : rev < 2 ^ 64) (hwev : wev < 2 ^ 64)
    (fd : ℤ) :
    Fields (writeAt (writeAt (writeAt (writeAt (writeAt mem (c + logField) (encode64 newLog))
      (c + poolField) (encode64 pool)) (c + fdField) (encode32 (toUInt32 fd)))
      (c + revField) (encode64 rev)) (c + wevField) (encode64 wev)) c newLog pool rev wev
      (word32 mem (c + sharedField)) fd := by
  set mem₁ := writeAt mem (c + logField) (encode64 newLog) with hmem₁
  set mem₂ := writeAt mem₁ (c + poolField) (encode64 pool) with hmem₂
  set mem₃ := writeAt mem₂ (c + fdField) (encode32 (toUInt32 fd)) with hmem₃
  set mem₄ := writeAt mem₃ (c + revField) (encode64 rev) with hmem₄
  set mem₅ := writeAt mem₄ (c + wevField) (encode64 wev) with hmem₅
  have hbehind {k : ℕ} (hk : fdField + 4 ≤ k) : wordAt mem₃ (c + k) = wordAt mem₂ (c + k) := by
    rw [hmem₃]
    exact wordAt_other (Or.inr (Nat.add_le_add_left hk c))
  exact {
    log := by
      rw [hmem₅, wordAt_header (by decide), hmem₄, wordAt_header (by decide), hbehind (by decide),
        hmem₂, wordAt_header (by decide), hmem₁, wordAt_same hlog]
    pool := by
      rw [hmem₅, wordAt_header (by decide), hmem₄, wordAt_header (by decide), hbehind (by decide),
        hmem₂, wordAt_same hpool]
    fd := by
      rw [hmem₅, word32_other (Or.inl (by decide)), hmem₄, word32_other (Or.inl (by decide)), hmem₃,
        word32_same (toUInt32_lt fd)]
    rev := by rw [hmem₅, wordAt_header (by decide), hmem₄, wordAt_same hrev]
    wev := wordAt_same hwev
    shared := by
      rw [hmem₅, word32_other (Or.inr (by decide : wevField + 8 ≤ sharedField)), hmem₄,
        word32_other (Or.inr (by decide : revField + 8 ≤ sharedField)), hmem₃,
        word32_other (Or.inr (by decide : fdField + 4 ≤ sharedField)), hmem₂,
        word32_other (Or.inr (by decide : poolField + 8 ≤ sharedField)), hmem₁,
        word32_other (Or.inr (by decide : logField + 8 ≤ sharedField))] }

/-- The end of `hcore_create_connection`: the fields are stored. -/
theorem fields_stored (h : Holds s b last max cl records)
    (hc : (⟨c, connectionSize⟩ : Range) ∈ cl.user) {newLog pool rev wev : ℕ}
    (hlog : newLog < 2 ^ 64) (hpool : pool < 2 ^ 64) (hrev : rev < 2 ^ 64) (hwev : wev < 2 ^ 64)
    (fd : ℤ) :
    ∃ s', (do
        let s ← s.store (c + logField) newLog
        let s ← s.store (c + poolField) pool
        let s ← store32 s (c + fdField) (toUInt32 fd)
        let s ← s.store (c + revField) rev
        let s ← s.store (c + wevField) wev
        pure (c, s) : Exec (ℕ × Proc)) = Except.ok (c, s') ∧ Holds s' b last max cl records ∧
      Fields s'.heap.mem c newLog pool rev wev (word32 s.heap.mem (c + sharedField)) fd := by
  have hend {k : ℕ} (hk : k + 8 ≤ connectionSize) : c + k + 8 ≤ c + connectionSize := by omega
  have hfd : c + fdField + (encode32 (toUInt32 fd)).length ≤ c + connectionSize :=
    Nat.add_le_add_left (by decide : fdField + 4 ≤ connectionSize) c
  obtain ⟨hstore₁, h₁⟩ := h.put_item hc (Nat.le_add_right c logField) (hend (by decide)) newLog
  obtain ⟨hstore₂, h₂⟩ := h₁.put_item hc (Nat.le_add_right c poolField) (hend (by decide)) pool
  obtain ⟨hstore₃, h₃, -⟩ := h₂.write hc (Nat.le_add_right c fdField) hfd
  obtain ⟨hstore₄, h₄⟩ := h₃.put_item hc (Nat.le_add_right c revField) (hend (by decide)) rev
  obtain ⟨hstore₅, h₅⟩ := h₄.put_item hc (Nat.le_add_right c wevField) (hend (by decide)) wev
  refine ⟨_, bind_of_ok hstore₁ (bind_of_ok hstore₂ (bind_of_ok (bind_of_ok hstore₃ rfl)
    (bind_of_ok hstore₄ (bind_of_ok hstore₅ rfl)))), h₅, ?_⟩
  exact fields_written s.heap.mem c hlog hpool hrev hwev fd

/-- The log is copied to the first block that the pool hands out. -/
theorem copy_log (h : Holds s b last max ⟨⟨p, logSize⟩ :: cl.user, cl.cleanups⟩ records)
    (hother : ∃ d ∈ s.heap.live, d ≠ b ∧ d.Covers log logSize) (hp : b.addr ≤ p)
    (hend : p + logSize ≤ b.addr + b.size) :
    ∃ heap, memcpy s.heap p log logSize = Except.ok heap ∧ Holds ⟨heap, s.log⟩ b last max
      ⟨⟨p, logSize⟩ :: cl.user, cl.cleanups⟩ records := by
  obtain ⟨d, hd, hne, hstart, hlast⟩ := hother
  have hapart : p + logSize ≤ log ∨ log + logSize ≤ p := by
    rcases Heap.apart_of_ne hd h.layout.block hne with hlt | hlt <;> omega
  have hdst := h.layout.owns
    (List.mem_append_left _ (List.mem_cons_self (a := (⟨p, logSize⟩ : Range))))
  have hlen : p + (readAt s.heap.mem log logSize).length ≤ p + logSize := by rw [readAt_length]
  obtain ⟨-, h', -⟩ := h.write_first (le_refl p) hlen
  exact ⟨_, memcpy_of_owns hdst ⟨d, hd, hstart, hlast⟩ hapart, h'⟩

/-- A connection is made in a pool of its own, or nothing is obtained. -/
theorem createConnection_spec (hpage : 4096 ≤ env.pagesize) (hlog : s.log = [])
    (hown : s.heap.Owns log logSize) (hfd : -1 ≤ fd ∧ fd < 2 ^ 31) :
    ∃ c s', createConnection env s log fd = Except.ok (c, s') ∧
      (c = 0 ∧ s'.log = [] ∧ s'.heap.live = s.heap.live ∨
        c ≠ 0 ∧ ∀ table, Sound (made s' table c fd)) := by
  unfold createConnection
  rcases createPool_made env (by decide : poolSize ≤ poolSizeDefault) hlog with
    ⟨s₁, hrun₁, hnone, hlive⟩ | ⟨b, s₁, hsize, hrun₁, hlive, hnew, h₁⟩
  · exact ⟨0, s₁, bind_of_ok hrun₁ (if_pos rfl), Or.inl ⟨rfl, hnone, hlive⟩⟩
  have hrange := s₁.heap.inRange b h₁.layout.block
  have hmax : connectionSize ≤ roomOf env poolSizeDefault := by
    unfold roomOf poolSizeDefault poolSize connectionSize
    split <;> omega
  have hroom {k : ℕ} (hk : k ≤ poolSizeDefault) : b.addr + k ≤ b.addr + b.size := by omega
  rw [hrun₁, ok_bind]
  dsimp only
  rw [if_neg hrange.1.ne']
  -- the copy of the log
  obtain ⟨hrun₂, h₂, -⟩ := h₁.pnalloc_small env (n := logSize)
    ((by decide : logSize ≤ connectionSize).trans hmax)
    (hroom (by decide : poolSize + logSize ≤ poolSizeDefault))
  have hother : ∃ d ∈ (s₁.put (b.addr + lastOffset) (b.addr + poolSize + logSize)).heap.live,
      d ≠ b ∧ d.Covers log logSize := by
    obtain ⟨d, hd, hcover⟩ := hown
    refine ⟨d, ?_, ?_, hcover⟩
    · rw [put_live, hlive]
      exact List.mem_cons_of_mem _ hd
    · rintro rfl
      exact hnew hd
  obtain ⟨heap₃, hcopy, h₃⟩ := copy_log h₂ hother (Nat.le_add_right _ _)
    (hroom (by decide : poolSize + logSize ≤ poolSizeDefault))
  obtain ⟨hstore₄, h₄, -⟩ := h₃.setUnused (v := b.addr + poolSize) (Or.inl rfl)
  rw [hrun₂, ok_bind]
  dsimp only
  rw [if_neg (by omega), hcopy, ok_bind, hstore₄, ok_bind]
  -- the connection
  set newLog := b.addr + poolSize with hnewLog
  set c := newLog + logSize with hc
  obtain ⟨s₅, heap₆, hrun₅, hclear, h₆, -, hzero⟩ := h₄.pnalloc_zeroed env hmax
    (hroom (by decide : poolSize + logSize + connectionSize ≤ poolSizeDefault))
  have hne : c ≠ 0 := by omega
  rw [hrun₅, ok_bind]
  dsimp only
  rw [if_neg hne, hclear, ok_bind]
  have hbits₆ : word32 heap₆.mem (c + sharedField) = 0 := by
    refine word32_zero fun i hi => ?_
    rw [Nat.add_assoc]
    exact hzero _ (by unfold sharedField connectionSize; omega)
  -- its events
  set rev := c + connectionSize with hrev
  have hevent : eventSize ≤ roomOf env poolSizeDefault :=
    (by decide : eventSize ≤ connectionSize).trans hmax
  obtain ⟨s₇, hrun₇, h₇, hkept₇⟩ := allocEvent_spec env h₆ hevent
    (hroom (by decide : poolSize + logSize + connectionSize + eventSize ≤ poolSizeDefault)) c
  set wev := rev + eventSize with hwev
  obtain ⟨s₈, hrun₈, h₈, hkept₈⟩ := allocEvent_spec env h₇ hevent
    (hroom (by decide :
      poolSize + logSize + connectionSize + eventSize + eventSize ≤ poolSizeDefault)) c
  rw [hrun₇, ok_bind]
  dsimp only
  rw [if_neg (by omega), hrun₈, ok_bind]
  dsimp only
  rw [if_neg (by omega)]
  have hitem : (⟨c, connectionSize⟩ : Range) ∈
      [⟨wev, eventSize⟩, ⟨rev, eventSize⟩, ⟨c, connectionSize⟩, ⟨newLog, logSize⟩] :=
    List.mem_cons_of_mem _ (List.mem_cons_of_mem _ List.mem_cons_self)
  have hbits₈ : word32 s₈.heap.mem (c + sharedField) = 0 := by
    have hkept : Keeps heap₆.mem s₈.heap.mem c connectionSize :=
      Keeps.trans (hkept₇ ⟨c, connectionSize⟩ List.mem_cons_self)
        (hkept₈ ⟨c, connectionSize⟩ (List.mem_cons_of_mem _ List.mem_cons_self))
    rw [word32_kept hkept (by decide : sharedField + 4 ≤ connectionSize), hbits₆]
  have hlt {k : ℕ} (hk : k ≤ poolSizeDefault) : b.addr + k < 2 ^ 64 := by omega
  obtain ⟨s₉, hrun₉, h₉, hfields⟩ := fields_stored h₈ hitem
    (hlt (by decide : poolSize ≤ poolSizeDefault)) (hlt (Nat.zero_le _))
    (hlt (by decide : poolSize + logSize + connectionSize ≤ poolSizeDefault))
    (hlt (by decide : poolSize + logSize + connectionSize + eventSize ≤ poolSizeDefault)) fd
  refine ⟨c, s₉, hrun₉, Or.inr ⟨hne, fun table => ?_⟩⟩
  have hmade : made s₉ table c fd = ⟨⟨s₉, table⟩, ⟨[⟨wev, eventSize⟩, ⟨rev, eventSize⟩,
      ⟨c, connectionSize⟩, ⟨newLog, logSize⟩], []⟩, b.addr, c, fd, false⟩ := by
    unfold made
    dsimp only
    rw [hfields.wev, hfields.rev, hfields.log, hfields.pool]
    rfl
  rw [hmade]
  exact {
    holds := ⟨b, _, _, _, rfl, h₉⟩
    held := hitem
    fd := hfields.fd
    pool := hfields.pool
    shared := by
      rw [hfields.shared, hbits₈]
      rfl
    inRange := hfd }

namespace Sound

theorem load32_field (h : Sound w) {k : ℕ} (hk : k + 4 ≤ connectionSize) :
    load32 w.task.proc (w.conn + k) =
      Except.ok (word32 w.task.proc.heap.mem (w.conn + k)) := by
  obtain ⟨b, last, max, records, -, hholds⟩ := h.holds
  have hown := hholds.layout.owns (List.mem_append_left _ h.held)
  exact if_pos (hown.mono (Nat.le_add_right _ k) (by
    show w.conn + k + 4 ≤ w.conn + connectionSize
    omega))

/-- The connection is written. -/
theorem write (h : Sound w) {k : ℕ} (bytes : List UInt8) (hk : k + bytes.length ≤ connectionSize) :
    store w.task.proc.heap (w.conn + k) bytes =
        Except.ok (w.task.proc.heap.withMem
          (writeAt w.task.proc.heap.mem (w.conn + k) bytes)) ∧
      ∃ b last max records, b.addr = w.pool ∧ Holds
        ⟨w.task.proc.heap.withMem (writeAt w.task.proc.heap.mem (w.conn + k) bytes),
          w.task.proc.log⟩ b last max w.cl records := by
  obtain ⟨b, last, max, records, hb, hholds⟩ := h.holds
  have hend : w.conn + k + bytes.length ≤ w.conn + connectionSize := by omega
  obtain ⟨hstore, h', -⟩ := hholds.write h.held (Nat.le_add_right _ k) hend
  exact ⟨hstore, b, last, max, records, hb, h'⟩

/-- A call leaves the fields alone that the end looks at. -/
theorem call_fields (h : Sound w) {b : Block} {last max : ℕ} {records : List Record} {call : Call}
    {p : ℕ} (hholds : Holds w.task.proc b last max w.cl records) (hvalid : call.Valid w.cl)
    (hspares : Spares w.conn call) (hfits : call.FitsBlock env b.addr w.task.proc)
    (hrun : call.run env b.addr w.task.proc = Except.ok (p, s')) :
    Keeps w.task.proc.heap.mem s'.heap.mem w.conn 4 ∧
      Keeps w.task.proc.heap.mem s'.heap.mem (w.conn + poolField) 8 ∧
      Keeps w.task.proc.heap.mem s'.heap.mem (w.conn + sharedField) 4 ∧
      (⟨w.conn, connectionSize⟩ : Range) ∈ (call.after w.cl s' p).user := by
  by_cases htarget : w.conn = call.target
  · have hpos : w.conn ≠ 0 := hholds.user_pos h.held
    cases call with
    | alloc n => exact absurd htarget hpos
    | calloc n => exact absurd htarget hpos
    | resize x n => exact absurd htarget.symm hspares
    | free x => exact absurd htarget.symm hspares
    | addCleanup n => exact absurd htarget hpos
    | setCleanup a handler data =>
      -- the record of a handler does not lie over the connection
      obtain ⟨k, hk, hka⟩ := List.mem_map.mp hvalid.1
      obtain ⟨-, -, hcross⟩ := List.pairwise_append.mp hholds.layout.apart
      have hapart : Range.Apart ⟨w.conn, connectionSize⟩ k.range :=
        hcross _ h.held _ (List.mem_map_of_mem hk)
      have hsame : w.conn = k.addr := htarget.trans hka.symm
      unfold Range.Apart Cleanup.range cleanupSize connectionSize at hapart
      dsimp only at hapart
      omega
    | write x i v =>
      obtain ⟨hfd, hpool, hshared⟩ := hspares htarget.symm
      have hconn : x.addr = w.conn := htarget.symm
      obtain ⟨heap, hheap, hrun⟩ := bind_eq_ok.mp hrun
      obtain ⟨-, rfl⟩ := Prod.mk.inj (Except.ok.inj hrun)
      have hend : x.addr + i + [v].length ≤ x.addr + x.size := by
        have hi := hvalid.2
        rw [List.length_singleton]
        omega
      obtain ⟨hstore, -, -⟩ := hholds.write hvalid.1 (Nat.le_add_right x.addr i) hend
      cases hstore.symm.trans hheap
      refine ⟨Keeps.of_writeAt ?_, Keeps.of_writeAt ?_, Keeps.of_writeAt ?_, h.held⟩
      · rw [List.length_singleton]
        omega
      · rw [List.length_singleton]
        omega
      · rw [List.length_singleton]
        omega
  · obtain ⟨hkept, hmem⟩ := hholds.call_kept hvalid hfits h.held htarget hrun
    have hpart {k n : ℕ} (hk : k + n ≤ connectionSize) :
        Keeps w.task.proc.heap.mem s'.heap.mem (w.conn + k) n :=
      fun i hi hi' => hkept i (by dsimp only; omega) (by dsimp only; omega)
    exact ⟨hpart (k := 0) (by decide), hpart (by decide), hpart (by decide), hmem⟩

/-- Everything that is allowed is served, and keeps the connection. -/
theorem serves (sys : System) (h : Sound w) {op : Op} (hvalid : op.Valid w)
    (hfits : op.Fits env w) :
    ∃ w', op.run env sys w = Except.ok w' ∧ Sound w' ∧ w'.conn = w.conn ∧ w'.fd = w.fd := by
  cases op with
  | call c =>
    obtain ⟨hcall, hspares⟩ := hvalid
    obtain ⟨b, last, max, records, hb, hholds⟩ := h.holds
    change c.FitsBlock env w.pool w.task.proc at hfits
    rw [← hb] at hfits
    obtain ⟨p, s', last', records', hrun, h', -⟩ := hholds.serves hcall hfits
    obtain ⟨hfd, hpool, hshared, hmem⟩ := h.call_fields hholds hcall hspares hfits hrun
    rw [hb] at hrun
    refine ⟨_, bind_of_ok hrun rfl,
      ⟨⟨b, last', max, records', hb, h'⟩, hmem, ?_, ?_, ?_, h.inRange⟩, rfl, rfl⟩
    · exact (word32_kept (k := 0) hfd (le_refl 4)).trans h.fd
    · exact (hpool.word (k := 0) (le_refl 8)).trans h.pool
    · exact (congrArg (· % 2) (word32_kept (k := 0) hshared (le_refl 4))).trans h.shared
  | share =>
    set bits := word32 w.task.proc.heap.mem (w.conn + sharedField) with hbits
    have hlt : bits / 2 * 2 + 1 < 2 ^ 32 := by
      have hword : bits < 2 ^ 32 := decode32_lt _
      omega
    obtain ⟨hstore, hholds⟩ := h.write (encode32 (bits / 2 * 2 + 1))
      (by decide : sharedField + 4 ≤ connectionSize)
    refine ⟨_, bind_of_ok (h.load32_field (by decide)) (bind_of_ok (bind_of_ok hstore rfl) rfl),
      ⟨hholds, h.held, ?_, ?_, ?_, h.inRange⟩, rfl, rfl⟩
    · exact (word32_other (Or.inl (by decide))).trans h.fd
    · refine Eq.trans (wordAt_other (Or.inl ?_)) h.pool
      exact Nat.add_le_add_left (by decide : poolField + 8 ≤ sharedField) w.conn
    · show word32 (writeAt _ (w.conn + sharedField) _) _ % 2 = 1
      rw [word32_same hlt]
      omega
  | openFile name =>
    exact ⟨_, rfl, ⟨h.holds, h.held, h.fd, h.pool, h.shared, h.inRange⟩, rfl, rfl⟩
  | close n => exact ⟨_, rfl, ⟨h.holds, h.held, h.fd, h.pool, h.shared, h.inRange⟩, rfl, rfl⟩

/-- The end of a connection. -/
theorem destroy_settles (h : Sound w) (env : Env) :
    ∃ t', destroyConnection env w.task w.conn = Except.ok t' ∧
      Settled w.task.proc.log t'.proc.log w.cl.cleanups ∧
      ∀ n, n ∈ t'.table.fds ↔ n ∈ w.task.table.fds ∧ (w.shared = true ∨ w.fd ≠ (n : ℕ)) := by
  have hshared := h.shared
  unfold destroyConnection
  rw [h.load32_field (by decide), ok_bind]
  cases hcase : w.shared with
  | true =>
    rw [hcase, if_pos rfl] at hshared
    rw [if_pos hshared]
    obtain ⟨hstore, b, last, max, records, hb, hholds⟩ :=
      h.write (encode32 (toUInt32 (-1))) (by decide : fdField + 4 ≤ connectionSize)
    obtain ⟨s', hend, hsettled⟩ : ∃ s', destroyPool env _ b.addr = Except.ok s' ∧
      Settled _ s'.log w.cl.cleanups := hholds.destroy
    have hpool : wordAt (writeAt w.task.proc.heap.mem (w.conn + fdField)
        (encode32 (toUInt32 (-1)))) (w.conn + poolField) = b.addr := by
      rw [wordAt_other (Or.inr (Nat.add_le_add_left (by decide : fdField + 4 ≤ poolField) w.conn)),
        h.pool, hb]
    have hload := Proc.load_of_owns ((hholds.layout.owns (List.mem_append_left _ h.held)).mono
      (Nat.le_add_right w.conn poolField)
      (Nat.add_le_add_left (by decide : poolField + 8 ≤ connectionSize) w.conn))
    refine ⟨⟨s', w.task.table⟩, bind_of_ok (bind_of_ok hstore rfl) (bind_of_ok hload ?_), hsettled,
      fun n => (and_iff_left (Or.inl rfl)).symm⟩
    dsimp only [Heap.withMem_mem]
    rw [hpool, hend]
    rfl
  | false =>
    have hfalse : ¬ word32 w.task.proc.heap.mem (w.conn + sharedField) % 2 = 1 := by
      rw [hshared, hcase]
      decide
    obtain ⟨b, last, max, records, hb, hholds⟩ := h.holds
    obtain ⟨s', hend, hsettled⟩ : ∃ s', destroyPool env w.task.proc b.addr = Except.ok s' ∧
      Settled w.task.proc.log s'.log w.cl.cleanups := hholds.destroy
    have hload := Proc.load_of_owns ((hholds.layout.owns (List.mem_append_left _ h.held)).mono
      (Nat.le_add_right w.conn poolField)
      (Nat.add_le_add_left (by decide : poolField + 8 ≤ connectionSize) w.conn))
    have hfd : toInt32 (toUInt32 w.fd) = w.fd :=
      toInt32_toUInt32 (by have hlow := h.inRange.1; omega) h.inRange.2
    rw [if_neg hfalse, h.load32_field (by decide), ok_bind]
    refine ⟨⟨s', if w.fd = -1 then w.task.table else w.task.table.close w.fd⟩,
      bind_of_ok hload ?_, hsettled, fun n => ?_⟩
    · rw [h.pool, ← hb, hend, ok_bind, h.fd, hfd]
      rfl
    · split
      · next hnone => exact (and_iff_left (Or.inr (by omega))).symm
      · rw [Table.mem_close]
        refine and_congr_right fun _ => ?_
        rw [or_iff_right Bool.false_ne_true, ne_comm]

end Sound

theorem Run.sound (h₀ : Sound w₀) (h : Run env sys w₀ w) :
    Sound w ∧ w.conn = w₀.conn ∧ w.fd = w₀.fd := by
  induction h with
  | start => exact ⟨h₀, rfl, rfl⟩
  | step op _ hvalid hfits hop ih =>
    obtain ⟨h, hconn, hfd⟩ := ih
    obtain ⟨w', hrun, h', hconn', hfd'⟩ := h.serves sys hvalid hfits
    cases hrun.symm.trans hop
    exact ⟨h', hconn'.trans hconn, hfd'.trans hfd⟩

/-- A connection is made in a pool of its own, or nothing is obtained. Whatever
is done with it and its pool, as long as the pool needs no second block, is
served, and its end gives back all that it has obtained and closes its
descriptor, if that is not shared, and no other. -/
theorem connection_life (sys : System) (hpage : 4096 ≤ env.pagesize) (hlog : s.log = [])
    (hown : s.heap.Owns log logSize) (hfd : -1 ≤ fd ∧ fd < 2 ^ 31) :
    ∃ c s', createConnection env s log fd = Except.ok (c, s') ∧
      (c = 0 ∧ s'.log = [] ∧ s'.heap.live = s.heap.live ∨
        c ≠ 0 ∧ ∀ table w, Run env sys (made s' table c fd) w →
          (∃ t', destroyConnection env w.task c = Except.ok t' ∧
            Settled w.task.proc.log t'.proc.log w.cl.cleanups ∧
            ∀ n, n ∈ t'.table.fds ↔ n ∈ w.task.table.fds ∧ (w.shared = true ∨ fd ≠ (n : ℕ))) ∧
          ∀ op : Op, op.Valid w → op.Fits env w → ∃ w', op.run env sys w = Except.ok w') := by
  obtain ⟨c, s', hrun, hcase⟩ := createConnection_spec hpage hlog hown hfd
  refine ⟨c, s', hrun, hcase.imp_right fun ⟨hne, hsound⟩ => ⟨hne, fun table w hw => ?_⟩⟩
  obtain ⟨h, hconn, hsame⟩ := hw.sound (hsound table)
  have hend := h.destroy_settles env
  rw [hconn, hsame] at hend
  refine ⟨hend, fun op hvalid hfits => ?_⟩
  obtain ⟨w', hop, -⟩ := h.serves sys hvalid hfits
  exact ⟨w', hop⟩

end

/-- A process with a log at 16. -/
def loggedProc : Proc := ⟨(malloc bumpAllocator emptyHeap logSize).2, []⟩

def fourOpen : Table := ⟨[5, 2, 1, 0], by decide, by decide⟩

theorem connection_life_one : ∃ s' t',
    createConnection bumpEnv loggedProc 16 5 = Except.ok (280, s') ∧
      destroyConnection bumpEnv ⟨s', fourOpen⟩ 280 = Except.ok t' ∧
      Settled s'.log t'.proc.log [] ∧ 5 ∉ t'.table.fds ∧ 2 ∈ t'.table.fds := by
  have hown : loggedProc.heap.Owns 16 logSize :=
    ⟨⟨0, 16, 64⟩, List.mem_cons_self, by decide, by decide⟩
  have hpage : 4096 ≤ bumpEnv.pagesize := le_refl 4096
  have hrun : (createConnection bumpEnv loggedProc 16 5).map Prod.fst = Except.ok 280 := by
    decide +kernel
  obtain ⟨c, s', hcreate, hcase⟩ := connection_life nextSystem hpage
    (rfl : loggedProc.log = []) hown
    (by decide : (-1 : ℤ) ≤ 5 ∧ (5 : ℤ) < 2 ^ 31)
  rw [hcreate] at hrun
  obtain rfl : c = 280 := Except.ok.inj hrun
  obtain ⟨-, hlife⟩ := hcase.resolve_left fun hzero => absurd hzero.1 (by decide)
  obtain ⟨⟨t', hdestroy, hsettled, htable⟩, -⟩ := hlife fourOpen _ .start
  refine ⟨s', t', hcreate, hdestroy, hsettled, fun hmem => ?_, (htable 2).mpr ⟨?_, ?_⟩⟩
  · exact ((htable 5).mp hmem).2.elim Bool.false_ne_true fun hne => hne rfl
  · show 2 ∈ [5, 2, 1, 0]
    decide
  · exact Or.inr (by decide)

end HCore.ConnectionLife
