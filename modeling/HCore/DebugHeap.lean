import HCore.CHeap
import HCore.ListBackends

/-!
The heap functions of a debug build. Every block has a node with a magic word,
its size and its address in front of it, and nodes are listed with the debug
object if there is one. An assertion that fails ends the execution without a
value. The list of the nodes is made without a pool, so that there never is a
debug object.
-/

namespace HCore.DebugHeap

open Machine LittleEndian CHeap PoolRequests ListBackends
open SortedList (Libc)

/-- The names that nodes are made with. -/
inductive Name
  | malloc
  | calloc
  | realloc
  | memalign
  deriving DecidableEq, Repr

def Name.text : Name → List Char
  | malloc => "hcore_malloc".toList
  | calloc => "hcore_calloc".toList
  | realloc => "hcore_realloc".toList
  | memalign => "hcore_memalign".toList

/-- The address of a name. -/
def Name.pointer : Name → ℕ
  | malloc => 1
  | calloc => 2
  | realloc => 3
  | memalign => 4

def nameAt : ℕ → Option Name
  | 1 => some .malloc
  | 2 => some .calloc
  | 3 => some .realloc
  | 4 => some .memalign
  | _ => none

/-- `strcasecmp` -/
def strcasecmp : List Char → List Char → ℤ
  | [], [] => 0
  | a :: _, [] => a.toLower.toNat
  | [], b :: _ => -(b.toLower.toNat : ℤ)
  | a :: x, b :: y =>
    if a.toLower = b.toLower then strcasecmp x y
    else (a.toLower.toNat : ℤ) - b.toLower.toNat

/-- `hcore_debug_mnode_cmp`: the names of two nodes are read from memory. -/
def mnodeCmp (mem : ℕ → UInt8) (n1 n2 : ℕ) : ℤ :=
  match nameAt (wordAt mem n1) with
  | none => -1
  | some a =>
    match nameAt (wordAt mem n2) with
    | none => 1
    | some b => strcasecmp a.text b.text

/-- `hcore_debug_t` -/
structure Debug where
  mlist : PList ℕ
  maxStackNum : ℕ
  allocedNum : ℕ
  freeNum : ℕ
  totalAllocedSize : ℕ
  totalFreeSize : ℕ

/-- What the C library does at each time: its allocator, its sorting and
searching, the depth of the stack and the size of a block of symbols. -/
structure Env where
  alloc : Allocator
  lib : Libc ℕ
  frames : ℕ → ℕ
  symbols : ℕ → ℕ
  memory : PList ℕ

/-- The process: `db` is `g_hcore_debug`. -/
structure State where
  heap : Heap
  backends : Backends
  db : Option Debug

/-- `sizeof(hcore_debug_mnode_t)` -/
def mnodeSize : ℕ := 56

/-- The fields of a node: `name` is at its start. -/
def sizeOffset : ℕ := 8
def magicOffset : ℕ := 24
def symbolsOffset : ℕ := 32
def addrOffset : ℕ := 40
def debugOffset : ℕ := 48

def debugMagicNum : ℕ := 0x01030507090B0D0F

def maxStackNum : ℕ := 64

/-- `hcore_assert` -/
def assertion (c : Prop) [Decidable c] : Exec Unit := if c then pure () else undefined

/-- A new node enters the list of the debug object. -/
def registerMnode (env : Env) (s : State) (node size : ℕ) : Exec (Bool × State) :=
  match s.db with
  | none => pure (true, s)
  | some db => do
    let num := min (env.frames s.heap.calls) (min db.maxStackNum maxStackNum)
    let (symbols, heap) := malloc env.alloc s.heap (env.symbols num)
    let heap ← store64 heap (node + symbolsOffset) symbols
    assertion (1 < num)
    let mlist := { db.mlist with cmp := db.mlist.cmp.map fun _ => mnodeCmp heap.mem }
    let (ok, mlist, backends) ← listInsert env.lib s.backends mlist (some node)
    if ok then do
      let heap ← store64 heap (node + debugOffset) 1
      pure (true, { heap, backends, db := some { db with
        mlist
        allocedNum := toUInt64 (db.allocedNum + 1 : ℕ)
        totalAllocedSize := toUInt64 (db.totalAllocedSize + size : ℕ) } })
    else do
      let heap ← free heap symbols
      let heap ← free heap node
      pure (false, { heap, backends, db := some { db with mlist } })

/-- `hcore_debug_create_mnode`: the node, or NULL. -/
def createMnode (env : Env) (s : State) (name : Name) (size : ℕ) : Exec (ℕ × State) := do
  assertion (size ≠ 0)
  let (node, heap) := malloc env.alloc s.heap (toUInt64 (mnodeSize + size : ℕ))
  if node = 0 then pure (0, { s with heap })
  else do
    let heap ← memzero heap node mnodeSize
    let heap ← store64 heap (node + magicOffset) debugMagicNum
    let heap ← store64 heap node name.pointer
    let heap ← store64 heap (node + sizeOffset) size
    let (ok, s) ← registerMnode env { s with heap } node size
    if ok then do
      let heap ← store64 s.heap (node + addrOffset) (node + mnodeSize)
      pure (node, { s with heap })
    else pure (0, s)

/-- A node leaves the list of the debug object. -/
def unregisterMnode (s : State) (node : ℕ) : Exec State := do
  match s.db with
  | none => undefined
  | some db => do
    let size ← load64 s.heap (node + sizeOffset)
    let symbols ← load64 s.heap (node + symbolsOffset)
    let heap ← free s.heap symbols
    let (_, mlist, backends) ← listDelete s.backends db.mlist (some node)
    pure { heap, backends, db := some { db with
      mlist
      freeNum := toUInt64 (db.freeNum + 1 : ℕ)
      totalFreeSize := toUInt64 (db.totalFreeSize + size : ℕ) } }

/-- `hcore_debug_destroy_mnode` -/
def destroyMnode (s : State) (node : ℕ) : Exec State := do
  assertion (node ≠ 0)
  let magic ← load64 s.heap (node + magicOffset)
  assertion (magic = debugMagicNum)
  let debug ← load64 s.heap (node + debugOffset)
  let s ← if debug % 2 = 1 then unregisterMnode s node else pure s
  let heap ← free s.heap node
  pure { s with heap }

/-- `hcore_debug_get_mnode_of_addr` -/
def getMnodeOfAddr (addr : ℕ) : Exec ℕ := do
  assertion (addr ≠ 0)
  pure (toUInt64 ((addr : ℤ) - mnodeSize))

/-- `hcore_malloc` -/
def hcoreMalloc (env : Env) (s : State) (size : ℕ) : Exec (ℕ × State) := do
  let (node, s) ← createMnode env s .malloc size
  if node = 0 then pure (0, s)
  else do
    let addr ← load64 s.heap (node + addrOffset)
    pure (addr, s)

/-- `hcore_calloc` -/
def hcoreCalloc (env : Env) (s : State) (count size : ℕ) : Exec (ℕ × State) := do
  let (node, s) ← createMnode env s .calloc (toUInt64 (count * size : ℕ))
  if node = 0 then pure (0, s)
  else do
    let addr ← load64 s.heap (node + addrOffset)
    let heap ← memzero s.heap addr (toUInt64 (count * size : ℕ))
    pure (addr, { s with heap })

/-- The contents of the old block go to the new one, and the old one goes. -/
def moveMnode (s : State) (ptr newNode : ℕ) : Exec State :=
  if ptr = 0 then pure s
  else do
    let oldNode ← getMnodeOfAddr ptr
    let newSize ← load64 s.heap (newNode + sizeOffset)
    let oldSize ← load64 s.heap (oldNode + sizeOffset)
    let heap ← memcpy s.heap (newNode + mnodeSize) (oldNode + mnodeSize) (min newSize oldSize)
    destroyMnode { s with heap } oldNode

/-- `hcore_realloc` -/
def hcoreRealloc (env : Env) (s : State) (ptr size : ℕ) : Exec (ℕ × State) := do
  let (newNode, s) ← createMnode env s .realloc size
  if newNode = 0 then pure (0, s)
  else do
    let s ← moveMnode s ptr newNode
    let addr ← load64 s.heap (newNode + addrOffset)
    pure (addr, s)

/-- `hcore_free` -/
def hcoreFree (s : State) (ptr : ℕ) : Exec State := do
  let node ← getMnodeOfAddr ptr
  destroyMnode s node

/-- `HCORE_POOL_SIZE_DEFAULT`, `sizeof(hcore_log_t)` and `sizeof(hcore_debug_t)` -/
def poolSizeDefault : ℕ := 16 * 1024
def logSize : ℕ := 72
def debugSize : ℕ := 64

/-- `hcore_create_debug`: the pool is a block of its own, and answers two
requests for it. -/
def createDebug (env : Env) (s : State) (maxStackNum : ℕ) : Exec (Option Debug × State) := do
  let (node, s) ← createMnode env s .memalign poolSizeDefault
  if node = 0 then pure (none, s)
  else
    match listAlloc s.backends true logSize with
    | (false, backends) => pure (none, { s with backends })
    | (true, backends) =>
      match listAlloc backends true debugSize with
      | (false, backends) => pure (none, { s with backends })
      | (true, backends) =>
        match createList backends false env.memory (some (mnodeCmp s.heap.mem)) with
        | (none, backends) => pure (none, { s with backends })
        | (some mlist, backends) =>
          pure (some ⟨mlist, maxStackNum, 0, 0, 0, 0⟩, { s with backends })

/-- `hcore_init_debug` -/
def initDebug (env : Env) (s : State) : Exec State := do
  let (db, s) ← createDebug env s 16
  pure { s with db }

/-- A call of the heap, or a byte that its caller writes into a block. -/
inductive Call
  | malloc (size : ℕ)
  | calloc (count size : ℕ)
  | realloc (ptr size : ℕ)
  | free (ptr : ℕ)
  | write (ptr i : ℕ) (byte : UInt8)

/-- The call: what it returns and the process after it. -/
def heapCall (env : Env) (s : State) : Call → Exec (ℕ × State)
  | .malloc size => hcoreMalloc env s size
  | .calloc count size => hcoreCalloc env s count size
  | .realloc ptr size => hcoreRealloc env s ptr size
  | .free ptr => do
    let s ← hcoreFree s ptr
    pure (0, s)
  | .write ptr i byte => do
    let heap ← store s.heap (ptr + i) [byte]
    pure (0, { s with heap })

section

variable {env : Env} {s s' : State} {node size : ℕ} {name : Name} {h h' : Heap}

theorem assertion_of {c : Prop} [Decidable c] (hc : c) : assertion c = Except.ok () := if_pos hc

theorem createMnode_db {r : ℕ} (hdb : s.db = none)
    (h : createMnode env s name size = Except.ok (r, s')) : s'.db = none := by
  obtain ⟨-, -, h⟩ := bind_eq_ok.mp h
  dsimp only at h
  split at h
  · cases h
    exact hdb
  · obtain ⟨h1, -, h⟩ := bind_eq_ok.mp h
    obtain ⟨h2, -, h⟩ := bind_eq_ok.mp h
    obtain ⟨h3, -, h⟩ := bind_eq_ok.mp h
    obtain ⟨h4, -, h⟩ := bind_eq_ok.mp h
    obtain ⟨⟨ok, s1⟩, hregister, h⟩ := bind_eq_ok.mp h
    simp only [registerMnode, hdb] at hregister
    cases hregister
    obtain ⟨h5, -, h⟩ := bind_eq_ok.mp h
    cases h
    rfl

theorem destroyMnode_db (hdb : s.db = none) (h : destroyMnode s node = Except.ok s') :
    s'.db = none := by
  obtain ⟨-, -, h⟩ := bind_eq_ok.mp h
  obtain ⟨magic, -, h⟩ := bind_eq_ok.mp h
  obtain ⟨-, -, h⟩ := bind_eq_ok.mp h
  obtain ⟨debug, -, h⟩ := bind_eq_ok.mp h
  split at h
  · obtain ⟨s1, hunregister, h⟩ := bind_eq_ok.mp h
    simp only [unregisterMnode, hdb] at hunregister
    cases hunregister
  · obtain ⟨s1, hs1, h⟩ := bind_eq_ok.mp h
    obtain ⟨h1, -, h⟩ := bind_eq_ok.mp h
    cases hs1
    cases h
    exact hdb

theorem heapCall_db {call : Call} {r : ℕ} (hdb : s.db = none)
    (h : heapCall env s call = Except.ok (r, s')) : s'.db = none := by
  cases call with
  | malloc size =>
    obtain ⟨⟨node, s1⟩, hcreate, h⟩ := bind_eq_ok.mp h
    have hs1 := createMnode_db hdb hcreate
    dsimp only at h
    split at h
    · cases h
      exact hs1
    · obtain ⟨addr, -, h⟩ := bind_eq_ok.mp h
      cases h
      exact hs1
  | calloc count size =>
    obtain ⟨⟨node, s1⟩, hcreate, h⟩ := bind_eq_ok.mp h
    have hs1 := createMnode_db hdb hcreate
    dsimp only at h
    split at h
    · cases h
      exact hs1
    · obtain ⟨addr, -, h⟩ := bind_eq_ok.mp h
      obtain ⟨h1, -, h⟩ := bind_eq_ok.mp h
      cases h
      exact hs1
  | realloc ptr size =>
    obtain ⟨⟨node, s1⟩, hcreate, h⟩ := bind_eq_ok.mp h
    have hs1 := createMnode_db hdb hcreate
    dsimp only at h
    split at h
    · cases h
      exact hs1
    · obtain ⟨s2, hmove, h⟩ := bind_eq_ok.mp h
      obtain ⟨addr, -, h⟩ := bind_eq_ok.mp h
      cases h
      unfold moveMnode at hmove
      split at hmove
      · cases hmove
        exact hs1
      · obtain ⟨old, -, hmove⟩ := bind_eq_ok.mp hmove
        obtain ⟨newSize, -, hmove⟩ := bind_eq_ok.mp hmove
        obtain ⟨oldSize, -, hmove⟩ := bind_eq_ok.mp hmove
        obtain ⟨h1, -, hmove⟩ := bind_eq_ok.mp hmove
        exact destroyMnode_db (s := { s1 with heap := h1 }) hs1 hmove
  | free ptr =>
    obtain ⟨s1, hfree, h⟩ := bind_eq_ok.mp h
    cases h
    obtain ⟨node, -, hfree⟩ := bind_eq_ok.mp hfree
    exact destroyMnode_db hdb hfree
  | write ptr i byte =>
    obtain ⟨h1, -, h⟩ := bind_eq_ok.mp h
    cases h
    exact hdb

/-- The debug object is never made: its list would be one without a pool. -/
theorem createDebug_none {db : Option Debug} {n : ℕ} (h : createDebug env s n = Except.ok (db, s')) :
    db = none := by
  obtain ⟨⟨node, s1⟩, -, h⟩ := bind_eq_ok.mp h
  dsimp only at h
  split at h
  · cases h
    rfl
  · split at h
    · cases h
      rfl
    · split at h
      · cases h
        rfl
      · split at h
        · cases h
          rfl
        · next hcreate =>
          cases (createList_unpooled ..).symm.trans (congrArg Prod.fst hcreate)

/-- What calls lead to after `hcore_init_debug`. -/
inductive AfterInit (env : Env) : State → Prop
  | init {s s' : State} (h : initDebug env s = Except.ok s') : AfterInit env s'
  | call {s s' : State} {call : Call} {r : ℕ} (h : AfterInit env s)
      (hcall : heapCall env s call = Except.ok (r, s')) : AfterInit env s'

/-- The debug object accounts for these nodes: their addresses and sizes. -/
def Accounts (s : State) (nodes : List (ℕ × ℕ)) : Prop :=
  ∃ db items, s.db = some db ∧ contents db.mlist = some items ∧
    items.Perm (nodes.map Prod.fst) ∧
    toUInt64 ((db.allocedNum : ℤ) - db.freeNum) = nodes.length ∧
    toUInt64 ((db.totalAllocedSize : ℤ) - db.totalFreeSize) = (nodes.map Prod.snd).sum

theorem AfterInit.db (h : AfterInit env s) : s.db = none := by
  induction h with
  | init h =>
    obtain ⟨⟨db, s1⟩, hcreate, h⟩ := bind_eq_ok.mp h
    cases h
    exact createDebug_none hcreate
  | call _ hcall ih => exact heapCall_db ih hcall

/-- After `hcore_init_debug` no sequence of calls is ever accounted for. -/
theorem never_accounts (h : AfterInit env s) (nodes : List (ℕ × ℕ)) : ¬ Accounts s nodes := by
  rintro ⟨db, items, hdb, -⟩
  rw [h.db] at hdb
  cases hdb

/-- The words in front of a block of `size` bytes, without a debug object. -/
structure IsMnode (mem : ℕ → UInt8) (node size : ℕ) : Prop where
  magic : wordAt mem (node + magicOffset) = debugMagicNum
  size : wordAt mem (node + sizeOffset) = size
  addr : wordAt mem (node + addrOffset) = node + mnodeSize
  debug : wordAt mem (node + debugOffset) = 0

theorem IsMnode.congr {mem mem' : ℕ → UInt8} (h : IsMnode mem node size)
    (hsame : ∀ i < mnodeSize, mem' (node + i) = mem (node + i)) : IsMnode mem' node size := by
  have hword (offset : ℕ) (hle : offset + 8 ≤ mnodeSize) :
      wordAt mem' (node + offset) = wordAt mem (node + offset) := by
    apply wordAt_congr
    intro i hi
    rw [Nat.add_assoc]
    exact hsame _ (by omega)
  exact ⟨(hword _ (by decide)).trans h.magic, (hword _ (by decide)).trans h.size,
    (hword _ (by decide)).trans h.addr, (hword _ (by decide)).trans h.debug⟩

/-- The header of a new node. -/
def headerOf (mem : ℕ → UInt8) (node size : ℕ) (name : Name) : ℕ → UInt8 :=
  let mem := writeAt mem node (List.replicate mnodeSize 0)
  let mem := writeAt mem (node + magicOffset) (encode64 debugMagicNum)
  let mem := writeAt mem node (encode64 name.pointer)
  let mem := writeAt mem (node + sizeOffset) (encode64 size)
  writeAt mem (node + addrOffset) (encode64 (node + mnodeSize))

theorem headerOf_other {mem : ℕ → UInt8} {x : ℕ} (hx : x < node ∨ node + mnodeSize ≤ x) :
    headerOf mem node size name x = mem x := by
  unfold mnodeSize at hx
  unfold headerOf addrOffset sizeOffset magicOffset mnodeSize
  rw [writeAt_other (by rw [encode64_length]; omega), writeAt_other (by rw [encode64_length]; omega),
    writeAt_other (by rw [encode64_length]; omega), writeAt_other (by rw [encode64_length]; omega),
    writeAt_other (by rw [List.length_replicate]; omega)]

theorem headerOf_isMnode {mem : ℕ → UInt8} (hsize : size < 2 ^ 64) (hnode : node + mnodeSize < 2 ^ 64) :
    IsMnode (headerOf mem node size name) node size := by
  unfold mnodeSize at hnode
  refine ⟨?_, ?_, ?_, ?_⟩ <;>
    simp only [headerOf, addrOffset, sizeOffset, magicOffset, debugOffset, mnodeSize]
  · rw [wordAt_other (by rw [encode64_length]; omega), wordAt_other (by rw [encode64_length]; omega),
      wordAt_other (by rw [encode64_length]; omega), wordAt_same (by decide)]
  · rw [wordAt_other (by rw [encode64_length]; omega), wordAt_same hsize]
  · rw [wordAt_same hnode]
  · rw [wordAt_other (by rw [encode64_length]; omega), wordAt_other (by rw [encode64_length]; omega),
      wordAt_other (by rw [encode64_length]; omega), wordAt_other (by rw [encode64_length]; omega)]
    apply wordAt_zero
    intro i hi
    have hlt : 48 + i < (List.replicate 56 (0 : UInt8)).length := by
      rw [List.length_replicate]
      omega
    rw [Nat.add_assoc, writeAt_same hlt, List.getElem_replicate]

/-- A new node, in a block of its own. -/
structure Made (h h' : Heap) (node size : ℕ) : Prop where
  fits : Fits h.live node (mnodeSize + size)
  live : h'.live = ⟨h.calls, node, mnodeSize + size⟩ :: h.live
  keep : ∀ x, x < node ∨ node + (mnodeSize + size) ≤ x → h'.mem x = h.mem x
  words : IsMnode h'.mem node size

theorem registerMnode_none (hdb : s.db = none) :
    registerMnode env s node size = Except.ok (true, s) := by
  unfold registerMnode
  rw [hdb]
  rfl

/-- Without a debug object a node is made in one block, or there is no memory. -/
theorem createMnode_makes (env : Env) (name : Name) (hdb : s.db = none) (hsize : size ≠ 0)
    (hfit : mnodeSize + size < 2 ^ 64) :
    ∃ r s', createMnode env s name size = Except.ok (r, s') ∧ s'.db = none ∧
      ((r = 0 ∧ s'.heap.live = s.heap.live ∧ s'.heap.mem = s.heap.mem) ∨
        (r ≠ 0 ∧ Made s.heap s'.heap r size)) := by
  rcases hmalloc : malloc env.alloc s.heap (mnodeSize + size) with ⟨node, h1⟩
  rcases malloc_cases hmalloc with ⟨rfl, rfl⟩ | ⟨hfits, hlive, -, hkeep⟩
  · refine ⟨0, { s with heap := { s.heap with calls := s.heap.calls + 1 } }, ?_, hdb,
      Or.inl ⟨rfl, rfl, rfl⟩⟩
    unfold createMnode
    rw [assertion_of hsize, ok_bind, toUInt64_of_lt hfit, hmalloc]
    rfl
  · have hpos := hfits.pos
    have htop := hfits.top
    have hown (a n : ℕ) (hle : node ≤ a) (hend : a + n ≤ node + (mnodeSize + size)) : h1.Owns a n :=
      ⟨⟨s.heap.calls, node, mnodeSize + size⟩, by rw [hlive]; exact List.mem_cons_self,
        hle, hend⟩
    refine ⟨node, { s with heap := h1.withMem (headerOf h1.mem node size name) }, ?_, hdb,
      Or.inr ⟨hpos.ne', hfits, hlive, ?_, ?_⟩⟩
    · unfold createMnode
      rw [assertion_of hsize, ok_bind, toUInt64_of_lt hfit, hmalloc]
      dsimp only
      rw [if_neg hpos.ne']
      refine bind_of_ok (memzero_of_owns (hown _ _ (le_refl _) (by omega))) ?_
      refine bind_of_ok (store64_of_owns (hown _ _ (by omega) ?_)) ?_
      · unfold magicOffset mnodeSize
        omega
      refine bind_of_ok (store64_of_owns (hown _ _ (le_refl _) ?_)) ?_
      · unfold mnodeSize
        omega
      refine bind_of_ok (store64_of_owns (hown _ _ (by omega) ?_)) ?_
      · unfold sizeOffset mnodeSize
        omega
      refine bind_of_ok (registerMnode_none hdb) ?_
      refine bind_of_ok (store64_of_owns (hown _ _ (by omega) ?_)) rfl
      unfold addrOffset mnodeSize
      omega
    · intro x hx
      rw [Heap.withMem_mem, headerOf_other (by omega), hkeep x hx]
    · exact headerOf_isMnode (by omega) (by omega)

theorem load64_field (hown : s.heap.Owns node (mnodeSize + size)) {offset : ℕ}
    (hle : offset + 8 ≤ mnodeSize) :
    load64 s.heap (node + offset) = Except.ok (wordAt s.heap.mem (node + offset)) :=
  load64_of_owns (hown.mono (by omega) (by omega))

/-- A node without a debug object is only freed. -/
theorem destroyMnode_frees {id : ℕ} (hdb : s.db = none)
    (hb : (⟨id, node, mnodeSize + size⟩ : Block) ∈ s.heap.live)
    (hwords : IsMnode s.heap.mem node size) :
    ∃ s', destroyMnode s node = Except.ok s' ∧ s'.db = none ∧ s'.heap.mem = s.heap.mem ∧
      ∀ c, c ∈ s'.heap.live ↔ c ∈ s.heap.live ∧ c ≠ ⟨id, node, mnodeSize + size⟩ := by
  have hpos : node ≠ 0 := (s.heap.inRange _ hb).1.ne'
  have hown : s.heap.Owns node (mnodeSize + size) := ⟨_, hb, le_refl _, le_refl _⟩
  obtain ⟨h', hfree, hmem, -, hlive⟩ := free_live hb
  refine ⟨{ s with heap := h' }, ?_, hdb, hmem, hlive⟩
  unfold destroyMnode
  refine bind_of_ok (assertion_of hpos) ?_
  refine bind_of_ok (load64_field hown (by decide)) ?_
  refine bind_of_ok (assertion_of hwords.magic) ?_
  refine bind_of_ok (load64_field hown (by decide)) ?_
  rw [hwords.debug, if_neg (by decide)]
  exact bind_of_ok rfl (bind_of_ok hfree rfl)

end

end HCore.DebugHeap
