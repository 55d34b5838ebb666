import HCore.CHeap

/-!
The memory pool, with its structures in the memory that it manages: a pool
block starts with `hcore_pool_t`, blocks behind it form a chain, and records of
large blocks and of cleanup handlers lie in blocks of the pool. A walk along a
list in memory that takes more steps than there are addresses never ends. What
the pool obtains and releases, and the handlers it runs, are logged in order.
-/

namespace HCore.PoolModel

open Machine LittleEndian CHeap

/-- Requests are logged by their numbers. -/
inductive Event
  | obtained (id : ℕ)
  | released (id : ℕ)
  | ran (handler data : ℕ)
  deriving DecidableEq, Repr

structure Proc where
  heap : Heap
  log : List Event

/-- What the pool relies on: the allocator, the size of a page, and the
functions of a custom pool at their addresses. -/
structure Env where
  alloc : Allocator
  pagesize : ℕ
  pagesize_pos : 0 < pagesize
  customAlloc : (fn pool size : ℕ) → Heap → ℕ × Heap
  customFree : (fn pool p : ℕ) → Heap → Exec Heap
  customDestroy : (fn pool : ℕ) → Heap → Exec Heap

/-- `sizeof(hcore_pool_t)`, `sizeof(hcore_pool_data_t)`,
`sizeof(hcore_pool_large_t)` and `sizeof(hcore_pool_cleanup_t)` -/
def poolSize : ℕ := 120
def poolDataSize : ℕ := 32
def largeSize : ℕ := 16
def cleanupSize : ℕ := 24

/-- The fields of `hcore_pool_t`; those of a custom pool come first. -/
def customPoolOffset : ℕ := 0
def customAllocOffset : ℕ := 8
def customFreeOffset : ℕ := 16
def customDestroyOffset : ℕ := 24
def lastOffset : ℕ := 32
def endOffset : ℕ := 40
def nextOffset : ℕ := 48
def failedOffset : ℕ := 56
def maxOffset : ℕ := 64
def currentOffset : ℕ := 72
def largeOffset : ℕ := 80
def cleanupOffset : ℕ := 104
def customedOffset : ℕ := 112

/-- More steps than a list in memory has addresses. -/
def addresses : ℕ := 2 ^ 64

/-- `hcore_align_ptr(p, HCORE_ALIGNMENT)` -/
def alignPtr (p : ℕ) : ℕ := (p + 7) % 2 ^ 64 / 8 * 8

/-- A load, and a store, in the process. -/
def Proc.load (s : Proc) (a : ℕ) : Exec ℕ := load64 s.heap a

def Proc.store (s : Proc) (a v : ℕ) : Exec Proc := do
  let heap ← store64 s.heap a v
  pure { s with heap }

/-- `hcore_memalign` and `hcore_malloc`. -/
def hcoreMalloc (env : Env) (s : Proc) (size : ℕ) : ℕ × Proc :=
  match malloc env.alloc s.heap size with
  | (p, heap) => (p, ⟨heap, if p = 0 then s.log else s.log ++ [.obtained s.heap.calls]⟩)

/-- `hcore_free` -/
def hcoreFree (s : Proc) (p : ℕ) : Exec Proc := do
  let heap ← free s.heap p
  pure ⟨heap, s.log ++ ((s.heap.live.filter (·.addr = p)).map fun b => .released b.id)⟩

/-- `p->customed` -/
def customed (s : Proc) (pool : ℕ) : Exec Bool := do
  let flags ← s.load (pool + customedOffset)
  pure (flags % 2 = 1)

/-- `hcore_create_pool` -/
def createPool (env : Env) (s : Proc) (size : ℕ) : Exec (ℕ × Proc) := do
  let (p, s) := hcoreMalloc env s size
  if p = 0 then pure (0, s)
  else do
    let s ← s.store (p + lastOffset) (p + poolSize)
    let s ← s.store (p + endOffset) (p + size)
    let s ← s.store (p + nextOffset) 0
    let s ← s.store (p + failedOffset) 0
    let room := toUInt64 ((size : ℤ) - poolSize)
    let s ← s.store (p + maxOffset) (if room < env.pagesize - 1 then room else env.pagesize - 1)
    let s ← s.store (p + currentOffset) p
    let s ← s.store (p + largeOffset) 0
    let s ← s.store (p + cleanupOffset) 0
    let flags ← s.load (p + customedOffset)
    let s ← s.store (p + customedOffset) (flags / 2 * 2)
    pure (p, s)

/-- `hcore_create_custom_pool`; the functions and their pool are not NULL. -/
def createCustomPool (env : Env) (s : Proc) (pool alloc free destroy : ℕ) : Exec (ℕ × Proc) :=
  if pool = 0 ∨ alloc = 0 ∨ free = 0 ∨ destroy = 0 then pure (0, s)
  else do
    let (p, s) ← createPool env s poolSize
    if p = 0 then pure (0, s)
    else do
      let s ← s.store (p + customPoolOffset) pool
      let s ← s.store (p + customAllocOffset) alloc
      let s ← s.store (p + customFreeOffset) free
      let s ← s.store (p + customDestroyOffset) destroy
      let flags ← s.load (p + customedOffset)
      let s ← s.store (p + customedOffset) (flags / 2 * 2 + 1)
      pure (p, s)

/-- The loop of `hcore_palloc_block` to the end of the chain: every block that
has failed too often moves `current` on. -/
def countFailed (pool : ℕ) (s : Proc) : ℕ → ℕ → Exec (ℕ × Proc)
  | 0, _ => outOfFuel
  | fuel + 1, p => do
    let next ← s.load (p + nextOffset)
    if next = 0 then pure (p, s)
    else do
      let failed ← s.load (p + failedOffset)
      let s ← s.store (p + failedOffset) (failed + 1)
      let s ← if 4 < failed then s.store (pool + currentOffset) next else pure s
      countFailed pool s fuel next

/-- `hcore_palloc_block` -/
def pallocBlock (env : Env) (s : Proc) (pool size : ℕ) : Exec (ℕ × Proc) := do
  let last ← s.load (pool + endOffset)
  let psize := toUInt64 ((last : ℤ) - pool)
  let (new, s) := hcoreMalloc env s psize
  if new = 0 then pure (0, s)
  else do
    let s ← s.store (new + endOffset) (new + psize)
    let s ← s.store (new + nextOffset) 0
    let s ← s.store (new + failedOffset) 0
    let m := alignPtr (new + poolDataSize)
    let s ← s.store (new + lastOffset) (m + size)
    let current ← s.load (pool + currentOffset)
    let (p, s) ← countFailed pool s addresses current
    let s ← s.store (p + nextOffset) new
    pure (m, s)

/-- The loop of `hcore_palloc_small`: the blocks from `p` on. -/
def findRoom (s : Proc) (size : ℕ) (align : Bool) : ℕ → ℕ → Exec (Option (ℕ × Proc))
  | 0, _ => outOfFuel
  | fuel + 1, p => do
    let last ← s.load (p + lastOffset)
    let m := if align then alignPtr last else last
    let bound ← s.load (p + endOffset)
    if size ≤ toUInt64 ((bound : ℤ) - m) then do
      let s ← s.store (p + lastOffset) (m + size)
      pure (some (m, s))
    else do
      let next ← s.load (p + nextOffset)
      if next = 0 then pure none else findRoom s size align fuel next

/-- `hcore_palloc_small` -/
def pallocSmall (env : Env) (s : Proc) (pool size : ℕ) (align : Bool) : Exec (ℕ × Proc) := do
  let current ← s.load (pool + currentOffset)
  match ← findRoom s size align addresses current with
  | some r => pure r
  | none => pallocBlock env s pool size

/-- The first of the next `n` records from `large` on that is not in use; NULL
if there is none. -/
def freeRecord (s : Proc) : ℕ → ℕ → Exec ℕ
  | 0, _ => pure 0
  | n + 1, large =>
    if large = 0 then pure 0
    else do
      let alloc ← s.load (large + 8)
      if alloc = 0 then pure large
      else do
        let next ← s.load large
        freeRecord s n next

/-- `hcore_palloc_large`: the search gives up behind the fifth record. -/
def pallocLarge (env : Env) (s : Proc) (pool size : ℕ) : Exec (ℕ × Proc) := do
  let (p, s) := hcoreMalloc env s size
  if p = 0 then pure (0, s)
  else do
    let head ← s.load (pool + largeOffset)
    let unused ← freeRecord s 5 head
    if unused ≠ 0 then do
      let s ← s.store (unused + 8) p
      pure (p, s)
    else do
      let (large, s) ← pallocSmall env s pool largeSize true
      if large = 0 then do
        let s ← hcoreFree s p
        pure (0, s)
      else do
        let s ← s.store (large + 8) p
        let head ← s.load (pool + largeOffset)
        let s ← s.store large head
        let s ← s.store (pool + largeOffset) large
        pure (p, s)

/-- `hcore_pnalloc`, which is `hcore_palloc` too. -/
def pnalloc (env : Env) (s : Proc) (pool size : ℕ) : Exec (ℕ × Proc) := do
  if ← customed s pool then do
    let fn ← s.load (pool + customAllocOffset)
    let custom ← s.load (pool + customPoolOffset)
    let (p, heap) := env.customAlloc fn custom size s.heap
    pure (p, { s with heap })
  else do
    let max ← s.load (pool + maxOffset)
    if size ≤ max then pallocSmall env s pool size false else pallocLarge env s pool size

/-- `hcore_pcalloc` -/
def pcalloc (env : Env) (s : Proc) (pool size : ℕ) : Exec (ℕ × Proc) := do
  let (p, s) ← pnalloc env s pool size
  if p = 0 then pure (0, s)
  else do
    let heap ← memzero s.heap p size
    pure (p, { s with heap })

/-- The loop of `hcore_pfree`: whether there is a record of `p`. -/
def freeLarge (s : Proc) (p : ℕ) : ℕ → ℕ → Exec (Bool × Proc)
  | 0, _ => outOfFuel
  | fuel + 1, large =>
    if large = 0 then pure (false, s)
    else do
      let alloc ← s.load (large + 8)
      if p = alloc then do
        let s ← hcoreFree s alloc
        let s ← s.store (large + 8) 0
        pure (true, s)
      else do
        let next ← s.load large
        freeLarge s p fuel next

/-- `hcore_pfree`: whether it returns `HCORE_OK`. -/
def pfree (env : Env) (s : Proc) (pool p : ℕ) : Exec (Bool × Proc) := do
  if ← customed s pool then do
    let fn ← s.load (pool + customFreeOffset)
    let custom ← s.load (pool + customPoolOffset)
    let heap ← env.customFree fn custom p s.heap
    pure (true, { s with heap })
  else do
    let head ← s.load (pool + largeOffset)
    freeLarge s p addresses head

/-- The loop of `hcore_prealloc`: the block that ends where `p` does, if it has
room behind it. -/
def resizeLast (s : Proc) (p oldSize newSize : ℕ) : ℕ → ℕ → Exec (Option Proc)
  | 0, _ => outOfFuel
  | fuel + 1, node => do
    let last ← s.load (node + lastOffset)
    let bound ← s.load (node + endOffset)
    if toUInt64 (p + oldSize : ℕ) = last ∧ toUInt64 (p + newSize : ℕ) ≤ bound then do
      let s ← s.store (node + lastOffset) (p + newSize)
      pure (some s)
    else do
      let next ← s.load (node + nextOffset)
      if next = 0 then pure none else resizeLast s p oldSize newSize fuel next

/-- The end of `hcore_prealloc`: a block that shrinks stays where it is. -/
def moveBlock (env : Env) (s : Proc) (pool p oldSize newSize : ℕ) : Exec (ℕ × Proc) :=
  if newSize ≤ oldSize then pure (p, s)
  else do
    let (new, s) ← pnalloc env s pool newSize
    if new = 0 then pure (0, s)
    else do
      let heap ← memcpy s.heap new p oldSize
      let (_, s) ← pfree env { s with heap } pool p
      pure (new, s)

/-- `hcore_prealloc` -/
def prealloc (env : Env) (s : Proc) (pool p oldSize newSize : ℕ) : Exec (ℕ × Proc) :=
  if p = 0 then pnalloc env s pool newSize
  else if newSize = 0 then do
    let last ← s.load (pool + lastOffset)
    if toUInt64 (p + oldSize : ℕ) = last then do
      let s ← s.store (pool + lastOffset) p
      pure (0, s)
    else do
      let (_, s) ← pfree env s pool p
      pure (0, s)
  else do
    let max ← s.load (pool + maxOffset)
    if oldSize ≤ max then do
      match ← resizeLast s p oldSize newSize addresses pool with
      | some s => pure (p, s)
      | none => moveBlock env s pool p oldSize newSize
    else moveBlock env s pool p oldSize newSize

/-- `hcore_pool_cleanup_add` -/
def poolCleanupAdd (env : Env) (s : Proc) (pool dataSize : ℕ) : Exec (ℕ × Proc) := do
  let (c, s) ← pnalloc env s pool cleanupSize
  if c = 0 then pure (0, s)
  else do
    let (data, s) ← if dataSize ≠ 0 then pnalloc env s pool dataSize else pure (0, s)
    let s ← s.store (c + 8) data
    if dataSize ≠ 0 ∧ data = 0 then pure (0, s)
    else do
      let s ← s.store c 0
      let head ← s.load (pool + cleanupOffset)
      let s ← s.store (c + 16) head
      let s ← s.store (pool + cleanupOffset) c
      pure (c, s)

/-- The handlers are run, the one that was added last first. -/
def runCleanups (s : Proc) : ℕ → ℕ → Exec Proc
  | 0, _ => outOfFuel
  | fuel + 1, cleanup =>
    if cleanup = 0 then pure s
    else do
      let handler ← s.load cleanup
      let data ← s.load (cleanup + 8)
      let s := if handler = 0 then s else { s with log := s.log ++ [.ran handler data] }
      let next ← s.load (cleanup + 16)
      runCleanups s fuel next

/-- The large blocks are released. -/
def releaseLarge (s : Proc) : ℕ → ℕ → Exec Proc
  | 0, _ => outOfFuel
  | fuel + 1, large =>
    if large = 0 then pure s
    else do
      let alloc ← s.load (large + 8)
      let s ← if alloc = 0 then pure s else hcoreFree s alloc
      let next ← s.load large
      releaseLarge s fuel next

/-- The chain is released from `p` on, with `n` behind it. -/
def releaseChain (s : Proc) : ℕ → ℕ → ℕ → Exec Proc
  | 0, _, _ => outOfFuel
  | fuel + 1, p, n => do
    let s ← hcoreFree s p
    if n = 0 then pure s
    else do
      let next ← s.load (n + nextOffset)
      releaseChain s fuel n next

/-- `hcore_destroy_pool` -/
def destroyPool (env : Env) (s : Proc) (pool : ℕ) : Exec Proc := do
  let cleanup ← s.load (pool + cleanupOffset)
  let s ← runCleanups s addresses cleanup
  if ← customed s pool then do
    let fn ← s.load (pool + customDestroyOffset)
    let custom ← s.load (pool + customPoolOffset)
    let heap ← env.customDestroy fn custom s.heap
    pure { s with heap }
  else do
    let large ← s.load (pool + largeOffset)
    let s ← releaseLarge s addresses large
    let next ← s.load (pool + nextOffset)
    releaseChain s addresses pool next

end HCore.PoolModel
