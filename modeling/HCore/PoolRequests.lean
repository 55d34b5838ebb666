import HCore.Machine

/-!
Memory pools and arrays as their callers see them. A pool is the sequence of
its answers: whether a request gets memory, and whether a full array can grow
where it lies. Blocks never overlap, so their contents are kept with their
owner. A slot of an array that has been pushed but not yet written is `none`.
-/

namespace HCore.PoolRequests

open Machine

structure Pool where
  /-- Whether the request with this number, of this size, gets memory. -/
  grants : ℕ → ℕ → Bool
  /-- Whether an array that is full at this time is the last block of the pool. -/
  inPlace : ℕ → Bool
  calls : ℕ

namespace Pool

def tick (pool : Pool) : Pool := { pool with calls := pool.calls + 1 }

/-- `hcore_palloc(pool, size)`: whether the result is not NULL. -/
def palloc (pool : Pool) (size : ℕ) : Bool × Pool := (pool.grants pool.calls size, pool.tick)

/-- Every request gets memory. -/
def Granting (pool : Pool) : Prop := ∀ i size, pool.grants i size = true

variable {pool : Pool}

theorem Granting.tick (h : pool.Granting) : pool.tick.Granting := h

theorem Granting.palloc (h : pool.Granting) (size : ℕ) :
    pool.palloc size = (true, pool.tick) := by rw [Pool.palloc, h]

end Pool

/-- A pool that always has memory, and never behind the last array. -/
def amplePool : Pool := ⟨fun _ _ => true, fun _ => false, 0⟩

theorem amplePool_granting : amplePool.Granting := fun _ _ => rfl

/-- `hcore_array_t`: `room` is the number of slots in the block of `elts`. -/
structure Slots (α : Type) where
  elts : List (Option α)
  nalloc : ℕ
  room : ℕ

variable {α : Type}

namespace Slots

def nelts (a : Slots α) : ℕ := a.elts.length

def setLast (a : Slots α) (v : α) : Slots α :=
  { a with elts := a.elts.dropLast ++ [some v] }

end Slots

/-- `sizeof(hcore_array_t)`. -/
def arraySize : ℕ := 40

/-- `hcore_array_create(pool, n, size)`. -/
def arrayCreate (pool : Pool) (n size : ℕ) : Option (Slots α) × Pool :=
  match pool.palloc arraySize with
  | (false, pool) => (none, pool)
  | (true, pool) =>
    match pool.palloc (n * size) with
    | (false, pool) => (none, pool)
    | (true, pool) => (some ⟨[], n, n⟩, pool)

/-- Make room in a full array, in place or in a block of twice the size. -/
def arrayGrow (pool : Pool) (a : Slots α) (size : ℕ) : Option (Slots α) × Pool :=
  if a.nelts = a.nalloc then
    if pool.inPlace pool.calls then
      (some { a with nalloc := toUInt32 (a.nalloc + 1 : ℕ), room := a.room + 1 }, pool.tick)
    else
      match pool.palloc (2 * (size * a.nalloc)) with
      | (false, pool) => (none, pool)
      | (true, pool) =>
        (some { a with nalloc := toUInt32 (2 * a.nalloc : ℕ), room := 2 * a.nalloc }, pool)
  else (some a, pool)

/-- `hcore_array_push`: the new slot lies outside the block if it is full. -/
def arrayPush (pool : Pool) (a : Slots α) (size : ℕ) : Exec (Option (Slots α) × Pool) :=
  match arrayGrow pool a size with
  | (none, pool) => pure (none, pool)
  | (some a, pool) =>
    if a.nelts < a.room then pure (some { a with elts := a.elts ++ [none] }, pool)
    else undefined

theorem arrayCreate_granting {pool : Pool} (h : pool.Granting) (n size : ℕ) :
    arrayCreate (α := α) pool n size = (some ⟨[], n, n⟩, pool.tick.tick) := by
  simp only [arrayCreate, h.palloc, h.tick.palloc]

/-- A push that finds a free slot asks for nothing. -/
theorem arrayPush_spare (pool : Pool) {a : Slots α} (size : ℕ) (hspare : a.nelts < a.nalloc)
    (hroom : a.nalloc ≤ a.room) :
    arrayPush pool a size = Except.ok (some { a with elts := a.elts ++ [none] }, pool) := by
  have hgrow : arrayGrow pool a size = (some a, pool) := if_neg (by omega)
  simp only [arrayPush, hgrow]
  exact if_pos (by omega)

end HCore.PoolRequests
