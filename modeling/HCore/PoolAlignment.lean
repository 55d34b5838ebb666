import HCore.PoolRuns

/-!
The alignment of what a pool hands out. `hcore_palloc` is another name of
`hcore_pnalloc`, which takes a small block from where the last one ended, so an
address is rounded up only in a new pool block; a large block has the alignment
of the allocator. Any history of requests may lie behind a request, and what
the callers have written.
-/

namespace HCore.PoolAlignment

open Machine CHeap PoolModel

/-- `HCORE_ALIGNMENT` -/
def alignment : ℕ := 8

/-- `hcore_palloc` -/
def palloc (env : Env) (s : Proc) (pool size : ℕ) : Exec (ℕ × Proc) := pnalloc env s pool size

inductive Request
  | pnalloc (n : ℕ)
  | palloc (n : ℕ)
  | pcalloc (n : ℕ)
  | prealloc (p oldSize newSize : ℕ)

namespace Request

def run (env : Env) (pool : ℕ) (s : Proc) : Request → Exec (ℕ × Proc)
  | pnalloc n => PoolModel.pnalloc env s pool n
  | palloc n => PoolAlignment.palloc env s pool n
  | pcalloc n => PoolModel.pcalloc env s pool n
  | prealloc p oldSize newSize => PoolModel.prealloc env s pool p oldSize newSize

/-- The requests whose answers are to be aligned, with their sizes. -/
def alignedSize : Request → Option ℕ
  | palloc n => some n
  | pcalloc n => some n
  | _ => none

end Request

/-- A request that a pool has answered, and the process in front of it. -/
structure Answer where
  request : Request
  before : Proc
  pointer : ℕ

/-- Runs of a pool that is not custom, with all answers. In between the callers
write anywhere in live memory. -/
inductive History (env : Env) (pool : ℕ) : Proc → List Answer → Prop
  | create {s s' : Proc} {size : ℕ} (hsize : poolSize ≤ size) (hround : alignment ∣ size)
      (hrun : createPool env s size = Except.ok (pool, s')) (hpool : pool ≠ 0) :
      History env pool s' []
  | request {s s' : Proc} {answers : List Answer} {p : ℕ} (r : Request)
      (h : History env pool s answers) (hplain : customed s pool = Except.ok false)
      (hrun : r.run env pool s = Except.ok (p, s')) :
      History env pool s' (⟨r, s, p⟩ :: answers)
  | write {s : Proc} {answers : List Answer} {a : ℕ} {bytes : List UInt8} {heap : Heap}
      (h : History env pool s answers) (hrun : store s.heap a bytes = Except.ok heap) :
      History env pool ⟨heap, s.log⟩ answers

/-- A word of the block at `p`. -/
def field (s : Proc) (p k : ℕ) : ℕ := wordAt s.heap.mem (p + k)

/-- There is room behind the last block in the block at `p`. -/
def HasRoom (s : Proc) (size p : ℕ) : Prop :=
  size ≤ toUInt64 ((field s p endOffset : ℤ) - field s p lastOffset)

/-- The first block with room in the chain from `p` on. -/
inductive FirstRoom (s : Proc) (size : ℕ) : ℕ → ℕ → Prop
  | here {p : ℕ} (hroom : HasRoom s size p) : FirstRoom s size p p
  | next {p q : ℕ} (hfull : ¬ HasRoom s size p) (hne : field s p nextOffset ≠ 0)
      (h : FirstRoom s size (field s p nextOffset) q) : FirstRoom s size p q

namespace Answer

def Aligned (a : Answer) : Prop := a.request.alignedSize ≠ none → alignment ∣ a.pointer

end Answer

section

variable {env : Env} {s s' : Proc} {pool size n p q q' fuel : ℕ}

theorem FirstRoom.unique (h : FirstRoom s size p q) (h' : FirstRoom s size p q') : q = q' := by
  induction h with
  | here hroom =>
    cases h' with
    | here => rfl
    | next hfull => exact absurd hroom hfull
  | next hfull hne h ih =>
    cases h' with
    | here hroom => exact absurd hroom hfull
    | next _ _ h' => exact ih h'

end

end HCore.PoolAlignment
