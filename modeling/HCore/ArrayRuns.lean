import HCore.DynamicArray

/-!
Runs of several arrays in one pool, in any order with other requests to it and
with the writes of the callers. As long as no growth wraps round and no request
takes a second block for the pool, every array has room for its elements, its
memory is its own, and what was written into an element is there.
-/

namespace HCore.ArrayRuns

open Machine CHeap PoolModel PoolService DynamicArray

/-- An array, and what was last written into each of its elements, if anything. -/
structure Held where
  arr : Arr
  vals : List (Option (List UInt8))

/-- The process, the arrays of one pool, and what else the pool has handed out. -/
structure World where
  proc : Proc
  arrays : List Held
  others : List Range

def blocks (arrays : List Held) : List Range := arrays.map fun h => h.arr.block

def World.items (w : World) : List Range := blocks w.arrays ++ w.others

/-- What the callers do; an array is given by its place in the list. -/
inductive Op
  | init (n size : ℕ)
  | push (i : ℕ)
  | pushN (i n : ℕ)
  | assign (i j : ℕ) (bytes : List UInt8)
  | palloc (n : ℕ)
  | pcalloc (n : ℕ)
  | prealloc (x : Range) (n : ℕ)
  | fill (x : Range) (k : ℕ) (bytes : List UInt8)

namespace Op

/-- The pointer that is returned, and the world after that; nothing if NULL is
returned for want of memory. -/
def run (env : Env) (pool : ℕ) (w : World) : Op → Exec (Option (ℕ × World))
  | init n size => do
    let (made, s) ← arrayInit env w.proc pool n size
    pure (made.map fun a => (a.elts, ⟨s, ⟨a, []⟩ :: w.arrays, w.others⟩))
  | push i =>
    match w.arrays[i]? with
    | none => undefined
    | some h => do
      let (pushed, s) ← arrayPush env w.proc h.arr
      pure (pushed.map fun r => (r.1, ⟨s, w.arrays.set i ⟨r.2, h.vals ++ [none]⟩, w.others⟩))
  | pushN i n =>
    match w.arrays[i]? with
    | none => undefined
    | some h => do
      let (pushed, s) ← arrayPushN env w.proc h.arr n
      pure (pushed.map fun r =>
        (r.1, ⟨s, w.arrays.set i ⟨r.2, h.vals ++ List.replicate n none⟩, w.others⟩))
  | assign i j bytes =>
    match w.arrays[i]? with
    | none => undefined
    | some h => do
      let heap ← store w.proc.heap (h.arr.elts + j * h.arr.size) bytes
      pure (some (0, ⟨⟨heap, w.proc.log⟩, w.arrays.set i ⟨h.arr, h.vals.set j (some bytes)⟩,
        w.others⟩))
  | palloc n => do
    let (p, s) ← pnalloc env w.proc pool n
    pure (if p = 0 then none else some (p, ⟨s, w.arrays, ⟨p, n⟩ :: w.others⟩))
  | pcalloc n => do
    let (p, s) ← PoolModel.pcalloc env w.proc pool n
    pure (if p = 0 then none else some (p, ⟨s, w.arrays, ⟨p, n⟩ :: w.others⟩))
  | prealloc x n => do
    let (p, s) ← PoolModel.prealloc env w.proc pool x.addr x.size n
    pure (if n ≠ 0 ∧ p = 0 then none
      else some (p, ⟨s, w.arrays, resized x (w.others.erase x) p n⟩))
  | fill x k bytes => do
    let heap ← store w.proc.heap (x.addr + k) bytes
    pure (some (0, ⟨⟨heap, w.proc.log⟩, w.arrays, w.others⟩))

/-- Counts have 32 bits and sizes 64. A write is one into an element that was
pushed, or into a block that the callers hold, and only these are resized. -/
def Valid (w : World) : Op → Prop
  | init n size => n < 2 ^ 32 ∧ size < 2 ^ 64
  | push i => i < w.arrays.length
  | pushN i n => i < w.arrays.length ∧ n < 2 ^ 32
  | assign i j bytes => ∃ h, w.arrays[i]? = some h ∧ j < h.arr.nelts ∧ bytes.length = h.arr.size
  | palloc n => n < 2 ^ 64
  | pcalloc n => n < 2 ^ 64
  | prealloc x n => x ∈ w.others ∧ n < 2 ^ 64
  | fill x k bytes => x ∈ w.others ∧ k + bytes.length ≤ x.size

/-- No size or count wraps round, and no request takes a second block for a
pool that `hcore_create_pool` has made. -/
def Fits (env : Env) (pool : ℕ) (w : World) : Op → Prop
  | init n size => n * size < 2 ^ 64 ∧ FitsPool env pool w.proc (n * size)
  | push i => ∀ h, w.arrays[i]? = some h → PushFits env w.proc h.arr
  | pushN i n => ∀ h, w.arrays[i]? = some h → PushNFits env w.proc h.arr n
  | palloc n => FitsPool env pool w.proc n
  | pcalloc n => FitsPool env pool w.proc n
  | prealloc x n => ResizeFitsPool env pool w.proc x n
  | _ => True

end Op

/-- The slots from `p` on are the last `n` of an array, and lie in its memory. -/
def LastSlots (w : World) (i n p : ℕ) : Prop :=
  ∃ h, w.arrays[i]? = some h ∧ n ≤ h.arr.nelts ∧
    p = h.arr.elts + (h.arr.nelts - n) * h.arr.size ∧
    p + n * h.arr.size ≤ h.arr.block.addr + h.arr.block.size

/-- A push returns the new slots. -/
def Op.Answers (w' : World) (p : ℕ) : Op → Prop
  | push i => LastSlots w' i 1 p
  | pushN i n => LastSlots w' i n p
  | _ => True

/-- The array has room for its elements, and these are what was written. -/
structure Held.Sound (pool : ℕ) (mem : ℕ → UInt8) (h : Held) : Prop where
  pool : h.arr.pool = pool
  bounds : h.arr.InBounds
  length : h.vals.length = h.arr.nelts
  written : ∀ (j : ℕ) (bytes : List UInt8), h.vals[j]? = some (some bytes) →
    readAt mem (h.arr.elts + j * h.arr.size) h.arr.size = bytes

/-- The arrays are sound, and what is handed out lies in live memory, apart
from one another. -/
structure World.Sound (pool : ℕ) (w : World) : Prop where
  arrays : ∀ h ∈ w.arrays, h.Sound pool w.proc.heap.mem
  apart : w.items.Pairwise Range.Apart
  owned : ∀ x ∈ w.items, w.proc.heap.Owns x.addr x.size

/-- Runs of a pool of either kind. -/
inductive Run (env : Env) (pool : ℕ) (allowed : World → Op → Prop) : World → Prop
  | create {s s' : Proc} {size : ℕ} (hsize : poolSize ≤ size) (hlog : s.log = [])
      (hrun : createPool env s size = Except.ok (pool, s')) (hpool : pool ≠ 0) :
      Run env pool allowed ⟨s', [], []⟩
  | createCustom {s s' : Proc} (fns : Functions) (J : Heap → List Range → Prop)
      (hcustom : CustomPool env pool fns J)
      (hrun : createCustomPool env s fns.pool fns.alloc fns.free fns.destroy =
        Except.ok (pool, s')) (hpool : pool ≠ 0) (hJ : J s'.heap []) :
      Run env pool allowed ⟨s', [], []⟩
  | step {w w' : World} {p : ℕ} (op : Op) (h : Run env pool allowed w) (hvalid : op.Valid w)
      (hallowed : allowed w op) (hrun : op.run env pool w = Except.ok (some (p, w'))) :
      Run env pool allowed w'

/-- The pool is in order. -/
structure Ordered (pool : ℕ) (Inv : Proc → List Range → Prop) (w : World) : Prop where
  inv : Inv w.proc w.items
  arrays : ∀ h ∈ w.arrays, h.Sound pool w.proc.heap.mem

section

variable {env : Env} {pool n p i : ℕ} {s s' : Proc} {Inv : Proc → List Range → Prop}
  {w w' : World} {items : List Range} {h : Held} {mem mem' : ℕ → UInt8}

/-- An element lies in front of the next ones. -/
theorem slot_le {j k : ℕ} (size : ℕ) (hj : j < k) : j * size + size ≤ k * size := by
  calc j * size + size = (j + 1) * size := (Nat.succ_mul j size).symm
    _ ≤ k * size := Nat.mul_le_mul_right _ hj

/-- The array is sound as long as its memory is kept. -/
theorem Held.Sound.frame (hsound : h.Sound pool mem) (hkept : h.arr.block.Kept mem mem') :
    h.Sound pool mem' := by
  refine ⟨hsound.pool, hsound.bounds, hsound.length, fun j bytes hj => ?_⟩
  obtain ⟨hlt, -⟩ := List.getElem?_eq_some_iff.mp hj
  rw [hsound.length] at hlt
  have hslot := slot_le h.arr.size (hlt.trans_le hsound.bounds.count)
  refine Eq.trans (readAt_congr fun k hk => hkept _ ?_ ?_) (hsound.written j bytes hj)
  · exact (Nat.le_add_right _ _).trans (Nat.le_add_right _ _)
  · show h.arr.elts + j * h.arr.size + k < h.arr.elts + h.arr.nalloc * h.arr.size
    omega

/-- A new array has no elements. -/
theorem Held.Sound.empty {a : Arr} (hpool : a.pool = pool) (hcount : a.nelts = 0)
    (hbounds : a.InBounds) : Held.Sound pool mem ⟨a, []⟩ :=
  ⟨hpool, hbounds, hcount.symm, fun j bytes hj => by cases hj⟩

/-- The new slots of a push are behind what was written. -/
theorem Held.Sound.pushed {a' : Arr} {elt : ℕ} (hsound : h.Sound pool s.heap.mem)
    (hpush : Pushed Inv items s s' h.arr a' n elt) :
    Held.Sound pool s'.heap.mem ⟨a', h.vals ++ List.replicate n none⟩ := by
  refine ⟨hpush.pool.trans hsound.pool, hpush.bounds, ?_, fun j bytes hj => ?_⟩
  · rw [List.length_append, List.length_replicate, hsound.length]
    exact hpush.nelts.symm
  · dsimp only at hj ⊢
    have hold : h.vals[j]? = some (some bytes) := by
      by_cases hlt : j < h.vals.length
      · rwa [List.getElem?_append_left hlt] at hj
      · rw [List.getElem?_append_right (by omega)] at hj
        obtain ⟨_, hnone⟩ := List.getElem?_eq_some_iff.mp hj
        rw [List.getElem_replicate] at hnone
        cases hnone
    obtain ⟨hlt, -⟩ := List.getElem?_eq_some_iff.mp hold
    rw [hsound.length] at hlt
    have hslot := slot_le h.arr.size hlt
    rw [hpush.size, ← hsound.written j bytes hold]
    refine List.map_congr_left fun k hk => ?_
    rw [List.mem_range] at hk
    have hmoved := hpush.moved (j * h.arr.size + k) (by omega)
    rwa [← Nat.add_assoc, ← Nat.add_assoc] at hmoved

/-- Bytes are written into one element. -/
theorem Held.Sound.assigned {j : ℕ} {bytes : List UInt8} (hsound : h.Sound pool mem)
    (hj : j < h.arr.nelts) (hlen : bytes.length = h.arr.size) :
    Held.Sound pool (writeAt mem (h.arr.elts + j * h.arr.size) bytes)
      ⟨h.arr, h.vals.set j (some bytes)⟩ := by
  refine ⟨hsound.pool, hsound.bounds, ?_, fun k old hk => ?_⟩
  · rw [List.length_set]
    exact hsound.length
  · dsimp only at hk ⊢
    by_cases heq : j = k
    · subst heq
      rw [List.getElem?_set_self (by rwa [hsound.length])] at hk
      obtain rfl := Option.some.inj (Option.some.inj hk)
      rw [← hlen]
      exact readAt_writeAt
    · rw [List.getElem?_set_ne heq] at hk
      refine Eq.trans (readAt_congr fun x hx => writeAt_other ?_) (hsound.written k old hk)
      rcases Nat.lt_or_gt_of_ne heq with hlt | hlt
      · have hle := slot_le h.arr.size hlt
        omega
      · have hle := slot_le h.arr.size hlt
        omega

/-- One of the arrays, and what is left without it. -/
theorem split_arrays {arrays : List Held} (hi : arrays[i]? = some h) :
    ∃ pre post, arrays = pre ++ h :: post ∧ ∀ h', arrays.set i h' = pre ++ h' :: post := by
  obtain ⟨hlt, rfl⟩ := List.getElem?_eq_some_iff.mp hi
  refine ⟨arrays.take i, arrays.drop (i + 1), ?_, fun h' => ?_⟩
  · rw [List.cons_getElem_drop_succ, List.take_append_drop]
  · rw [List.set_eq_take_append_cons_drop, if_pos hlt]

theorem items_middle (pre post : List Held) (h : Held) (others : List Range) :
    (blocks (pre ++ h :: post) ++ others).Perm
      (h.arr.block :: (blocks (pre ++ post) ++ others)) := by
  have hperm : (blocks (pre ++ h :: post)).Perm (h.arr.block :: blocks (pre ++ post)) := by
    unfold blocks
    rw [List.map_append, List.map_cons, List.map_append]
    exact List.perm_middle
  exact hperm.append_right others

theorem mem_blocks {arrays : List Held} (hh : h ∈ arrays) : h.arr.block ∈ blocks arrays :=
  List.mem_map_of_mem hh

/-- The arrays are sound as long as everything handed out is kept. -/
theorem Ordered.sound_of_kept (ho : Ordered pool Inv w) {s' : Proc}
    (hkept : ItemsKept w.proc s' w.items) : ∀ h ∈ w.arrays, h.Sound pool s'.heap.mem :=
  fun h hh => (ho.arrays h hh).frame (hkept _ (List.mem_append_left _ (mem_blocks hh)))

/-- Another array in the place of one, when the rest is kept. -/
theorem Ordered.replace {h' : Held} (hs : Serves env pool Inv) (ho : Ordered pool Inv w)
    (hi : w.arrays[i]? = some h)
    (hstep : ∀ items, Inv w.proc (h.arr.block :: items) → Inv s' (h'.arr.block :: items) ∧
      ItemsKept w.proc s' items)
    (hsound : h'.Sound pool s'.heap.mem) :
    Ordered pool Inv ⟨s', w.arrays.set i h', w.others⟩ := by
  obtain ⟨pre, post, hsplit, hset⟩ := split_arrays hi
  have hperm := items_middle pre post h w.others
  rw [← hsplit] at hperm
  obtain ⟨hinv, hkept⟩ := hstep _ (hs.perm ho.inv hperm)
  refine ⟨?_, fun g hg => ?_⟩
  · refine hs.perm hinv (List.Perm.symm ?_)
    show (blocks (w.arrays.set i h') ++ w.others).Perm _
    rw [hset]
    exact items_middle pre post h' w.others
  · dsimp only at hg
    rw [hset] at hg
    rcases List.mem_append.mp hg with hmem | hmem
    · refine (ho.arrays g ?_).frame (hkept _ (List.mem_append_left _ (mem_blocks ?_)))
      · rw [hsplit]
        exact List.mem_append_left _ hmem
      · exact List.mem_append_left _ hmem
    · rcases List.mem_cons.mp hmem with rfl | hmem
      · exact hsound
      · refine (ho.arrays g ?_).frame (hkept _ (List.mem_append_left _ (mem_blocks ?_)))
        · rw [hsplit]
          exact List.mem_append_right _ (List.mem_cons_of_mem _ hmem)
        · exact List.mem_append_right _ hmem

/-- One of the arrays in a pool that is in order. -/
theorem Ordered.array (hs : Serves env pool Inv) (ho : Ordered pool Inv w)
    (hi : w.arrays[i]? = some h) :
    h.Sound pool w.proc.heap.mem ∧ ∃ items, Inv w.proc (h.arr.block :: items) := by
  obtain ⟨pre, post, hsplit, -⟩ := split_arrays hi
  have hperm := items_middle pre post h w.others
  rw [← hsplit] at hperm
  exact ⟨ho.arrays h (List.mem_of_getElem? hi), _, hs.perm ho.inv hperm⟩

/-- The new slots are the last ones of the array. -/
theorem lastSlots_of_pushed {a a' : Arr} {elt : ℕ} {vals : List (Option (List UInt8))}
    (hpush : Pushed Inv items s s' a a' n elt) (hi : i < w.arrays.length) :
    LastSlots ⟨s', w.arrays.set i ⟨a', vals⟩, w.others⟩ i n elt := by
  have hcount := hpush.nelts
  refine ⟨⟨a', vals⟩, List.getElem?_set_self hi, ?_, ?_, ?_⟩
  · dsimp only
    omega
  · dsimp only
    rw [hcount, hpush.size, Nat.add_sub_cancel]
    exact hpush.slot
  · have hle := used_le hpush.bounds.count
    rw [hcount, Nat.add_mul] at hle
    rw [hpush.slot, ← hpush.size]
    show a'.elts + a.nelts * a'.size + n * a'.size ≤ a'.elts + a'.nalloc * a'.size
    omega

/-- A push, of one slot or of several. -/
theorem Ordered.push {pushing : Exec (Option (ℕ × Arr) × Proc)} (hs : Serves env pool Inv)
    (ho : Ordered pool Inv w) (hi : w.arrays[i]? = some h)
    (hpush : ∀ items, Inv w.proc (h.arr.block :: items) →
      ∃ pushed s', pushing = Except.ok (pushed, s') ∧ ∀ elt a', pushed = some (elt, a') →
        Pushed Inv items w.proc s' h.arr a' n elt) :
    ∃ pushed s', pushing = Except.ok (pushed, s') ∧
      ∀ p w', (pushed.map fun r =>
          (r.1, World.mk s' (w.arrays.set i ⟨r.2, h.vals ++ List.replicate n none⟩) w.others)) =
        some (p, w') → Ordered pool Inv w' ∧ LastSlots w' i n p := by
  obtain ⟨hlt, -⟩ := List.getElem?_eq_some_iff.mp hi
  obtain ⟨hsound, items, hinv⟩ := ho.array hs hi
  obtain ⟨pushed, s', hrun, hpushed⟩ := hpush items hinv
  refine ⟨pushed, s', hrun, fun p w' hw => ?_⟩
  obtain ⟨⟨elt, a'⟩, ha, hw⟩ := Option.map_eq_some_iff.mp hw
  obtain ⟨rfl, rfl⟩ := Prod.mk.inj hw
  refine ⟨ho.replace hs hi (fun rest hrest => ?_) (hsound.pushed (hpushed elt a' ha)),
    lastSlots_of_pushed (hpushed elt a' ha) hlt⟩
  obtain ⟨_, _, hrun', hpushed'⟩ := hpush rest hrest
  obtain ⟨rfl, rfl⟩ := Prod.mk.inj (Except.ok.inj (hrun.symm.trans hrun'))
  exact ⟨(hpushed' elt a' ha).inv, (hpushed' elt a' ha).kept⟩

/-- The callers write into something that is handed out; the rest is kept. -/
theorem write_kept {x : Range} {a : ℕ} {bytes : List UInt8} (hs : Serves env pool Inv)
    (h : Inv s (x :: items)) (hstart : x.addr ≤ a) (hend : a + bytes.length ≤ x.addr + x.size) :
    store s.heap a bytes = Except.ok (s.heap.withMem (writeAt s.heap.mem a bytes)) ∧
      Inv ⟨s.heap.withMem (writeAt s.heap.mem a bytes), s.log⟩ (x :: items) ∧
      ItemsKept s ⟨s.heap.withMem (writeAt s.heap.mem a bytes), s.log⟩ items := by
  obtain ⟨hapart, -⟩ := List.pairwise_cons.mp (hs.apart h)
  refine ⟨store_of_owns ((hs.owns h List.mem_cons_self).mono hstart hend),
    hs.write h List.mem_cons_self hstart hend, fun y hy => ?_⟩
  have hother : Range.Apart ⟨a, bytes.length⟩ y := (hapart y hy).mono hstart hend
  exact hother.symm.kept

/-- A write into an element of one of the arrays. -/
theorem Ordered.assign {j : ℕ} {bytes : List UInt8} (hs : Serves env pool Inv)
    (ho : Ordered pool Inv w) (hi : w.arrays[i]? = some h) (hj : j < h.arr.nelts)
    (hlen : bytes.length = h.arr.size) :
    ∃ heap, store w.proc.heap (h.arr.elts + j * h.arr.size) bytes = Except.ok heap ∧
      Ordered pool Inv ⟨⟨heap, w.proc.log⟩, w.arrays.set i ⟨h.arr, h.vals.set j (some bytes)⟩,
        w.others⟩ := by
  obtain ⟨hsound, items, hinv⟩ := ho.array hs hi
  have hslot := slot_le h.arr.size (hj.trans_le hsound.bounds.count)
  have hend : h.arr.elts + j * h.arr.size + bytes.length ≤ h.arr.block.addr + h.arr.block.size := by
    show _ ≤ h.arr.elts + h.arr.nalloc * h.arr.size
    omega
  have hwrite := fun items (hinv : Inv w.proc (h.arr.block :: items)) =>
    write_kept hs hinv (Nat.le_add_right h.arr.elts _) hend
  exact ⟨_, (hwrite _ hinv).1,
    ho.replace hs hi (fun items hinv => (hwrite items hinv).2) (hsound.assigned hj hlen)⟩

/-- The rest of the callers' blocks. -/
theorem items_others {x : Range} (hx : x ∈ w.others) :
    w.items.Perm (x :: (blocks w.arrays ++ w.others.erase x)) :=
  ((List.perm_cons_erase hx).append_left _).trans List.perm_middle

/-- A block more is handed out, unless the answer is NULL. -/
theorem Ordered.grant (hs : Serves env pool Inv) (ho : Ordered pool Inv w)
    (hinv : Inv s' (granted w.items p n)) (hkept : ItemsKept w.proc s' w.items) :
    ∀ q w', (if p = 0 then none else some (p, World.mk s' w.arrays (⟨p, n⟩ :: w.others))) =
      some (q, w') → Ordered pool Inv w' := by
  intro q w' hw
  split at hw
  · cases hw
  · next hp =>
    obtain ⟨-, rfl⟩ := Prod.mk.inj (Option.some.inj hw)
    rw [granted, if_neg hp] at hinv
    exact ⟨hs.perm hinv List.perm_middle.symm, ho.sound_of_kept hkept⟩

/-- A write into a block that is not an array's. -/
theorem Ordered.fill {x : Range} {k : ℕ} {bytes : List UInt8} (hs : Serves env pool Inv)
    (ho : Ordered pool Inv w) (hx : x ∈ w.others) (hlen : k + bytes.length ≤ x.size) :
    ∃ heap, store w.proc.heap (x.addr + k) bytes = Except.ok heap ∧
      Ordered pool Inv ⟨⟨heap, w.proc.log⟩, w.arrays, w.others⟩ := by
  have hperm := items_others hx
  have hend : x.addr + k + bytes.length ≤ x.addr + x.size := by omega
  obtain ⟨hstore, hinv, hkept⟩ :=
    write_kept hs (hs.perm ho.inv hperm) (Nat.le_add_right x.addr k) hend
  refine ⟨_, hstore, hs.perm hinv hperm.symm, fun h hh => ?_⟩
  exact (ho.arrays h hh).frame (hkept _ (List.mem_append_left _ (mem_blocks hh)))

/-- A block that is not an array's is resized. -/
theorem Ordered.resize {x : Range} (hs : Serves env pool Inv) (ho : Ordered pool Inv w)
    (hinv : Inv s' (resized x (blocks w.arrays ++ w.others.erase x) p n))
    (hkept : ItemsKept w.proc s' (blocks w.arrays ++ w.others.erase x)) :
    Ordered pool Inv ⟨s', w.arrays, resized x (w.others.erase x) p n⟩ := by
  refine ⟨hs.perm hinv ?_, fun h hh => ?_⟩
  · show (resized x (blocks w.arrays ++ w.others.erase x) p n).Perm
      (blocks w.arrays ++ resized x (w.others.erase x) p n)
    unfold resized
    split
    · exact List.Perm.refl _
    · split <;> exact List.perm_middle.symm
  · exact (ho.arrays h hh).frame (hkept _ (List.mem_append_left _ (mem_blocks hh)))

theorem Ordered.sound (hs : Serves env pool Inv) (ho : Ordered pool Inv w) : w.Sound pool :=
  ⟨ho.arrays, hs.apart ho.inv, fun _ hx => hs.owns ho.inv hx⟩

/-- Every valid step that fits is served, and the pool and the arrays stay in order. -/
theorem Op.serves {op : Op} (hs : Serves env pool Inv) (ho : Ordered pool Inv w)
    (hvalid : op.Valid w) (hfits : op.Fits env pool w) :
    ∃ r, op.run env pool w = Except.ok r ∧ ∀ p w', r = some (p, w') →
      Ordered pool Inv w' ∧ op.Answers w' p := by
  cases op with
  | init n size =>
    obtain ⟨made, s', hrun, hmade⟩ := arrayInit_serves hs ho.inv hvalid.1 hvalid.2 hfits.1 hfits.2
    refine ⟨_, bind_of_ok hrun rfl, fun p w' hr => ?_⟩
    obtain ⟨a, ha, hw⟩ := Option.map_eq_some_iff.mp hr
    obtain ⟨-, rfl⟩ := Prod.mk.inj hw
    obtain ⟨hcount, -, hpool, hbounds, hinv, hkept⟩ := hmade a ha
    exact ⟨⟨hinv, List.forall_mem_cons.mpr
      ⟨Held.Sound.empty hpool hcount hbounds, ho.sound_of_kept hkept⟩⟩, trivial⟩
  | push i =>
    obtain ⟨h, hi⟩ : ∃ h, w.arrays[i]? = some h := ⟨_, List.getElem?_eq_getElem hvalid⟩
    obtain ⟨hsound, -⟩ := ho.array hs hi
    have hs' : Serves env h.arr.pool Inv := by rwa [hsound.pool]
    obtain ⟨pushed, s', hrun, hpushed⟩ := ho.push hs hi fun _ hinv =>
      arrayPush_serves hs' hinv hsound.bounds (hfits _ hi)
    unfold Op.run
    dsimp only
    rw [hi]
    exact ⟨_, bind_of_ok hrun rfl, hpushed⟩
  | pushN i n =>
    obtain ⟨h, hi⟩ : ∃ h, w.arrays[i]? = some h := ⟨_, List.getElem?_eq_getElem hvalid.1⟩
    obtain ⟨hsound, -⟩ := ho.array hs hi
    have hs' : Serves env h.arr.pool Inv := by rwa [hsound.pool]
    obtain ⟨pushed, s', hrun, hpushed⟩ := ho.push hs hi fun _ hinv =>
      arrayPushN_serves hs' hinv hsound.bounds (hfits _ hi)
    unfold Op.run
    dsimp only
    rw [hi]
    exact ⟨_, bind_of_ok hrun rfl, hpushed⟩
  | assign i j bytes =>
    obtain ⟨h, hi, hj, hlen⟩ := hvalid
    obtain ⟨heap, hstore, ho'⟩ := ho.assign hs hi hj hlen
    unfold Op.run
    dsimp only
    rw [hi]
    refine ⟨_, bind_of_ok hstore rfl, fun p w' hr => ?_⟩
    obtain ⟨-, rfl⟩ := Prod.mk.inj (Option.some.inj hr)
    exact ⟨ho', trivial⟩
  | palloc n =>
    obtain ⟨p, s', hrun, hinv, hkept⟩ := hs.palloc ho.inv hfits
    exact ⟨_, bind_of_ok hrun rfl, fun q w' hr => ⟨ho.grant hs hinv hkept q w' hr, trivial⟩⟩
  | pcalloc n =>
    obtain ⟨p, s', hrun, hinv, hkept⟩ := hs.pcalloc ho.inv hfits
    exact ⟨_, bind_of_ok hrun rfl, fun q w' hr => ⟨ho.grant hs hinv hkept q w' hr, trivial⟩⟩
  | prealloc x n =>
    obtain ⟨hx, -⟩ := hvalid
    have hinv := hs.perm ho.inv (items_others hx)
    have hne : x.addr ≠ 0 := by
      obtain ⟨b, hb, hstart, -⟩ := hs.owns hinv List.mem_cons_self
      have hpos := (w.proc.heap.inRange b hb).1
      omega
    obtain ⟨p, s', hrun, hinv', hkept⟩ := hs.resize hinv hne hfits
    refine ⟨_, bind_of_ok hrun rfl, fun q w' hr => ?_⟩
    split at hr
    · cases hr
    · obtain ⟨-, rfl⟩ := Prod.mk.inj (Option.some.inj hr)
      exact ⟨ho.resize hs hinv' hkept, trivial⟩
  | fill x k bytes =>
    obtain ⟨heap, hstore, ho'⟩ := ho.fill hs hvalid.1 hvalid.2
    refine ⟨_, bind_of_ok hstore rfl, fun q w' hr => ?_⟩
    obtain ⟨-, rfl⟩ := Prod.mk.inj (Option.some.inj hr)
    exact ⟨ho', trivial⟩

/-- A new pool is in order. -/
theorem Run.ordered (h : Run env pool (Op.Fits env pool) w) :
    ∃ Inv, Serves env pool Inv ∧ Ordered pool Inv w := by
  have hnone (s : Proc) : ∀ h ∈ ([] : List Held), h.Sound pool s.heap.mem :=
    fun h hh => absurd hh List.not_mem_nil
  induction h with
  | @create s s' size hsize hlog hrun hpool =>
    exact ⟨_, oneBlock_serves env pool, createPool_oneBlock hsize hlog hrun hpool, hnone s'⟩
  | @createCustom s s' fns J hcustom hrun hpool hJ =>
    exact ⟨_, hcustom.serves, ⟨createCustomPool_words hrun hpool, hJ⟩, hnone s'⟩
  | step op _ hvalid hallowed hrun ih =>
    obtain ⟨Inv, hs, ho⟩ := ih
    obtain ⟨r, hrun', hstep⟩ := Op.serves hs ho hvalid hallowed
    obtain rfl := Except.ok.inj (hrun'.symm.trans hrun)
    exact ⟨Inv, hs, (hstep _ _ rfl).1⟩

/-- **Arrays in a pool**: along every run in which nothing wraps round and no request takes a
second block, the arrays are sound and apart, and the next such step returns and keeps them so. -/
theorem arrays_sound (h : Run env pool (Op.Fits env pool) w) :
    w.Sound pool ∧ ∀ op : Op, op.Valid w → op.Fits env pool w →
      ∃ r, op.run env pool w = Except.ok r ∧
        ∀ p w', r = some (p, w') → w'.Sound pool ∧ op.Answers w' p := by
  obtain ⟨Inv, hs, ho⟩ := h.ordered
  refine ⟨ho.sound hs, fun op hvalid hfits => ?_⟩
  obtain ⟨r, hrun, hstep⟩ := Op.serves hs ho hvalid hfits
  refine ⟨r, hrun, fun p w' hr => ?_⟩
  obtain ⟨ho', hanswer⟩ := hstep p w' hr
  exact ⟨ho'.sound hs, hanswer⟩

end

/-- The world after a step that returns. -/
def worldOf (x : Exec (Option (ℕ × World))) : World :=
  match x with
  | .ok (some (_, w)) => w
  | .ok none => ⟨idleProc, [], []⟩
  | .error _ => ⟨idleProc, [], []⟩

theorem eq_worldOf {x : Exec (Option (ℕ × World))} {p : ℕ}
    (h : x.map (Option.map Prod.fst) = Except.ok (some p)) :
    x = Except.ok (some (p, worldOf x)) := by
  cases x with
  | error e => cases h
  | ok r =>
    cases r with
    | none => cases h
    | some r =>
      cases h
      rfl

/-- A pool with room for 16 bytes, and an array in it for one element of 8. -/
def oneSlot : World := worldOf ((Op.init 1 8).run bumpEnv 16 ⟨smallPool, [], []⟩)

theorem smallPool_world (allowed : World → Op → Prop) :
    Run bumpEnv 16 allowed ⟨smallPool, [], []⟩ :=
  .create (by decide : poolSize ≤ 136) rfl (eq_resultOf (by decide +kernel)) (by decide)

theorem arrays_sound_one : oneSlot.Sound 16 ∧ ∃ r, (Op.push 0).run bumpEnv 16 oneSlot =
    Except.ok r ∧ ∀ p w', r = some (p, w') → w'.Sound 16 ∧ (Op.push 0).Answers w' p := by
  have hinit : (Op.init 1 8).run bumpEnv 16 ⟨smallPool, [], []⟩ = Except.ok (some (136, oneSlot)) :=
    eq_worldOf (by decide +kernel)
  have hroom : FindsRoom bumpEnv smallPool 16 8 := by decide +kernel
  have hrun : Run bumpEnv 16 (Op.Fits bumpEnv 16) oneSlot :=
    (smallPool_world _).step (.init 1 8) ⟨by decide, by decide⟩ ⟨by decide, Or.inr hroom⟩ hinit
  have hcounts : oneSlot.arrays.map (fun h => (h.arr.nelts, h.arr.nalloc)) = [(0, 1)] := by
    decide +kernel
  have hvalid : (Op.push 0).Valid oneSlot := by
    have hlen := congrArg List.length hcounts
    rw [List.length_map] at hlen
    show 0 < oneSlot.arrays.length
    rw [hlen]
    decide
  have hfits : (Op.push 0).Fits bumpEnv 16 oneSlot := by
    intro h hh
    have hcount : (h.arr.nelts, h.arr.nalloc) = (0, 1) := by
      have hget : (oneSlot.arrays.map fun h => (h.arr.nelts, h.arr.nalloc))[0]? = some (0, 1) := by
        rw [hcounts]
        rfl
      rw [List.getElem?_map, hh] at hget
      exact Option.some.inj hget
    obtain ⟨hnelts, hnalloc⟩ := Prod.mk.inj hcount
    exact Or.inl (by omega)
  obtain ⟨hsound, hnext⟩ := arrays_sound hrun
  exact ⟨hsound, hnext _ hvalid hfits⟩

/-- The same pool with an array for no elements, a block of 8 bytes behind it,
and then an element that is pushed. -/
def noSlot : World := worldOf ((Op.init 0 8).run bumpEnv 16 ⟨smallPool, [], []⟩)

def behindNoSlot : World := worldOf ((Op.palloc 8).run bumpEnv 16 noSlot)

def overfull : World := worldOf ((Op.push 0).run bumpEnv 16 behindNoSlot)

/-- The double of no slots is no slots, and an element is put there. -/
theorem empty_array_overfull :
    ¬ ∀ env pool w, Run env pool (fun _ _ => True) w → w.Sound pool := by
  intro h
  have hinit : (Op.init 0 8).run bumpEnv 16 ⟨smallPool, [], []⟩ = Except.ok (some (136, noSlot)) :=
    eq_worldOf (by decide +kernel)
  have hpalloc : (Op.palloc 8).run bumpEnv 16 noSlot = Except.ok (some (136, behindNoSlot)) :=
    eq_worldOf (by decide +kernel)
  have hpush : (Op.push 0).run bumpEnv 16 behindNoSlot = Except.ok (some (144, overfull)) :=
    eq_worldOf (by decide +kernel)
  have hlen : behindNoSlot.arrays.length = 1 := by decide +kernel
  have hvalid : (Op.push 0).Valid behindNoSlot := by
    rw [Op.Valid, hlen]
    decide
  have hrun : Run bumpEnv 16 (fun _ _ => True) behindNoSlot :=
    ((smallPool_world _).step (.init 0 8) ⟨by decide, by decide⟩ trivial hinit).step
      (.palloc 8) (by decide : 8 < 2 ^ 64) trivial hpalloc
  have hsound := h bumpEnv 16 overfull (hrun.step (.push 0) hvalid trivial hpush)
  have hcounts : ∀ g ∈ overfull.arrays, g.arr.nelts ≤ g.arr.nalloc :=
    fun g hg => (hsound.arrays g hg).bounds.count
  have hover : ¬ ∀ g ∈ overfull.arrays, g.arr.nelts ≤ g.arr.nalloc := by decide +kernel
  exact hover hcounts

end HCore.ArrayRuns
