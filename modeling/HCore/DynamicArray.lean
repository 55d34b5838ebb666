import HCore.PoolService
import Mathlib.Tactic.Ring

/-!
Dynamic arrays. A full array grows where it lies, by moving the end of the pool
on, or into a new block of at least twice the size. Counts have 32 bits and
sizes 64, and nothing is checked for overflow, nor is a capacity of zero, whose
double is still zero.
-/

namespace HCore.DynamicArray

open Machine CHeap PoolModel PoolService

/-- `hcore_array_t` -/
structure Arr where
  elts : ℕ
  nelts : ℕ
  size : ℕ
  nalloc : ℕ
  pool : ℕ
  deriving DecidableEq, Repr

/-- `hcore_array_init`, or nothing if it returns an error. -/
def arrayInit (env : Env) (s : Proc) (pool n size : ℕ) : Exec (Option Arr × Proc) := do
  let (elts, s) ← pnalloc env s pool (toUInt64 (n * size : ℕ))
  if elts = 0 then pure (none, s) else pure (some ⟨elts, 0, size, n, pool⟩, s)

/-- The growth of a full array, by `n` slots in `room` bytes where it lies, or
into a new block of `bytes`, with `nalloc` slots, to which `used` bytes move. -/
def arrayGrow (env : Env) (s : Proc) (a : Arr) (n room nalloc bytes used : ℕ) :
    Exec (Option Arr × Proc) := do
  let last ← s.load (a.pool + lastOffset)
  let bound ← s.load (a.pool + endOffset)
  if toUInt64 (a.elts + toUInt64 (a.size * a.nalloc : ℕ) : ℕ) = last ∧
      toUInt64 (last + room : ℕ) ≤ bound then do
    let s ← s.store (a.pool + lastOffset) (toUInt64 (last + room : ℕ))
    pure (some { a with nalloc := toUInt32 (a.nalloc + n : ℕ) }, s)
  else do
    let (elts, s) ← pnalloc env s a.pool bytes
    if elts = 0 then pure (none, s)
    else do
      let heap ← memcpy s.heap elts a.elts used
      pure (some { a with elts, nalloc }, { s with heap })

/-- The next `n` slots, with the address of the first. -/
def arrayTake (n : ℕ) (a : Arr) : ℕ × Arr :=
  (toUInt64 (a.elts + toUInt64 (a.size * a.nelts : ℕ) : ℕ),
    { a with nelts := toUInt32 (a.nelts + n : ℕ) })

/-- `hcore_array_push`: the new slot and the array, or NULL. -/
def arrayPush (env : Env) (s : Proc) (a : Arr) : Exec (Option (ℕ × Arr) × Proc) := do
  let size := toUInt64 (a.size * a.nalloc : ℕ)
  let (grown, s) ←
    if a.nelts = a.nalloc then
      arrayGrow env s a 1 a.size (toUInt32 (2 * a.nalloc : ℕ)) (toUInt64 (2 * size : ℕ)) size
    else pure (some a, s)
  pure (grown.map (arrayTake 1), s)

/-- `hcore_array_push_n` -/
def arrayPushN (env : Env) (s : Proc) (a : Arr) (n : ℕ) : Exec (Option (ℕ × Arr) × Proc) := do
  let size := toUInt64 (n * a.size : ℕ)
  let nalloc := toUInt32 (2 * (if a.nalloc ≤ n then n else a.nalloc) : ℕ)
  let (grown, s) ←
    if a.nalloc < toUInt32 (a.nelts + n : ℕ) then
      arrayGrow env s a n size nalloc (toUInt64 (nalloc * a.size : ℕ))
        (toUInt64 (a.nelts * a.size : ℕ))
    else pure (some a, s)
  pure (grown.map (arrayTake n), s)

namespace Arr

/-- The memory that is reserved for the array. -/
def block (a : Arr) : Range := ⟨a.elts, a.nalloc * a.size⟩

/-- No more slots are in use than there are. -/
structure InBounds (a : Arr) : Prop where
  count : a.nelts ≤ a.nalloc
  nalloc : a.nalloc < 2 ^ 32
  size : a.size < 2 ^ 64

end Arr

/-- The growth by `n` slots does not wrap round: the array lies at the end of
the pool, where there is room, or the new block of `nalloc` slots is large
enough and fits the pool. -/
def GrowthFits (env : Env) (s : Proc) (a : Arr) (n nalloc : ℕ) : Prop :=
  if a.elts + a.nalloc * a.size = tailOf s a.pool ∧
      tailOf s a.pool + n * a.size ≤ boundOf s a.pool then a.nalloc + n < 2 ^ 32
  else (a.elts + a.nalloc * a.size = tailOf s a.pool → tailOf s a.pool + n * a.size < 2 ^ 64) ∧
    a.nelts + n ≤ nalloc ∧ nalloc < 2 ^ 32 ∧ nalloc * a.size < 2 ^ 64 ∧
    FitsPool env a.pool s (nalloc * a.size)

/-- A push finds a free slot, or the growth fits. -/
def PushFits (env : Env) (s : Proc) (a : Arr) : Prop :=
  a.nelts < a.nalloc ∨ GrowthFits env s a 1 (2 * a.nalloc)

def PushNFits (env : Env) (s : Proc) (a : Arr) (n : ℕ) : Prop :=
  a.nelts + n ≤ a.nalloc ∨ a.nelts + n < 2 ^ 32 ∧ GrowthFits env s a n (2 * max n a.nalloc)

/-- What a growth does: the elements are where the array says. -/
structure Grown (Inv : Proc → List Range → Prop) (items : List Range) (s s' : Proc) (a a' : Arr)
    (n : ℕ) : Prop where
  nelts : a'.nelts = a.nelts
  size : a'.size = a.size
  pool : a'.pool = a.pool
  room : a.nelts + n ≤ a'.nalloc
  nalloc : a'.nalloc < 2 ^ 32
  inv : Inv s' (a'.block :: items)
  kept : ItemsKept s s' items
  moved : ∀ i < a.nelts * a.size, s'.heap.mem (a'.elts + i) = s.heap.mem (a.elts + i)

/-- What a push does: `n` slots more, from `elt` on, and the elements are kept. -/
structure Pushed (Inv : Proc → List Range → Prop) (items : List Range) (s s' : Proc) (a a' : Arr)
    (n elt : ℕ) : Prop where
  nelts : a'.nelts = a.nelts + n
  size : a'.size = a.size
  pool : a'.pool = a.pool
  bounds : a'.InBounds
  slot : elt = a'.elts + a.nelts * a.size
  inv : Inv s' (a'.block :: items)
  kept : ItemsKept s s' items
  moved : ∀ i < a.nelts * a.size, s'.heap.mem (a'.elts + i) = s.heap.mem (a.elts + i)

section

variable {env : Env} {s s' : Proc} {a : Arr} {items : List Range}
  {Inv : Proc → List Range → Prop} {n nalloc : ℕ}

theorem owns_lt {h : Heap} {x k : ℕ} (hown : h.Owns x k) : x + k < 2 ^ 64 := by
  obtain ⟨b, hb, -, hend⟩ := hown
  have htop := (h.inRange b hb).2
  omega

theorem block_lt (hs : Serves env a.pool Inv) (h : Inv s (a.block :: items)) :
    a.elts + a.nalloc * a.size < 2 ^ 64 := owns_lt (hs.owns h List.mem_cons_self)

/-- The elements that are in use lie in the block. -/
theorem used_le (h : a.nelts ≤ a.nalloc) : a.nelts * a.size ≤ a.nalloc * a.size :=
  Nat.mul_le_mul_right _ h

/-- The growth where the array lies. -/
theorem Grown.of_extend (hs : Serves env a.pool Inv) (h : Inv s (a.block :: items))
    (ha : a.InBounds) (htail : a.elts + a.nalloc * a.size = tailOf s a.pool)
    (hroom : tailOf s a.pool + n * a.size ≤ boundOf s a.pool) (hn : a.nalloc + n < 2 ^ 32) :
    ∃ s', s.store (a.pool + lastOffset) (tailOf s a.pool + n * a.size) = Except.ok s' ∧
      Grown Inv items s s' a { a with nalloc := a.nalloc + n } n := by
  have hend : a.elts + (a.nalloc + n) * a.size = tailOf s a.pool + n * a.size := by
    rw [← htail]
    ring
  obtain ⟨s', hstore, hinv, hkept⟩ := hs.extend h htail (hend.trans_le hroom)
  refine ⟨s', hend ▸ hstore, rfl, rfl, rfl, ?_, hn, hinv, ?_, ?_⟩
  · exact Nat.add_le_add_right ha.count n
  · exact fun x hx => hkept x (List.mem_cons_of_mem _ hx)
  · intro i hi
    have hlt := used_le ha.count
    exact hkept a.block List.mem_cons_self (a.elts + i) (Nat.le_add_right _ _) (by
      unfold Arr.block
      dsimp only
      omega)

/-- The growth into a new block. -/
theorem Grown.of_move (hs : Serves env a.pool Inv) (h : Inv s (a.block :: items))
    (ha : a.InBounds) (hcount : a.nelts + n ≤ nalloc) (hn : nalloc < 2 ^ 32)
    (hfits : FitsPool env a.pool s (nalloc * a.size)) :
    ∃ elts s1, pnalloc env s a.pool (nalloc * a.size) = Except.ok (elts, s1) ∧
      (elts ≠ 0 → ∃ heap, memcpy s1.heap elts a.elts (a.nelts * a.size) = Except.ok heap ∧
        Grown Inv items s ⟨heap, s1.log⟩ a { a with elts, nalloc } n) := by
  obtain ⟨elts, s1, hrun, h1, hkept1⟩ := hs.palloc h hfits
  refine ⟨elts, s1, hrun, fun hne => ?_⟩
  rw [granted, if_neg hne] at h1
  have hnew : (⟨elts, nalloc * a.size⟩ : Range) ∈ ⟨elts, nalloc * a.size⟩ :: a.block :: items :=
    List.mem_cons_self
  have hold : a.block ∈ (⟨elts, nalloc * a.size⟩ : Range) :: a.block :: items :=
    List.mem_cons_of_mem _ List.mem_cons_self
  have hused : a.nelts * a.size ≤ nalloc * a.size := Nat.mul_le_mul_right _ (by omega)
  have hused' := used_le ha.count
  obtain ⟨hapart, -⟩ := List.pairwise_cons.mp (hs.apart h1)
  have hdst : s1.heap.Owns elts (a.nelts * a.size) :=
    (hs.owns h1 hnew).mono (le_refl elts) (Nat.add_le_add_left hused elts)
  have hsrc : s1.heap.Owns a.elts (a.nelts * a.size) :=
    (hs.owns h1 hold).mono (le_refl a.elts) (Nat.add_le_add_left hused' a.elts)
  have hcopy := memcpy_of_owns hdst hsrc (by
    have hblock := hapart a.block List.mem_cons_self
    unfold Range.Apart Arr.block at hblock
    dsimp only at hblock
    omega)
  have hlen : elts + (readAt s1.heap.mem a.elts (a.nelts * a.size)).length ≤
      elts + nalloc * a.size := by
    rw [readAt_length]
    omega
  have hswap := hs.perm (hs.write h1 hnew (le_refl elts) hlen) (List.Perm.swap ..)
  refine ⟨_, hcopy, rfl, rfl, rfl, hcount, hn, hs.drop hswap, fun x hx => ?_, fun i hi => ?_⟩
  · have hother : Range.Apart ⟨elts, (readAt s1.heap.mem a.elts (a.nelts * a.size)).length⟩ x :=
      (hapart x (List.mem_cons_of_mem _ hx)).mono (le_refl elts) hlen
    exact Keeps.trans (hkept1 x (List.mem_cons_of_mem _ hx)) hother.symm.kept
  · have hi' : i < (readAt s1.heap.mem a.elts (a.nelts * a.size)).length := by
      rwa [readAt_length]
    have hread : (readAt s1.heap.mem a.elts (a.nelts * a.size))[i] = s1.heap.mem (a.elts + i) := by
      simp only [readAt, List.getElem_map, List.getElem_range]
    refine (writeAt_same hi').trans (hread.trans ?_)
    exact hkept1 a.block List.mem_cons_self (a.elts + i) (Nat.le_add_right _ _) (by
      unfold Arr.block
      dsimp only
      omega)

/-- The growth of an array, with the sizes that the source computes. -/
theorem arrayGrow_serves (hs : Serves env a.pool Inv) (h : Inv s (a.block :: items))
    (ha : a.InBounds) (hgrow : GrowthFits env s a n nalloc) {room nalloc' bytes used : ℕ}
    (hroom : n * a.size < 2 ^ 64 → room = n * a.size) (hused : used = a.nelts * a.size)
    (hnew : nalloc < 2 ^ 32 → nalloc * a.size < 2 ^ 64 →
      nalloc' = nalloc ∧ bytes = nalloc * a.size) :
    ∃ grown s', arrayGrow env s a n room nalloc' bytes used = Except.ok (grown, s') ∧
      ∀ a', grown = some a' → Grown Inv items s s' a a' n := by
  have hlt := block_lt hs h
  have hbound : boundOf s a.pool < 2 ^ 64 := wordAt_lt _ _
  have hend : toUInt64 (a.elts + toUInt64 (a.size * a.nalloc : ℕ) : ℕ) =
      a.elts + a.nalloc * a.size := by
    have hbytes : toUInt64 (a.size * a.nalloc : ℕ) = a.nalloc * a.size := by
      rw [Nat.mul_comm a.size, toUInt64_of_lt (by omega : a.nalloc * a.size < 2 ^ 64)]
    rw [hbytes, toUInt64_of_lt hlt]
  obtain ⟨hlast, hload⟩ := hs.tail h
  unfold arrayGrow
  rw [hlast, ok_bind, hload, ok_bind, hend]
  unfold GrowthFits at hgrow
  split at hgrow
  · next hplace =>
    obtain ⟨htail, hfit⟩ := hplace
    have hsum : toUInt64 (tailOf s a.pool + room : ℕ) = tailOf s a.pool + n * a.size := by
      rw [hroom (by omega), toUInt64_of_lt (by omega)]
    obtain ⟨s', hstore, hgrown⟩ := Grown.of_extend hs h ha htail hfit hgrow
    rw [hsum, if_pos ⟨htail, hfit⟩, hstore, ok_bind, toUInt32_of_lt hgrow]
    refine ⟨_, s', rfl, fun a' ha' => ?_⟩
    obtain rfl := Option.some.inj ha'
    exact hgrown
  · next hplace =>
    obtain ⟨hwrap, hcount, hnalloc, hbytes, hfits⟩ := hgrow
    obtain ⟨rfl, rfl⟩ := hnew hnalloc hbytes
    rw [if_neg fun hand => hplace ⟨hand.1, ?_⟩]
    · obtain ⟨elts, s1, hrun, hmove⟩ := Grown.of_move hs h ha hcount hnalloc hfits
      rw [hrun, ok_bind]
      dsimp only
      by_cases hzero : elts = 0
      · exact ⟨none, s1, if_pos hzero, fun a' ha' => by cases ha'⟩
      · obtain ⟨heap, hcopy, hgrown⟩ := hmove hzero
        rw [if_neg hzero, hused, hcopy]
        refine ⟨_, ⟨heap, s1.log⟩, rfl, fun a' ha' => ?_⟩
        obtain rfl := Option.some.inj ha'
        exact hgrown
    · have hsmall := hwrap hand.1
      rw [hroom (by omega), toUInt64_of_lt (by omega)] at hand
      exact hand.2

/-- An array that has room stays as it is. -/
theorem Grown.refl (h : Inv s (a.block :: items)) (ha : a.InBounds) (hroom : a.nelts + n ≤ a.nalloc) :
    Grown Inv items s s a a n :=
  ⟨rfl, rfl, rfl, hroom, ha.nalloc, h, fun _ _ => Keeps.refl _ _ _, fun _ _ => rfl⟩

/-- The new slots come behind the elements. -/
theorem Grown.take {g : Arr} (hs : Serves env a.pool Inv) (ha : a.InBounds)
    (hg : Grown Inv items s s' a g n) :
    Pushed Inv items s s' a (arrayTake n g).2 n (arrayTake n g).1 := by
  have hlt : g.elts + g.nalloc * g.size < 2 ^ 64 := owns_lt (hs.owns hg.inv List.mem_cons_self)
  have hroom := hg.room
  have hnalloc := hg.nalloc
  have hle : g.nelts * g.size ≤ g.nalloc * g.size := Nat.mul_le_mul_right _ (by rw [hg.nelts]; omega)
  have hoffset : toUInt64 (g.size * g.nelts : ℕ) = g.nelts * g.size := by
    rw [Nat.mul_comm g.size, toUInt64_of_lt (by omega : g.nelts * g.size < 2 ^ 64)]
  have hslot : (arrayTake n g).1 = g.elts + g.nelts * g.size := by
    unfold arrayTake
    dsimp only
    rw [hoffset, toUInt64_of_lt (by omega : g.elts + g.nelts * g.size < 2 ^ 64)]
  have hcount : (arrayTake n g).2.nelts = a.nelts + n := by
    unfold arrayTake
    dsimp only
    rw [hg.nelts, toUInt32_of_lt (by omega : a.nelts + n < 2 ^ 32)]
  refine ⟨hcount, hg.size, hg.pool, ⟨hcount.trans_le hroom, hnalloc, ?_⟩, ?_, hg.inv, hg.kept,
    hg.moved⟩
  · exact hg.size.symm ▸ ha.size
  · rw [hslot, hg.nelts, hg.size]
    rfl

/-- A push takes the new slots from the array that has grown, if it has. -/
theorem push_of_grown {growing : Exec (Option Arr × Proc)} (hs : Serves env a.pool Inv)
    (ha : a.InBounds)
    (hgrow : ∃ grown s', growing = Except.ok (grown, s') ∧
      ∀ g, grown = some g → Grown Inv items s s' a g n) :
    ∃ pushed s', (growing >>= fun r => pure (r.1.map (arrayTake n), r.2)) =
        Except.ok (pushed, s') ∧
      ∀ elt a', pushed = some (elt, a') → Pushed Inv items s s' a a' n elt := by
  obtain ⟨grown, s', hrun, hgrown⟩ := hgrow
  rw [hrun, ok_bind]
  refine ⟨_, s', rfl, fun elt a' hpushed => ?_⟩
  obtain ⟨g, hg, htake⟩ := Option.map_eq_some_iff.mp hpushed
  obtain ⟨rfl, rfl⟩ := Prod.mk.inj htake.symm
  exact (hgrown g hg).take hs ha

/-- `hcore_array_push` -/
theorem arrayPush_serves (hs : Serves env a.pool Inv) (h : Inv s (a.block :: items))
    (ha : a.InBounds) (hfits : PushFits env s a) :
    ∃ pushed s', arrayPush env s a = Except.ok (pushed, s') ∧
      ∀ elt a', pushed = some (elt, a') → Pushed Inv items s s' a a' 1 elt := by
  have hgrow : ∃ grown s', (if a.nelts = a.nalloc then
        arrayGrow env s a 1 a.size (toUInt32 (2 * a.nalloc : ℕ))
          (toUInt64 (2 * toUInt64 (a.size * a.nalloc : ℕ) : ℕ)) (toUInt64 (a.size * a.nalloc : ℕ))
      else pure (some a, s)) = Except.ok (grown, s') ∧
      ∀ g, grown = some g → Grown Inv items s s' a g 1 := by
    by_cases hfull : a.nelts = a.nalloc
    · have hlt := block_lt hs h
      have hsize : toUInt64 (a.size * a.nalloc : ℕ) = a.nalloc * a.size := by
        rw [Nat.mul_comm a.size, toUInt64_of_lt (by omega : a.nalloc * a.size < 2 ^ 64)]
      rw [if_pos hfull, hsize]
      refine arrayGrow_serves hs h ha (hfits.resolve_left (by omega)) ?_ (by rw [hfull]) ?_
      · exact fun _ => (Nat.one_mul _).symm
      · intro hnalloc hbytes
        rw [Nat.mul_assoc] at hbytes
        rw [toUInt32_of_lt hnalloc, toUInt64_of_lt hbytes, Nat.mul_assoc]
        exact ⟨rfl, rfl⟩
    · refine ⟨some a, s, if_neg hfull, fun g hg => ?_⟩
      obtain rfl := Option.some.inj hg
      exact Grown.refl h ha (by have := ha.count; omega)
  unfold arrayPush
  dsimp only
  rw [ite_bind]
  exact push_of_grown hs ha hgrow

/-- `hcore_array_push_n` -/
theorem arrayPushN_serves (hs : Serves env a.pool Inv) (h : Inv s (a.block :: items))
    (ha : a.InBounds) (hfits : PushNFits env s a n) :
    ∃ pushed s', arrayPushN env s a n = Except.ok (pushed, s') ∧
      ∀ elt a', pushed = some (elt, a') → Pushed Inv items s s' a a' n elt := by
  have hmax : (if a.nalloc ≤ n then n else a.nalloc) = max n a.nalloc := by
    split <;> omega
  have hgrow : ∃ grown s', (if a.nalloc < toUInt32 (a.nelts + n : ℕ) then
        arrayGrow env s a n (toUInt64 (n * a.size : ℕ)) (toUInt32 (2 * max n a.nalloc : ℕ))
          (toUInt64 (toUInt32 (2 * max n a.nalloc : ℕ) * a.size : ℕ))
          (toUInt64 (a.nelts * a.size : ℕ))
      else pure (some a, s)) = Except.ok (grown, s') ∧
      ∀ g, grown = some g → Grown Inv items s s' a g n := by
    by_cases hroom : a.nelts + n ≤ a.nalloc
    · have hnalloc := ha.nalloc
      rw [toUInt32_of_lt (by omega : a.nelts + n < 2 ^ 32), if_neg (by omega)]
      refine ⟨some a, s, rfl, fun g hg => ?_⟩
      obtain rfl := Option.some.inj hg
      exact Grown.refl h ha hroom
    · obtain ⟨hcount, hgrowth⟩ := hfits.resolve_left hroom
      have hlt := block_lt hs h
      have hused := used_le ha.count
      rw [toUInt32_of_lt hcount, if_pos (by omega)]
      refine arrayGrow_serves hs h ha hgrowth (fun hbytes => toUInt64_of_lt hbytes) ?_ ?_
      · exact toUInt64_of_lt (by omega)
      · intro hnalloc hbytes
        rw [toUInt32_of_lt hnalloc, toUInt64_of_lt hbytes]
        exact ⟨rfl, rfl⟩
  unfold arrayPushN
  dsimp only
  rw [hmax, ite_bind]
  exact push_of_grown hs ha hgrow

/-- `hcore_array_init` -/
theorem arrayInit_serves {pool size : ℕ} (hs : Serves env pool Inv) (h : Inv s items)
    (hn : n < 2 ^ 32) (hsize : size < 2 ^ 64) (hbytes : n * size < 2 ^ 64)
    (hfits : FitsPool env pool s (n * size)) :
    ∃ made s', arrayInit env s pool n size = Except.ok (made, s') ∧
      ∀ a', made = some a' → a'.nelts = 0 ∧ a'.size = size ∧ a'.pool = pool ∧ a'.InBounds ∧
        Inv s' (a'.block :: items) ∧ ItemsKept s s' items := by
  obtain ⟨elts, s', hrun, hinv, hkept⟩ := hs.palloc h hfits
  unfold arrayInit
  rw [toUInt64_of_lt hbytes, hrun, ok_bind]
  dsimp only
  by_cases hzero : elts = 0
  · exact ⟨none, s', if_pos hzero, fun a' ha' => by cases ha'⟩
  · rw [granted, if_neg hzero] at hinv
    refine ⟨some ⟨elts, 0, size, n, pool⟩, s', if_neg hzero, fun a' ha' => ?_⟩
    obtain rfl := Option.some.inj ha'
    exact ⟨rfl, rfl, rfl, ⟨Nat.zero_le n, hn, hsize⟩, hinv, hkept⟩

end

end HCore.DynamicArray
