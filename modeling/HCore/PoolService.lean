import HCore.PoolRuns

/-!
What a pool does for its callers, whatever is behind it. A pool that
`hcore_create_pool` has made serves them as long as it needs no second block,
and a custom pool as long as its functions keep what they have handed out apart
from one another and from the control block.
-/

namespace HCore.PoolService

open Machine LittleEndian CHeap PoolModel

/-- `p->d.last` and `p->d.end` -/
def tailOf (s : Proc) (pool : ℕ) : ℕ := wordAt s.heap.mem (pool + lastOffset)

def boundOf (s : Proc) (pool : ℕ) : ℕ := wordAt s.heap.mem (pool + endOffset)

/-- What is handed out after the answer `p` to a request of `n` bytes. -/
def granted (items : List Range) (p n : ℕ) : List Range :=
  if p = 0 then items else ⟨p, n⟩ :: items

/-- The same when `x` is resized. -/
def resized (x : Range) (items : List Range) (p n : ℕ) : List Range :=
  if n = 0 then items else if p = 0 then x :: items else ⟨p, n⟩ :: items

/-- A request is passed on to a custom pool, or is served without a second block. -/
def FitsPool (env : Env) (pool : ℕ) (s : Proc) (n : ℕ) : Prop :=
  customed s pool = Except.ok true ∨ FindsRoom env s pool n

def ResizeFitsPool (env : Env) (pool : ℕ) (s : Proc) (x : Range) (n : ℕ) : Prop :=
  customed s pool = Except.ok true ∨ ResizeFindsRoom env s pool x n

/-- `Inv s items` says that the pool is in order and has handed out `items`, and
maybe more that the callers have no use for. -/
structure Serves (env : Env) (pool : ℕ) (Inv : Proc → List Range → Prop) : Prop where
  perm : ∀ {s items items'}, Inv s items → items.Perm items' → Inv s items'
  drop : ∀ {s items x}, Inv s (x :: items) → Inv s items
  apart : ∀ {s items}, Inv s items → items.Pairwise Range.Apart
  owns : ∀ {s items x}, Inv s items → x ∈ items → s.heap.Owns x.addr x.size
  tail : ∀ {s items}, Inv s items → s.load (pool + lastOffset) = Except.ok (tailOf s pool) ∧
    s.load (pool + endOffset) = Except.ok (boundOf s pool)
  palloc : ∀ {s items n}, Inv s items → FitsPool env pool s n →
    ∃ p s', pnalloc env s pool n = Except.ok (p, s') ∧ Inv s' (granted items p n) ∧
      ItemsKept s s' items
  resize : ∀ {s items x n}, Inv s (x :: items) → x.addr ≠ 0 → ResizeFitsPool env pool s x n →
    ∃ p s', prealloc env s pool x.addr x.size n = Except.ok (p, s') ∧
      Inv s' (resized x items p n) ∧ ItemsKept s s' items
  extend : ∀ {s items x n}, Inv s (x :: items) → x.addr + x.size = tailOf s pool →
    x.addr + n ≤ boundOf s pool →
    ∃ s', s.store (pool + lastOffset) (x.addr + n) = Except.ok s' ∧
      Inv s' (⟨x.addr, n⟩ :: items) ∧ ItemsKept s s' (x :: items)
  write : ∀ {s items x a bytes}, Inv s items → x ∈ items → x.addr ≤ a →
    a + bytes.length ≤ x.addr + x.size →
    Inv ⟨s.heap.withMem (writeAt s.heap.mem a bytes), s.log⟩ items

/-- `hcore_pcalloc` serves as `hcore_palloc` does. -/
theorem Serves.pcalloc {env : Env} {pool : ℕ} {Inv : Proc → List Range → Prop} {s : Proc}
    {items : List Range} {n : ℕ} (hs : Serves env pool Inv) (h : Inv s items)
    (hfits : FitsPool env pool s n) :
    ∃ p s', pcalloc env s pool n = Except.ok (p, s') ∧ Inv s' (granted items p n) ∧
      ItemsKept s s' items := by
  obtain ⟨p, s1, hrun, h1, hkept⟩ := hs.palloc h hfits
  unfold PoolModel.pcalloc
  rw [hrun, ok_bind]
  dsimp only
  by_cases hp : p = 0
  · rw [hp] at h1
    exact ⟨0, s1, if_pos hp, h1, hkept⟩
  · have hgrant : granted items p n = ⟨p, n⟩ :: items := if_neg hp
    rw [hgrant] at h1
    have hnew : (⟨p, n⟩ : Range) ∈ ⟨p, n⟩ :: items := List.mem_cons_self
    have hlen : p + (List.replicate n (0 : UInt8)).length ≤ p + n := by
      rw [List.length_replicate]
    obtain ⟨hapart, -⟩ := List.pairwise_cons.mp (hs.apart h1)
    refine ⟨p, _, ?_, hgrant ▸ hs.write h1 hnew (le_refl p) hlen, fun x hx => ?_⟩
    · rw [if_neg hp, memzero_of_owns (hs.owns h1 hnew)]
      rfl
    · have hother : Range.Apart ⟨p, (List.replicate n (0 : UInt8)).length⟩ x :=
        (hapart x hx).mono (le_refl p) hlen
      exact Keeps.trans (hkept x hx) hother.symm.kept

section

variable {env : Env} {s s' : Proc}

/-- A pool with one block serves its callers. -/
def OneBlock (pool : ℕ) (s : Proc) (items : List Range) : Prop :=
  ∃ b last max records, b.addr = pool ∧ Holds s b last max ⟨items, []⟩ records

theorem oneBlock_items (items : List Range) : (⟨items, []⟩ : Client).items = items :=
  List.append_nil items

theorem oneBlock_serves (env : Env) (pool : ℕ) : Serves env pool (OneBlock pool) where
  perm := by
    rintro s items items' ⟨b, last, max, records, hb, h⟩ hperm
    exact ⟨b, last, max, records, hb, h.perm hperm⟩
  drop := by
    rintro s items x ⟨b, last, max, records, hb, h⟩
    exact ⟨b, last, max, records, hb, h.drop⟩
  apart := by
    rintro s items ⟨b, last, max, records, hb, h⟩
    rw [← oneBlock_items items]
    exact h.layout.apart
  owns := by
    rintro s items x ⟨b, last, max, records, hb, h⟩ hx
    rw [← oneBlock_items items] at hx
    exact h.layout.owns hx
  tail := by
    rintro s items ⟨b, last, max, records, rfl, h⟩
    exact ⟨h.load_header (by decide), h.load_header (by decide)⟩
  palloc := by
    rintro s items n ⟨b, last, max, records, rfl, h⟩ hfits
    have hroom : FindsRoom env s b.addr n := by
      refine hfits.resolve_left fun hcustom => ?_
      rw [h.not_customed] at hcustom
      cases hcustom
    obtain ⟨p, s', last', records', hrun, h', hkept⟩ := h.pnalloc_holds hroom
    rw [oneBlock_items] at hkept
    refine ⟨p, s', hrun, ⟨b, last', max, records', rfl, ?_⟩, hkept⟩
    unfold granted
    split
    · next hp => rwa [hp, Client.grant_zero] at h'
    · next hp => rwa [Client.grant_of_ne hp] at h'
  resize := by
    rintro s items x n ⟨b, last, max, records, rfl, h⟩ hx hfits
    have hroom : ResizeFindsRoom env s b.addr x n := by
      refine hfits.resolve_left fun hcustom => ?_
      rw [h.not_customed] at hcustom
      cases hcustom
    obtain ⟨p, s', last', records', hrun, h', hkept, -⟩ := h.prealloc_held hx hroom
    rw [oneBlock_items] at hkept
    exact ⟨p, s', hrun, ⟨b, last', max, records', rfl, h'⟩, hkept⟩
  extend := by
    rintro s items x n ⟨b, last, max, records, rfl, h⟩ hlast hroom
    rw [tailOf, h.words.last] at hlast
    rw [boundOf, h.words.bound] at hroom
    have hkept : ItemsKept s (s.put (b.addr + lastOffset) (x.addr + n)) (x :: items) := by
      rw [← oneBlock_items (x :: items)]
      exact h.kept_last
    exact ⟨_, Proc.store_of_owns (h.owns_word (by decide)),
      ⟨b, _, max, records, rfl, h.resizeInPlace hlast hroom⟩, hkept⟩
  write := by
    rintro s items x a bytes ⟨b, last, max, records, hb, h⟩ hx hstart hend
    obtain ⟨-, h', -⟩ := h.write hx hstart hend
    exact ⟨b, last, max, records, hb, h'⟩

theorem createPool_oneBlock {size p : ℕ} (hsize : poolSize ≤ size) (hlog : s.log = [])
    (hrun : createPool env s size = Except.ok (p, s')) (hp : p ≠ 0) : OneBlock p s' [] := by
  obtain ⟨b, max, hb, h⟩ := createPool_holds hsize hlog hrun hp
  exact ⟨b, _, max, [], hb, h⟩

end

/-- The functions of a custom pool, and the pool that they get. -/
structure Functions where
  pool : ℕ
  alloc : ℕ
  free : ℕ
  destroy : ℕ
  below : pool < 2 ^ 64 ∧ alloc < 2 ^ 64 ∧ free < 2 ^ 64

/-- What the functions of a custom pool are to do. `J heap items` says that the
pool has handed out `items`; they lie in live memory, but not in the control
block, and are not touched, nor is the control block. -/
structure CustomPool (env : Env) (pool : ℕ) (fns : Functions) (J : Heap → List Range → Prop) :
    Prop where
  perm : ∀ {h items items'}, J h items → items.Perm items' → J h items'
  drop : ∀ {h items x}, J h (x :: items) → J h items
  apart : ∀ {h items}, J h items → items.Pairwise Range.Apart
  control : ∀ {h items}, J h items → ∃ b ∈ h.live, b.addr = pool ∧ b.size = poolSize
  covered : ∀ {h items x}, J h items → x ∈ items → ∃ c ∈ h.live, c.addr ≠ pool ∧
    c.Covers x.addr x.size
  write : ∀ {h items a bytes} {x : Range}, J h items → x ∈ items → x.addr ≤ a →
    a + bytes.length ≤ x.addr + x.size → J (h.withMem (writeAt h.mem a bytes)) items
  shrink : ∀ {h items a n m}, J h (⟨a, n⟩ :: items) → m ≤ n → J h (⟨a, m⟩ :: items)
  alloc : ∀ {h items n p h'}, J h items → env.customAlloc fns.alloc fns.pool n h = (p, h') →
    J h' (granted items p n) ∧ ∀ x ∈ (⟨pool, poolSize⟩ :: items), x.Kept h.mem h'.mem
  free : ∀ {h items} {x : Range}, J h (x :: items) →
    ∃ h', env.customFree fns.free fns.pool x.addr h = Except.ok h' ∧ J h' items ∧
      ∀ y ∈ (⟨pool, poolSize⟩ :: items), y.Kept h.mem h'.mem

/-- The fields of a control block; there is no room behind it. -/
structure ControlWords (mem : ℕ → UInt8) (pool : ℕ) (fns : Functions) : Prop where
  custom : wordAt mem (pool + customPoolOffset) = fns.pool
  alloc : wordAt mem (pool + customAllocOffset) = fns.alloc
  free : wordAt mem (pool + customFreeOffset) = fns.free
  last : wordAt mem (pool + lastOffset) = pool + poolSize
  bound : wordAt mem (pool + endOffset) = pool + poolSize
  next : wordAt mem (pool + nextOffset) = 0
  max : wordAt mem (pool + maxOffset) = 0
  customed : wordAt mem (pool + customedOffset) % 2 = 1

theorem ControlWords.congr {mem mem' : ℕ → UInt8} {pool : ℕ} {fns : Functions}
    (w : ControlWords mem pool fns) (h : Keeps mem mem' pool poolSize) :
    ControlWords mem' pool fns where
  custom := (h.word (by decide)).trans w.custom
  alloc := (h.word (by decide)).trans w.alloc
  free := (h.word (by decide)).trans w.free
  last := (h.word (by decide)).trans w.last
  bound := (h.word (by decide)).trans w.bound
  next := (h.word (by decide)).trans w.next
  max := (h.word (by decide)).trans w.max
  customed := by
    rw [h.word (by decide)]
    exact w.customed

/-- A custom pool that is in order. -/
structure Custom (pool : ℕ) (fns : Functions) (J : Heap → List Range → Prop) (s : Proc)
    (items : List Range) : Prop where
  words : ControlWords s.heap.mem pool fns
  keeps : J s.heap items

namespace CustomPool

variable {env : Env} {pool : ℕ} {fns : Functions} {J : Heap → List Range → Prop} {s : Proc}
  {items : List Range} {x : Range} {n k : ℕ}

theorem load (hc : CustomPool env pool fns J) (h : Custom pool fns J s items)
    (hk : k + 8 ≤ poolSize) :
    s.load (pool + k) = Except.ok (wordAt s.heap.mem (pool + k)) := by
  obtain ⟨b, hb, rfl, hsize⟩ := hc.control h.keeps
  exact Proc.load_of_owns ⟨b, hb, Nat.le_add_right _ _, by omega⟩

theorem customed_eq (hc : CustomPool env pool fns J) (h : Custom pool fns J s items) :
    customed s pool = Except.ok true := by
  unfold customed
  rw [hc.load h (by decide), ok_bind, h.words.customed]
  rfl

/-- What is handed out lies apart from the control block, and not at its end. -/
theorem outside (hc : CustomPool env pool fns J) (h : Custom pool fns J s items) (hx : x ∈ items) :
    x.addr + x.size < pool ∨ pool + poolSize < x.addr := by
  obtain ⟨b, hb, rfl, hsize⟩ := hc.control h.keeps
  obtain ⟨c, hlive, hne, hstart, hend⟩ := hc.covered h.keeps hx
  have hother : c ≠ b := by
    rintro rfl
    exact hne rfl
  rcases Heap.apart_of_ne hlive hb hother with hlt | hlt
  · exact Or.inl (by omega)
  · exact Or.inr (by omega)

theorem owns (hc : CustomPool env pool fns J) (h : Custom pool fns J s items) (hx : x ∈ items) :
    s.heap.Owns x.addr x.size := by
  obtain ⟨c, hlive, -, hcover⟩ := hc.covered h.keeps hx
  exact ⟨c, hlive, hcover⟩

theorem write_custom (hc : CustomPool env pool fns J) (h : Custom pool fns J s items) (hx : x ∈ items)
    {a : ℕ} {bytes : List UInt8} (hstart : x.addr ≤ a)
    (hend : a + bytes.length ≤ x.addr + x.size) :
    Custom pool fns J ⟨s.heap.withMem (writeAt s.heap.mem a bytes), s.log⟩ items := by
  have hout := hc.outside h hx
  exact ⟨h.words.congr (Keeps.of_writeAt (by omega)), hc.write h.keeps hx hstart hend⟩

theorem pnalloc_custom (hc : CustomPool env pool fns J) (h : Custom pool fns J s items) :
    ∃ p s', pnalloc env s pool n = Except.ok (p, s') ∧ Custom pool fns J s' (granted items p n) ∧
      ItemsKept s s' items := by
  cases hrun : env.customAlloc fns.alloc fns.pool n s.heap with
  | mk p heap =>
    obtain ⟨hkeeps, hkept⟩ := hc.alloc h.keeps hrun
    refine ⟨p, ⟨heap, s.log⟩, ?_, ⟨h.words.congr (hkept _ List.mem_cons_self), hkeeps⟩,
      fun x hx => hkept x (List.mem_cons_of_mem _ hx)⟩
    unfold pnalloc
    rw [hc.customed_eq h, ok_bind, if_pos rfl, hc.load h (by decide), ok_bind,
      hc.load h (by decide), ok_bind, h.words.alloc, h.words.custom, hrun]
    rfl

theorem pfree_custom (hc : CustomPool env pool fns J) (h : Custom pool fns J s (x :: items)) :
    ∃ s', pfree env s pool x.addr = Except.ok (true, s') ∧ Custom pool fns J s' items ∧
      ItemsKept s s' items := by
  obtain ⟨heap, hfree, hkeeps, hkept⟩ := hc.free h.keeps
  refine ⟨⟨heap, s.log⟩, ?_, ⟨h.words.congr (hkept _ List.mem_cons_self), hkeeps⟩,
    fun x hx => hkept x (List.mem_cons_of_mem _ hx)⟩
  unfold pfree
  rw [hc.customed_eq h, ok_bind, if_pos rfl, hc.load h (by decide), ok_bind,
    hc.load h (by decide), ok_bind, h.words.free, h.words.custom, hfree, ok_bind]
  rfl

/-- The end of `hcore_prealloc` in a custom pool. -/
theorem moveBlock_custom (hc : CustomPool env pool fns J) (h : Custom pool fns J s (x :: items))
    (hn : n ≠ 0) (hx : x.addr ≠ 0) :
    ∃ p s', moveBlock env s pool x.addr x.size n = Except.ok (p, s') ∧
      Custom pool fns J s' (resized x items p n) ∧ ItemsKept s s' items := by
  unfold moveBlock resized
  by_cases hle : n ≤ x.size
  · refine ⟨x.addr, s, if_pos hle, ?_, fun _ _ => Keeps.refl _ _ _⟩
    rw [if_neg hn, if_neg hx]
    exact ⟨h.words, hc.shrink h.keeps hle⟩
  · obtain ⟨p, s1, hrun, h1, hkept1⟩ := hc.pnalloc_custom h (n := n)
    have hkept : ItemsKept s s1 items := fun y hy => hkept1 y (List.mem_cons_of_mem _ hy)
    rw [if_neg hle, hrun, ok_bind]
    dsimp only
    by_cases hp : p = 0
    · rw [granted, if_pos hp] at h1
      exact ⟨0, s1, if_pos hp, by rwa [if_neg hn, if_pos rfl], hkept⟩
    · rw [granted, if_neg hp] at h1
      have hnew : (⟨p, n⟩ : Range) ∈ (⟨p, n⟩ :: x :: items) := List.mem_cons_self
      have hold : x ∈ (⟨p, n⟩ :: x :: items) := List.mem_cons_of_mem _ List.mem_cons_self
      obtain ⟨hapart, -⟩ := List.pairwise_cons.mp (hc.apart h1.keeps)
      have hdst : s1.heap.Owns p x.size := (hc.owns h1 hnew).mono (le_refl p) (by
        dsimp only
        omega)
      have hcopy := memcpy_of_owns hdst (hc.owns h1 hold) (by
        have hx := hapart x List.mem_cons_self
        unfold Range.Apart at hx
        dsimp only at hx
        omega)
      have hlen : p + (readAt s1.heap.mem x.addr x.size).length ≤ p + n := by
        rw [readAt_length]
        omega
      have h2 := hc.write_custom h1 hnew (le_refl p) hlen
      have h2' : Custom pool fns J _ (x :: ⟨p, n⟩ :: items) :=
        ⟨h2.words, hc.perm h2.keeps (List.Perm.swap ..)⟩
      obtain ⟨s3, hfree, h3, hkept3⟩ := hc.pfree_custom h2'
      refine ⟨p, s3, ?_, by rwa [if_neg hn, if_neg hp], fun y hy => ?_⟩
      · rw [if_neg hp, hcopy, ok_bind, hfree]
        rfl
      · have hother := (hapart y (List.mem_cons_of_mem _ hy)).symm
        have hwritten : y.Kept s1.heap.mem (writeAt s1.heap.mem p (readAt s1.heap.mem x.addr x.size)) :=
          (hother.symm.mono (le_refl p) hlen).symm.kept
        exact Keeps.trans (hkept y hy)
          (Keeps.trans hwritten (hkept3 y (List.mem_cons_of_mem _ hy)))

theorem prealloc_custom (hc : CustomPool env pool fns J) (h : Custom pool fns J s (x :: items))
    (hx : x.addr ≠ 0) :
    ∃ p s', prealloc env s pool x.addr x.size n = Except.ok (p, s') ∧
      Custom pool fns J s' (resized x items p n) ∧ ItemsKept s s' items := by
  have hout := hc.outside h List.mem_cons_self
  have hbound : x.addr + x.size < 2 ^ 64 := by
    obtain ⟨c, hlive, -, hcover⟩ := hc.covered h.keeps (List.mem_cons_self (a := x))
    have htop := (s.heap.inRange c hlive).2
    have hend := hcover.2
    omega
  have htail : toUInt64 (x.addr + x.size : ℕ) ≠ pool + poolSize := by
    rw [toUInt64_of_lt hbound]
    omega
  unfold prealloc
  rw [if_neg hx]
  by_cases hn : n = 0
  · obtain ⟨s', hfree, h', hkept⟩ := hc.pfree_custom h
    rw [if_pos hn, hc.load h (by decide), ok_bind, h.words.last, if_neg htail, hfree, ok_bind]
    refine ⟨0, s', rfl, ?_, hkept⟩
    rwa [resized, if_pos hn]
  · rw [if_neg hn, hc.load h (by decide), ok_bind, h.words.max]
    obtain ⟨p, s', hmove, hrest⟩ := hc.moveBlock_custom h hn hx
    refine ⟨p, s', ?_, hrest⟩
    split
    · obtain ⟨fuel, hfuel⟩ := addresses_succ
      have hloop : resizeLast s x.addr x.size n addresses pool = Except.ok none := by
        rw [hfuel, resizeLast, hc.load h (by decide), ok_bind, hc.load h (by decide), ok_bind,
          h.words.last, if_neg fun hand => htail hand.1, hc.load h (by decide), ok_bind,
          h.words.next, if_pos rfl]
        rfl
      rw [hloop, ok_bind]
      exact hmove
    · exact hmove

theorem serves (hc : CustomPool env pool fns J) : Serves env pool (Custom pool fns J) where
  perm h hperm := ⟨h.words, hc.perm h.keeps hperm⟩
  drop h := ⟨h.words, hc.drop h.keeps⟩
  apart h := hc.apart h.keeps
  owns h hx := hc.owns h hx
  tail h := ⟨hc.load h (by decide), hc.load h (by decide)⟩
  palloc h _ := hc.pnalloc_custom h
  resize h hx _ := hc.prealloc_custom h hx
  extend := by
    intro s items x n h hlast _
    rw [tailOf, h.words.last] at hlast
    have hout := hc.outside h List.mem_cons_self
    omega
  write h hx hstart hend := hc.write_custom h hx hstart hend

end CustomPool

/-- Every block that is handed out is one of the allocator. -/
structure OwnBlocks (pool : ℕ) (h : Heap) (items : List Range) : Prop where
  control : ∃ b ∈ h.live, b.addr = pool ∧ b.size = poolSize
  blocks : ∀ x ∈ items, ∃ c ∈ h.live, c.addr ≠ pool ∧ c.addr = x.addr ∧ x.size ≤ c.size
  once : (items.map Range.addr).Nodup

namespace OwnBlocks

variable {env : Env} {pool : ℕ} {fns : Functions} {h : Heap} {items : List Range} {x y : Range}

theorem apart_of_ne (ho : OwnBlocks pool h items) (hx : x ∈ items) (hy : y ∈ items)
    (hne : x.addr ≠ y.addr) : x.Apart y := by
  obtain ⟨c, hc, -, hcx, hsize⟩ := ho.blocks x hx
  obtain ⟨d, hd, -, hdy, hsize'⟩ := ho.blocks y hy
  have hother : c ≠ d := by
    rintro rfl
    exact hne (hcx.symm.trans hdy)
  unfold Range.Apart
  rcases Heap.apart_of_ne hc hd hother with hlt | hlt <;> omega

/-- What lies in a live block is kept when another one is made. -/
theorem kept_of_malloc {A : Allocator} {n p : ℕ} {h' : Heap} {c : Block} (hc : c ∈ h.live)
    (hrun : malloc A h n = (p, h')) : Keeps h.mem h'.mem c.addr c.size := by
  rcases malloc_cases hrun with ⟨-, rfl⟩ | ⟨hfits, -, -, hkeep⟩
  · exact Keeps.refl _ _ _
  · intro a ha ha'
    have hapart := hfits.apart c hc
    exact hkeep a (by omega)

theorem alloc {A : Allocator} {n p : ℕ} {h' : Heap} (ho : OwnBlocks pool h items)
    (hrun : malloc A h n = (p, h')) :
    OwnBlocks pool h' (granted items p n) ∧
      ∀ x ∈ (⟨pool, poolSize⟩ :: items), x.Kept h.mem h'.mem := by
  obtain ⟨b, hb, hbpool, hbsize⟩ := ho.control
  refine ⟨?_, List.forall_mem_cons.mpr ⟨?_, fun x hx => ?_⟩⟩
  · rcases malloc_cases hrun with ⟨rfl, rfl⟩ | ⟨hfits, hlive, -, -⟩
    · exact ⟨⟨b, hb, hbpool, hbsize⟩, ho.blocks, ho.once⟩
    · have hold {c : Block} (hc : c ∈ h.live) : c ∈ h'.live := by
        rw [hlive]
        exact List.mem_cons_of_mem _ hc
      have hnew {c : Block} (hc : c ∈ h.live) : c.addr ≠ p := by
        have hapart := hfits.apart c hc
        omega
      rw [granted, if_neg hfits.pos.ne']
      refine ⟨⟨b, hold hb, hbpool, hbsize⟩, List.forall_mem_cons.mpr ⟨?_, fun x hx => ?_⟩, ?_⟩
      · refine ⟨⟨h.calls, p, n⟩, ?_, ?_, rfl, le_refl n⟩
        · rw [hlive]
          exact List.mem_cons_self
        · exact hbpool ▸ (hnew hb).symm
      · obtain ⟨c, hc, hrest⟩ := ho.blocks x hx
        exact ⟨c, hold hc, hrest⟩
      · rw [List.map_cons, List.nodup_cons]
        refine ⟨fun hmem => ?_, ho.once⟩
        obtain ⟨x, hx, hxp⟩ := List.mem_map.mp hmem
        obtain ⟨c, hc, -, hcx, -⟩ := ho.blocks x hx
        exact hnew hc (hcx.trans hxp)
  · have hkept := kept_of_malloc hb hrun
    rwa [hbpool, hbsize] at hkept
  · obtain ⟨c, hc, -, hcx, hsize⟩ := ho.blocks x hx
    intro a ha ha'
    exact kept_of_malloc hc hrun a (by omega) (by omega)

theorem free (ho : OwnBlocks pool h (x :: items)) :
    ∃ h', CHeap.free h x.addr = Except.ok h' ∧ OwnBlocks pool h' items ∧
      ∀ y ∈ (⟨pool, poolSize⟩ :: items), y.Kept h.mem h'.mem := by
  obtain ⟨c, hc, hcpool, hcx, -⟩ := ho.blocks x List.mem_cons_self
  obtain ⟨h', hfree, hmem, -, hlive⟩ := free_live hc
  obtain ⟨b, hb, hbpool, hbsize⟩ := ho.control
  have honce := List.nodup_cons.mp (List.map_cons ▸ ho.once)
  rw [hcx] at hfree
  refine ⟨h', hfree, ⟨?_, fun y hy => ?_, honce.2⟩, fun y _ => ?_⟩
  · refine ⟨b, (hlive b).mpr ⟨hb, ?_⟩, hbpool, hbsize⟩
    rintro rfl
    exact hcpool hbpool
  · obtain ⟨d, hd, hdpool, hdy, hsize⟩ := ho.blocks y (List.mem_cons_of_mem _ hy)
    refine ⟨d, (hlive d).mpr ⟨hd, ?_⟩, hdpool, hdy, hsize⟩
    rintro rfl
    exact honce.1 (hcx.symm.trans hdy ▸ List.mem_map_of_mem hy)
  · unfold Range.Kept
    rw [hmem]
    exact Keeps.refl _ _ _

end OwnBlocks

/-- The control block that `hcore_create_custom_pool` makes. -/
def controlled (env : Env) (s : Proc) (c : Block) (fns : Functions) : Proc :=
  let t := ((((created env s c).put (c.addr + customPoolOffset) fns.pool).put
    (c.addr + customAllocOffset) fns.alloc).put (c.addr + customFreeOffset) fns.free).put
    (c.addr + customDestroyOffset) fns.destroy
  t.put (c.addr + customedOffset) (wordAt t.heap.mem (c.addr + customedOffset) / 2 * 2 + 1)

section

variable {env : Env} {s s' s1 : Proc} {c : Block} {fns : Functions} {p : ℕ}

theorem controlled_words (hsize : c.size = poolSize) (htop : c.addr + c.size < 2 ^ 64) :
    ControlWords (controlled env s c fns).heap.mem c.addr fns := by
  obtain ⟨hpool, halloc, hfree⟩ := fns.below
  have w : Words (created env s c).heap.mem c (c.addr + poolSize) (roomOf env c.size) [] [] :=
    created_words hsize.ge htop
  have hroom : roomOf env c.size = 0 := by
    rw [hsize]
    unfold roomOf
    split <;> omega
  unfold controlled
  dsimp only
  set t := ((((created env s c).put (c.addr + customPoolOffset) fns.pool).put
    (c.addr + customAllocOffset) fns.alloc).put (c.addr + customFreeOffset) fns.free).put
    (c.addr + customDestroyOffset) fns.destroy with ht
  have hflags : wordAt t.heap.mem (c.addr + customedOffset) / 2 * 2 + 1 < 2 ^ 64 := by
    have hword := wordAt_lt t.heap.mem (c.addr + customedOffset)
    omega
  constructor
  · simp (disch := decide) only [ht, put_mem, wordAt_header]
    exact wordAt_same hpool
  · simp (disch := decide) only [ht, put_mem, wordAt_header]
    exact wordAt_same halloc
  · simp (disch := decide) only [ht, put_mem, wordAt_header]
    exact wordAt_same hfree
  · simp (disch := decide) only [ht, put_mem, wordAt_header]
    exact w.last
  · simp (disch := decide) only [ht, put_mem, wordAt_header]
    rw [w.bound, hsize]
  · simp (disch := decide) only [ht, put_mem, wordAt_header]
    exact w.next
  · simp (disch := decide) only [ht, put_mem, wordAt_header]
    rw [w.max, hroom]
  · rw [put_mem, wordAt_same hflags]
    omega

theorem createCustomPool_eq (hne : ¬ (fns.pool = 0 ∨ fns.alloc = 0 ∨ fns.free = 0 ∨ fns.destroy = 0))
    (hsize : c.size = poolSize) (hmalloc : hcoreMalloc env s c.size = (c.addr, s1))
    (ho : Obtained s s1 c) :
    createCustomPool env s fns.pool fns.alloc fns.free fns.destroy =
      Except.ok (c.addr, controlled env s1 c fns) := by
  have hown : ∀ {t : Proc} {k : ℕ}, k + 8 ≤ poolSize → t.heap.live = s1.heap.live →
      t.heap.Owns (c.addr + k) 8 := by
    intro t k hk ht
    refine ⟨c, ?_, Nat.le_add_right _ _, by omega⟩
    rw [ht, ho.live]
    exact List.mem_cons_self
  have hstore : ∀ {t : Proc} {k v : ℕ}, k + 8 ≤ poolSize → t.heap.live = s1.heap.live →
      t.store (c.addr + k) v = Except.ok (t.put (c.addr + k) v) :=
    fun hk ht => Proc.store_of_owns (hown hk ht)
  unfold createCustomPool
  rw [if_neg hne, ← hsize, createPool_eq hsize.ge hmalloc ho, ok_bind]
  dsimp only
  rw [if_neg ho.fits.pos.ne']
  refine bind_of_ok (hstore (by decide) rfl) ?_
  refine bind_of_ok (hstore (by decide) rfl) ?_
  refine bind_of_ok (hstore (by decide) rfl) ?_
  refine bind_of_ok (hstore (by decide) rfl) ?_
  refine bind_of_ok (Proc.load_of_owns (hown (by decide) rfl)) ?_
  exact bind_of_ok (hstore (by decide) rfl) rfl

/-- A custom pool that has just been made has a control block. -/
theorem createCustomPool_words
    (hrun : createCustomPool env s fns.pool fns.alloc fns.free fns.destroy = Except.ok (p, s'))
    (hp : p ≠ 0) : ControlWords s'.heap.mem p fns := by
  by_cases hne : fns.pool = 0 ∨ fns.alloc = 0 ∨ fns.free = 0 ∨ fns.destroy = 0
  · rw [createCustomPool, if_pos hne] at hrun
    obtain ⟨rfl, -⟩ := Prod.mk.inj (Except.ok.inj hrun)
    exact absurd rfl hp
  · rcases hcoreMalloc_cases env s poolSize with hfail | ⟨c, s1, hmalloc, hsize, ho⟩
    · have hcreate : createPool env s poolSize =
          Except.ok (0, (hcoreMalloc env s poolSize).2) := by
        unfold createPool
        rw [hfail]
        rfl
      rw [createCustomPool, if_neg hne, hcreate, ok_bind] at hrun
      obtain ⟨rfl, -⟩ := Prod.mk.inj (Except.ok.inj hrun)
      exact absurd rfl hp
    · rw [← hsize] at hmalloc
      rw [createCustomPool_eq hne hsize hmalloc ho] at hrun
      obtain ⟨rfl, rfl⟩ := Prod.mk.inj (Except.ok.inj hrun)
      exact controlled_words hsize ho.fits.top

end

end HCore.PoolService
