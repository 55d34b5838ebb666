import HCore.ArrayRuns

/-!
Arrays that are made and destroyed in a pool. `hcore_array_create` puts the
array itself into the pool, and `hcore_array_destroy` gives the end of the pool
back as far as the array lies there. What else is in use keeps its place.
-/

namespace HCore.ArrayLife

open Machine LittleEndian CHeap PoolModel PoolService DynamicArray ArrayRuns

/-- `sizeof(hcore_array_t)` -/
def arraySize : ℕ := 40

/-- `hcore_array_create`: the place of the array, and the array, or nothing if
it returns NULL. -/
def arrayCreate (env : Env) (s : Proc) (pool n size : ℕ) : Exec (Option (ℕ × Arr) × Proc) := do
  let (p, s) ← pnalloc env s pool arraySize
  if p = 0 then pure (none, s)
  else do
    let (made, s) ← arrayInit env s pool n size
    pure (made.map fun a => (p, a), s)

/-- One of the two steps of `hcore_array_destroy`: `p->d.last` goes back to
`start` if it is `stop`. -/
def retract (s : Proc) (pool start stop : ℕ) : Exec Proc := do
  let last ← s.load (pool + lastOffset)
  if stop = last then s.store (pool + lastOffset) start else pure s

/-- `hcore_array_destroy` of the array `a` at `p`. -/
def arrayDestroy (s : Proc) (p : ℕ) (a : Arr) : Exec Proc := do
  let bytes := toUInt64 (a.size * a.nalloc : ℕ)
  let stop := toUInt64 (a.elts + bytes : ℕ)
  let s ← retract s a.pool (toUInt64 ((stop : ℤ) - bytes)) stop
  retract s a.pool p (toUInt64 (p + arraySize : ℕ))

def headRange (p : ℕ) : Range := ⟨p, arraySize⟩

/-- The arrays of a pool, and for each of them where it lies if
`hcore_array_create` has made it. -/
structure Lives where
  world : World
  heads : List (Option ℕ)

def headRanges (heads : List (Option ℕ)) : List Range := heads.reduceOption.map headRange

def Lives.items (w : Lives) : List Range := headRanges w.heads ++ w.world.items

/-- What the callers do beside the use of arrays. -/
inductive Step
  | use (op : Op)
  | create (n size : ℕ)
  | destroy (i : ℕ)

namespace Step

/-- An array that `hcore_array_init` has made lies elsewhere. -/
def headsAfter (heads : List (Option ℕ)) : Op → List (Option ℕ)
  | .init _ _ => none :: heads
  | .push _ => heads
  | .pushN _ _ => heads
  | .assign _ _ _ => heads
  | .palloc _ => heads
  | .pcalloc _ => heads
  | .prealloc _ _ => heads
  | .fill _ _ _ => heads

/-- The pointer that is returned, and the arrays after that; nothing if NULL is
returned for want of memory. -/
def run (env : Env) (pool : ℕ) (w : Lives) : Step → Exec (Option (ℕ × Lives))
  | use op => do
    let r ← op.run env pool w.world
    pure (r.map fun (p, world) => (p, ⟨world, headsAfter w.heads op⟩))
  | create n size => do
    let (made, s) ← arrayCreate env w.world.proc pool n size
    pure (made.map fun (p, a) =>
      (p, ⟨⟨s, ⟨a, []⟩ :: w.world.arrays, w.world.others⟩, some p :: w.heads⟩))
  | destroy i =>
    match w.world.arrays[i]?, (w.heads[i]?).join with
    | some h, some p => do
      let s ← arrayDestroy w.world.proc p h.arr
      pure (some (0, ⟨⟨s, w.world.arrays.eraseIdx i, w.world.others⟩, w.heads.eraseIdx i⟩))
    | none, _ => undefined
    | some _, none => undefined

/-- Only arrays that were created are destroyed. -/
def Valid (w : Lives) : Step → Prop
  | use op => op.Valid w.world
  | create n size => n < 2 ^ 32 ∧ size < 2 ^ 64
  | destroy i => ∃ p h, w.heads[i]? = some (some p) ∧ w.world.arrays[i]? = some h

def Fits (env : Env) (pool : ℕ) (w : Lives) : Step → Prop
  | use op => op.Fits env pool w.world
  | create n size => n * size < 2 ^ 64 ∧ FitsPool env pool w.world.proc arraySize ∧
      ∀ p s, pnalloc env w.world.proc pool arraySize = Except.ok (p, s) → p ≠ 0 →
        FitsPool env pool s (n * size)
  | destroy _ => True

end Step

/-- The end of the pool after an array of `bytes` bytes at `elts` that lies at `p` has been
destroyed. -/
def tailAfter (tail p elts bytes : ℕ) : ℕ :=
  let tail := if elts + bytes = tail then elts else tail
  if p + arraySize = tail then p else tail

section

variable {env : Env} {pool n p i : ℕ} {s s' : Proc} {Inv : Proc → List Range → Prop}
  {items : List Range} {w w' : Lives} {x : Range}

/-- What is granted goes behind the rest. -/
theorem granted_behind (extra items : List Range) (p n : ℕ) :
    (granted (extra ++ items) p n).Perm (extra ++ granted items p n) := by
  unfold granted
  split
  · exact List.Perm.refl _
  · exact List.perm_middle.symm

theorem resized_behind (extra items : List Range) (x : Range) (p n : ℕ) :
    (resized x (extra ++ items) p n).Perm (extra ++ resized x items p n) := by
  unfold resized
  split
  · exact List.Perm.refl _
  · split
    · exact List.perm_middle.symm
    · exact List.perm_middle.symm

/-- A pool serves its callers as well when some of what it has handed out is
set aside. -/
theorem beside (hs : Serves env pool Inv) (extra : List Range) :
    Serves env pool fun s items => Inv s (extra ++ items) where
  perm h hperm := hs.perm h (hperm.append_left extra)
  drop h := hs.drop (hs.perm h List.perm_middle)
  apart h := (List.pairwise_append.mp (hs.apart h)).2.1
  owns h hx := hs.owns h (List.mem_append_right _ hx)
  tail h := hs.tail h
  palloc h hfits := by
    obtain ⟨p, s', hrun, hinv, hkept⟩ := hs.palloc h hfits
    exact ⟨p, s', hrun, hs.perm hinv (granted_behind _ _ _ _),
      fun x hx => hkept x (List.mem_append_right _ hx)⟩
  resize h hne hfits := by
    obtain ⟨p, s', hrun, hinv, hkept⟩ := hs.resize (hs.perm h List.perm_middle) hne hfits
    exact ⟨p, s', hrun, hs.perm hinv (resized_behind _ _ _ _ _),
      fun x hx => hkept x (List.mem_append_right _ hx)⟩
  extend h hend hroom := by
    obtain ⟨s', hrun, hinv, hkept⟩ := hs.extend (hs.perm h List.perm_middle) hend hroom
    refine ⟨s', hrun, hs.perm hinv List.perm_middle.symm, fun x hx => hkept x ?_⟩
    exact List.perm_middle.mem_iff.mp (List.mem_append_right _ hx)
  write h hx hstart hend := hs.write h (List.mem_append_right _ hx) hstart hend

/-- What lies in front of the end of the pool. -/
def Bounded (pool : ℕ) (Inv : Proc → List Range → Prop) : Prop :=
  ∀ s items, Inv s items → tailOf s pool ≤ boundOf s pool

/-- The end of the pool goes back over something that is not used any more. -/
theorem retract_serves (hs : Serves env pool Inv) (hb : Bounded pool Inv)
    (h : Inv s (x :: items)) :
    ∃ s', retract s pool x.addr (x.addr + x.size) = Except.ok s' ∧ Inv s' items ∧
      ItemsKept s s' items ∧
      tailOf s' pool = if x.addr + x.size = tailOf s pool then x.addr else tailOf s pool := by
  unfold retract
  rw [(hs.tail h).1, ok_bind]
  by_cases hend : x.addr + x.size = tailOf s pool
  · have hlt := owns_lt (hs.owns h List.mem_cons_self)
    have hroom : x.addr + 0 ≤ boundOf s pool := by
      have hle := hb s _ h
      omega
    obtain ⟨s', hstore, hinv, hkept⟩ := hs.extend h hend hroom
    rw [if_pos hend, if_pos hend]
    exact ⟨s', hstore, hs.drop hinv, fun y hy => hkept y (List.mem_cons_of_mem _ hy),
      Proc.store_same hstore (by omega)⟩
  · rw [if_neg hend, if_neg hend]
    exact ⟨s, rfl, hs.drop h, fun y _ => Keeps.refl _ _ _, rfl⟩

theorem oneBlock_bounded (pool : ℕ) : Bounded pool (OneBlock pool) := by
  rintro s items ⟨b, last, max, records, rfl, h⟩
  unfold tailOf boundOf
  rw [h.words.last, h.words.bound]
  exact h.layout.fits

theorem custom_bounded {fns : Functions} {J : Heap → List Range → Prop} :
    Bounded pool (Custom pool fns J) := by
  intro s items h
  unfold tailOf boundOf
  rw [h.words.last, h.words.bound]

theorem arrayInit_nalloc {size : ℕ} {a : Arr}
    (hrun : arrayInit env s pool n size = Except.ok (some a, s')) : a.nalloc = n := by
  obtain ⟨⟨elts, s₁⟩, -, hrun⟩ := bind_eq_ok.mp hrun
  dsimp only at hrun
  split at hrun
  · cases hrun
  · obtain ⟨ha, -⟩ := Prod.mk.inj (Except.ok.inj hrun)
    rw [← Option.some.inj ha]

theorem arrayCreate_serves {size : ℕ} (hs : Serves env pool Inv) (h : Inv s items)
    (hn : n < 2 ^ 32) (hsize : size < 2 ^ 64) (hbytes : n * size < 2 ^ 64)
    (hfits : FitsPool env pool s arraySize)
    (hmore : ∀ p s₁, pnalloc env s pool arraySize = Except.ok (p, s₁) → p ≠ 0 →
      FitsPool env pool s₁ (n * size)) :
    ∃ made s', arrayCreate env s pool n size = Except.ok (made, s') ∧
      ∀ p a, made = some (p, a) → p ≠ 0 ∧ a.nelts = 0 ∧ a.size = size ∧ a.nalloc = n ∧
        a.pool = pool ∧ a.InBounds ∧ Inv s' (a.block :: headRange p :: items) ∧
        ItemsKept s s' items := by
  obtain ⟨p, s₁, hrun, hinv, hkept⟩ := hs.palloc h hfits
  unfold arrayCreate
  rw [hrun, ok_bind]
  dsimp only
  by_cases hp : p = 0
  · exact ⟨none, s₁, if_pos hp, fun p a ha => by cases ha⟩
  · rw [granted, if_neg hp] at hinv
    obtain ⟨made, s₂, hinit, hmade⟩ := arrayInit_serves hs hinv hn hsize hbytes (hmore p s₁ hrun hp)
    rw [if_neg hp, hinit]
    refine ⟨made.map fun a => (p, a), s₂, rfl, fun q a ha => ?_⟩
    obtain ⟨a', rfl, hpair⟩ := Option.map_eq_some_iff.mp ha
    obtain ⟨rfl, rfl⟩ := Prod.mk.inj hpair
    obtain ⟨hcount, hsize', hpool, hbounds, hinv', hkept'⟩ := hmade _ rfl
    exact ⟨hp, hcount, hsize', arrayInit_nalloc hinit, hpool, hbounds, hinv',
      hkept.trans fun x hx => hkept' x (List.mem_cons_of_mem _ hx)⟩

/-- `hcore_array_destroy` gives back nothing but the array. -/
theorem arrayDestroy_serves {a : Arr} (hs : Serves env pool Inv) (hb : Bounded pool Inv)
    (h : Inv s (a.block :: headRange p :: items)) (hpool : a.pool = pool) :
    ∃ s', arrayDestroy s p a = Except.ok s' ∧ Inv s' items ∧ ItemsKept s s' items ∧
      tailOf s' pool = tailAfter (tailOf s pool) p a.elts (a.nalloc * a.size) := by
  have hblock : a.elts + a.nalloc * a.size < 2 ^ 64 := owns_lt (hs.owns h List.mem_cons_self)
  have hhead : p + arraySize < 2 ^ 64 :=
    owns_lt (hs.owns h (List.mem_cons_of_mem _ List.mem_cons_self))
  obtain ⟨s₁, hrun₁, h₁, hkept₁, htail₁⟩ := retract_serves hs hb h
  obtain ⟨s₂, hrun₂, h₂, hkept₂, htail₂⟩ := retract_serves hs hb h₁
  have hbytes : toUInt64 (a.size * a.nalloc : ℕ) = a.nalloc * a.size := by
    rw [Nat.mul_comm]
    exact toUInt64_of_lt (by omega)
  have hstart : toUInt64 (((a.elts + a.nalloc * a.size : ℕ) : ℤ) - (a.nalloc * a.size : ℕ)) =
      a.elts := by
    unfold toUInt64
    omega
  refine ⟨s₂, ?_, h₂, fun x hx => ?_, ?_⟩
  · unfold arrayDestroy
    dsimp only
    rw [hbytes, toUInt64_of_lt hblock, hstart, toUInt64_of_lt hhead, hpool]
    exact bind_of_ok hrun₁ hrun₂
  · exact Keeps.trans (hkept₁ x (List.mem_cons_of_mem _ hx)) (hkept₂ x hx)
  · rw [htail₂, htail₁]
    rfl

end

/-- The arrays are in order beside their places. -/
def InOrder (pool : ℕ) (Inv : Proc → List Range → Prop) (w : Lives) : Prop :=
  Ordered pool (fun s items => Inv s (headRanges w.heads ++ items)) w.world

/-- The arrays are sound, and they, their places and what else is handed out
lie in live memory, apart from one another. -/
structure Sound (pool : ℕ) (w : Lives) : Prop where
  arrays : ∀ h ∈ w.world.arrays, h.Sound pool w.world.proc.heap.mem
  apart : w.items.Pairwise Range.Apart
  owned : ∀ x ∈ w.items, w.world.proc.heap.Owns x.addr x.size

/-- What a step does for its caller. -/
def Step.Answers (pool : ℕ) (w w' : Lives) (p : ℕ) : Step → Prop
  | use op => op.Answers w'.world p
  | create n size => p ≠ 0 ∧ w'.heads = some p :: w.heads ∧ ∃ a, a.nelts = 0 ∧ a.size = size ∧
      a.nalloc = n ∧ w'.world.arrays = ⟨a, []⟩ :: w.world.arrays
  | destroy i => ∃ h q, w.world.arrays[i]? = some h ∧ w.heads[i]? = some (some q) ∧
      w'.world.arrays = w.world.arrays.eraseIdx i ∧ w'.heads = w.heads.eraseIdx i ∧
      w'.world.others = w.world.others ∧
      tailOf w'.world.proc pool =
        tailAfter (tailOf w.world.proc pool) q h.arr.elts (h.arr.nalloc * h.arr.size)

/-- Runs of a pool of either kind. -/
inductive Run (env : Env) (pool : ℕ) : Lives → Prop
  | create {s s' : Proc} {size : ℕ} (hsize : poolSize ≤ size) (hlog : s.log = [])
      (hrun : createPool env s size = Except.ok (pool, s')) (hpool : pool ≠ 0) :
      Run env pool ⟨⟨s', [], []⟩, []⟩
  | createCustom {s s' : Proc} (fns : Functions) (J : Heap → List Range → Prop)
      (hcustom : CustomPool env pool fns J)
      (hrun : createCustomPool env s fns.pool fns.alloc fns.free fns.destroy =
        Except.ok (pool, s')) (hpool : pool ≠ 0) (hJ : J s'.heap []) :
      Run env pool ⟨⟨s', [], []⟩, []⟩
  | step {w w' : Lives} {p : ℕ} (step : Step) (h : Run env pool w) (hvalid : step.Valid w)
      (hfits : step.Fits env pool w) (hrun : step.run env pool w = Except.ok (some (p, w'))) :
      Run env pool w'

section

variable {env : Env} {pool : ℕ} {Inv : Proc → List Range → Prop} {w : Lives} {step : Step}

theorem headRanges_some (p : ℕ) (heads : List (Option ℕ)) :
    headRanges (some p :: heads) = headRange p :: headRanges heads := rfl

theorem headRanges_after (heads : List (Option ℕ)) (op : Op) :
    headRanges (Step.headsAfter heads op) = headRanges heads := by
  cases op
  all_goals rfl

/-- One place is taken out of the list. -/
theorem headRanges_erase {heads : List (Option ℕ)} {i p : ℕ} (hi : heads[i]? = some (some p)) :
    (headRanges heads).Perm (headRange p :: headRanges (heads.eraseIdx i)) := by
  obtain ⟨hlt, hget⟩ := List.getElem?_eq_some_iff.mp hi
  have hperm := List.getElem_cons_eraseIdx_perm hlt
  rw [hget] at hperm
  exact ((hperm.symm.filterMap id).map headRange)

theorem blocks_erase {arrays : List Held} {i : ℕ} {h : Held} (hi : arrays[i]? = some h) :
    (blocks arrays).Perm (h.arr.block :: blocks (arrays.eraseIdx i)) := by
  obtain ⟨hlt, rfl⟩ := List.getElem?_eq_some_iff.mp hi
  exact (List.getElem_cons_eraseIdx_perm hlt).symm.map _

theorem InOrder.sound (hs : Serves env pool Inv) (h : InOrder pool Inv w) : Sound pool w :=
  ⟨h.arrays, hs.apart h.inv, fun _ hx => hs.owns h.inv hx⟩

theorem InOrder.use {op : Op} (hs : Serves env pool Inv) (h : InOrder pool Inv w)
    (hvalid : op.Valid w.world) (hfits : op.Fits env pool w.world) :
    ∃ r, (Step.use op).run env pool w = Except.ok r ∧ ∀ p w', r = some (p, w') →
      InOrder pool Inv w' ∧ (Step.use op).Answers pool w w' p := by
  obtain ⟨r, hrun, hstep⟩ := Op.serves (beside hs (headRanges w.heads)) h hvalid hfits
  refine ⟨_, bind_of_ok hrun rfl, fun p w' hr => ?_⟩
  obtain ⟨⟨q, world⟩, rfl, hpair⟩ := Option.map_eq_some_iff.mp hr
  obtain ⟨rfl, rfl⟩ := Prod.mk.inj hpair
  obtain ⟨hordered, hanswer⟩ := hstep _ _ rfl
  unfold InOrder
  rw [headRanges_after]
  exact ⟨hordered, hanswer⟩

theorem InOrder.create {n size : ℕ} (hs : Serves env pool Inv) (h : InOrder pool Inv w)
    (hvalid : (Step.create n size).Valid w) (hfits : (Step.create n size).Fits env pool w) :
    ∃ r, (Step.create n size).run env pool w = Except.ok r ∧ ∀ p w', r = some (p, w') →
      InOrder pool Inv w' ∧ (Step.create n size).Answers pool w w' p := by
  obtain ⟨made, s', hrun, hmade⟩ :=
    arrayCreate_serves hs h.inv hvalid.1 hvalid.2 hfits.1 hfits.2.1 hfits.2.2
  refine ⟨_, bind_of_ok hrun rfl, fun p w' hr => ?_⟩
  obtain ⟨⟨q, a⟩, rfl, hpair⟩ := Option.map_eq_some_iff.mp hr
  obtain ⟨rfl, rfl⟩ := Prod.mk.inj hpair
  obtain ⟨hne, hcount, hsize, hnalloc, hpool, hbounds, hinv, hkept⟩ := hmade _ _ rfl
  refine ⟨⟨hs.perm hinv ?_, ?_⟩, hne, rfl, a, hcount, hsize, hnalloc, rfl⟩
  · rw [headRanges_some]
    exact (List.Perm.swap _ _ _).trans (List.perm_middle.symm.cons _)
  · refine List.forall_mem_cons.mpr ⟨Held.Sound.empty hpool hcount hbounds, fun k hk => ?_⟩
    have hmem : k.arr.block ∈ headRanges w.heads ++ w.world.items :=
      List.mem_append_right _ (List.mem_append_left _ (mem_blocks hk))
    exact (h.arrays k hk).frame (hkept _ hmem)

theorem InOrder.destroy {i : ℕ} (hs : Serves env pool Inv) (hb : Bounded pool Inv)
    (h : InOrder pool Inv w) (hvalid : (Step.destroy i).Valid w) :
    ∃ r, (Step.destroy i).run env pool w = Except.ok r ∧ ∀ p w', r = some (p, w') →
      InOrder pool Inv w' ∧ (Step.destroy i).Answers pool w w' p := by
  obtain ⟨q, k, hhead, harray⟩ := hvalid
  have hperm : (headRanges w.heads ++ w.world.items).Perm (k.arr.block :: headRange q ::
      (headRanges (w.heads.eraseIdx i) ++
        (blocks (w.world.arrays.eraseIdx i) ++ w.world.others))) := by
    refine ((headRanges_erase hhead).append ((blocks_erase harray).append_right _)).trans ?_
    exact (List.perm_middle.cons _).trans (List.Perm.swap _ _ _)
  have hmem := List.mem_of_getElem? harray
  obtain ⟨s', hrun, hinv, hkept, htail⟩ :=
    arrayDestroy_serves hs hb (hs.perm h.inv hperm) (h.arrays k hmem).pool
  have hstep : (Step.destroy i).run env pool w = Except.ok (some (0,
      ⟨⟨s', w.world.arrays.eraseIdx i, w.world.others⟩, w.heads.eraseIdx i⟩)) := by
    unfold Step.run
    dsimp only
    rw [harray, hhead]
    exact bind_of_ok hrun rfl
  refine ⟨_, hstep, fun p w' hr => ?_⟩
  obtain ⟨rfl, rfl⟩ := Prod.mk.inj (Option.some.inj hr)
  refine ⟨⟨hinv, fun g hg => ?_⟩, k, q, harray, hhead, rfl, rfl, rfl, htail⟩
  have hblock : g.arr.block ∈ headRanges (w.heads.eraseIdx i) ++
      (blocks (w.world.arrays.eraseIdx i) ++ w.world.others) :=
    List.mem_append_right _ (List.mem_append_left _ (mem_blocks hg))
  exact (h.arrays g (List.mem_of_mem_eraseIdx hg)).frame (hkept _ hblock)

theorem InOrder.serves (hs : Serves env pool Inv) (hb : Bounded pool Inv) (h : InOrder pool Inv w)
    (hvalid : step.Valid w) (hfits : step.Fits env pool w) :
    ∃ r, step.run env pool w = Except.ok r ∧ ∀ p w', r = some (p, w') →
      InOrder pool Inv w' ∧ step.Answers pool w w' p := by
  cases step with
  | use op => exact h.use hs hvalid hfits
  | create n size => exact h.create hs hvalid hfits
  | destroy i => exact h.destroy hs hb hvalid

theorem InOrder.run (hs : Serves env pool Inv) (hb : Bounded pool Inv) (h : InOrder pool Inv w)
    {p : ℕ} {w' : Lives} (hvalid : step.Valid w) (hfits : step.Fits env pool w)
    (hrun : step.run env pool w = Except.ok (some (p, w'))) :
    InOrder pool Inv w' ∧ step.Answers pool w w' p := by
  obtain ⟨r, hrun', hstep⟩ := h.serves hs hb hvalid hfits
  obtain rfl := Except.ok.inj (hrun'.symm.trans hrun)
  exact hstep _ _ rfl

theorem Run.inOrder (h : Run env pool w) : InOrder pool (OneBlock pool) w ∨
    ∃ fns J, CustomPool env pool fns J ∧ InOrder pool (Custom pool fns J) w := by
  induction h with
  | create hsize hlog hrun hpool =>
    exact Or.inl ⟨createPool_oneBlock hsize hlog hrun hpool,
      fun h hh => absurd hh List.not_mem_nil⟩
  | createCustom fns J hcustom hrun hpool hJ =>
    exact Or.inr ⟨fns, J, hcustom, ⟨createCustomPool_words hrun hpool, hJ⟩,
      fun h hh => absurd hh List.not_mem_nil⟩
  | step step _ hvalid hfits hrun ih =>
    rcases ih with h | ⟨fns, J, hcustom, h⟩
    · exact Or.inl (h.run (oneBlock_serves env pool) (oneBlock_bounded pool) hvalid hfits hrun).1
    · exact Or.inr ⟨fns, J, hcustom, (h.run hcustom.serves custom_bounded hvalid hfits hrun).1⟩

end

/-- The arrays after a step that returns. -/
def livesOf (x : Exec (Option (ℕ × Lives))) : Lives :=
  match x with
  | .ok (some (_, w)) => w
  | .ok none => ⟨⟨idleProc, [], []⟩, []⟩
  | .error _ => ⟨⟨idleProc, [], []⟩, []⟩

theorem eq_livesOf {x : Exec (Option (ℕ × Lives))} {p : ℕ}
    (h : x.map (Option.map Prod.fst) = Except.ok (some p)) :
    x = Except.ok (some (p, livesOf x)) := by
  cases x with
  | error e => cases h
  | ok r =>
    cases r with
    | none => cases h
    | some r =>
      cases h
      rfl

/-- A pool with room for 64 bytes, and an array for one element of 8 in it. -/
def bare : Lives := ⟨⟨resultOf (createPool bumpEnv idleProc 184), [], []⟩, []⟩

def single : Lives := livesOf ((Step.create 1 8).run bumpEnv 16 bare)

theorem bare_run : Run bumpEnv 16 bare :=
  .create (by decide : poolSize ≤ 184) rfl (eq_resultOf (by decide +kernel)) (by decide)

theorem single_fits : (Step.create 1 8).Fits bumpEnv 16 bare := by
  have hrun : pnalloc bumpEnv bare.world.proc 16 arraySize =
      Except.ok (136, resultOf (pnalloc bumpEnv bare.world.proc 16 arraySize)) :=
    eq_resultOf (by decide +kernel)
  have hroom : FindsRoom bumpEnv bare.world.proc 16 arraySize := by decide +kernel
  have hmore : FindsRoom bumpEnv (resultOf (pnalloc bumpEnv bare.world.proc 16 arraySize)) 16
      (1 * 8) := by decide +kernel
  refine ⟨by decide, Or.inr hroom, fun p s h _ => ?_⟩
  obtain ⟨-, rfl⟩ := Prod.mk.inj (Except.ok.inj (hrun.symm.trans h))
  exact Or.inr hmore

theorem single_step : (Step.create 1 8).run bumpEnv 16 bare = Except.ok (some (136, single)) :=
  eq_livesOf (by decide +kernel)

theorem single_places : single.heads = [some 136] ∧
    single.world.arrays.map (fun h => (h.arr.elts, h.arr.nalloc)) = [(176, 1)] := by
  constructor
  · decide +kernel
  · decide +kernel

theorem single_valid : (Step.destroy 0).Valid single := by
  obtain ⟨hheads, harrays⟩ := single_places
  have hlen := congrArg List.length harrays
  rw [List.length_map] at hlen
  have hlt : 0 < single.world.arrays.length := by
    rw [hlen]
    exact Nat.one_pos
  exact ⟨136, _, by rw [hheads]; rfl, List.getElem?_eq_getElem hlt⟩

end HCore.ArrayLife
