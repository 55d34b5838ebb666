import HCore.ArrayLife

/-!
Arrays on the end of a pool. Arrays that are destroyed in the opposite order of
their creation, and that grow only when they are the last one, leave the pool
as long as it was.
-/

namespace HCore.ArrayLife

open Machine LittleEndian CHeap PoolModel PoolService DynamicArray ArrayRuns

/-- `p->max` of a pool -/
def maxOf (s : Proc) (pool : ℕ) : ℕ := wordAt s.heap.mem (pool + maxOffset)

/-- Arrays with their places lie one behind the other at the end of the pool,
above what was there when its end was `t`. -/
inductive Stacked (heads₀ : List (Option ℕ)) (blocks₀ : List Range) (t : ℕ) :
    List (Option ℕ) → List Range → ℕ → Prop
  | base : Stacked heads₀ blocks₀ t heads₀ blocks₀ t
  | above {p : ℕ} {heads : List (Option ℕ)} {blocks : List Range} {x : Range}
      (below : Stacked heads₀ blocks₀ t heads blocks p) (next : x.addr = p + arraySize) :
      Stacked heads₀ blocks₀ t (some p :: heads) (x :: blocks) (x.addr + x.size)

/-- An array finds its slots free, or it is the last one above the first `base`
arrays and there is room behind it. -/
def SlotsInPlace (pool base : ℕ) (w : World) (i n : ℕ) : Prop :=
  ∀ h, w.arrays[i]? = some h → h.arr.nelts + n ≤ h.arr.nalloc ∨
    i = 0 ∧ base < w.arrays.length ∧
      tailOf w.proc pool + n * h.arr.size ≤ boundOf w.proc pool

/-- The steps that use the pool as a stack above its first `base` arrays. -/
def Step.InPlace (pool base : ℕ) (w : Lives) : Step → Prop
  | use (.push i) => SlotsInPlace pool base w.world i 1
  | use (.pushN i n) => SlotsInPlace pool base w.world i n
  | use (.assign _ _ _) => True
  | use (.fill _ _ _) => True
  | use (.init _ _) => False
  | use (.palloc _) => False
  | use (.pcalloc _) => False
  | use (.prealloc _ _) => False
  | create n size =>
    max arraySize (n * size) ≤ maxOf w.world.proc pool ∧
      tailOf w.world.proc pool + arraySize + n * size ≤ boundOf w.world.proc pool
  | destroy i => i = 0 ∧ base < w.world.arrays.length

/-- Steps of a pool that is used as a stack from `w₀` on. -/
inductive Stack (env : Env) (pool : ℕ) (w₀ : Lives) : Lives → Prop
  | start : Stack env pool w₀ w₀
  | step {w w' : Lives} {p : ℕ} (step : Step) (h : Stack env pool w₀ w) (hvalid : step.Valid w)
      (hfits : step.Fits env pool w) (hplace : step.InPlace pool w₀.world.arrays.length w)
      (hrun : step.run env pool w = Except.ok (some (p, w'))) : Stack env pool w₀ w'

section

variable {env : Env} {pool n p t : ℕ} {s s' : Proc} {items : List Range} {a a' : Arr}
  {heads₀ heads : List (Option ℕ)} {blocks₀ bs : List Range} {tail : ℕ}

theorem Stacked.length_le (h : Stacked heads₀ blocks₀ t heads bs tail) :
    blocks₀.length ≤ bs.length := by
  induction h with
  | base => exact le_refl _
  | above below next ih =>
    rw [List.length_cons]
    omega

/-- As many arrays as before are the same ones. -/
theorem Stacked.eq_base (h : Stacked heads₀ blocks₀ t heads bs tail)
    (hlen : bs.length ≤ blocks₀.length) : heads = heads₀ ∧ bs = blocks₀ ∧ tail = t := by
  cases h with
  | base => exact ⟨rfl, rfl, rfl⟩
  | above below next =>
    have hle := below.length_le
    rw [List.length_cons] at hlen
    omega

/-- The last array above the base. -/
theorem Stacked.last (h : Stacked heads₀ blocks₀ t heads bs tail)
    (hlen : blocks₀.length < bs.length) :
    ∃ p heads' x blocks', heads = some p :: heads' ∧ bs = x :: blocks' ∧
      x.addr = p + arraySize ∧ tail = x.addr + x.size ∧
      Stacked heads₀ blocks₀ t heads' blocks' p := by
  cases h with
  | base => exact absurd hlen (lt_irrefl _)
  | above below next => exact ⟨_, _, _, _, rfl, rfl, next, rfl, below⟩

/-- The other fields of the header when the end of the pool moves. -/
theorem header_of_tail (hstore : s.store (pool + lastOffset) n = Except.ok s')
    (hn : n < 2 ^ 64) :
    tailOf s' pool = n ∧ boundOf s' pool = boundOf s pool ∧ maxOf s' pool = maxOf s pool :=
  ⟨Proc.store_same hstore hn,
    Proc.store_other hstore (Or.inr (Nat.add_le_add_left (by decide : lastOffset + 8 ≤ _) _)),
    Proc.store_other hstore (Or.inr (Nat.add_le_add_left (by decide : lastOffset + 8 ≤ _) _))⟩

theorem boundOf_lt (s : Proc) (pool : ℕ) : boundOf s pool < 2 ^ 64 := wordAt_lt _ _

/-- A small request is served from the end of the block. -/
theorem oneBlock_take (env : Env) (h : OneBlock pool s items) (hmax : n ≤ maxOf s pool)
    (hroom : tailOf s pool + n ≤ boundOf s pool) :
    ∃ s', pnalloc env s pool n = Except.ok (tailOf s pool, s') ∧ tailOf s pool ≠ 0 ∧
      OneBlock pool s' (⟨tailOf s pool, n⟩ :: items) ∧ tailOf s' pool = tailOf s pool + n ∧
      boundOf s' pool = boundOf s pool ∧ maxOf s' pool = maxOf s pool := by
  have hlt := boundOf_lt s pool
  have hfits : FindsRoom env s pool n := by
    unfold FindsRoom
    exact (if_pos hmax).mpr hroom
  obtain ⟨p, s', hrun, hinv, -⟩ := (oneBlock_serves env pool).palloc h (Or.inr hfits)
  obtain ⟨b, last, max, records, rfl, hholds⟩ := h
  have htail : tailOf s b.addr = last := hholds.words.last
  have hbound : boundOf s b.addr = b.addr + b.size := hholds.words.bound
  have hmaxOf : maxOf s b.addr = max := hholds.words.max
  rw [htail, hbound] at hroom
  have hstore : s.store (b.addr + lastOffset) (last + n) =
      Except.ok (s.put (b.addr + lastOffset) (last + n)) :=
    Proc.store_of_owns (hholds.owns_word (by decide))
  have hrun' : pnalloc env s b.addr n =
      Except.ok (last, s.put (b.addr + lastOffset) (last + n)) := by
    unfold pnalloc
    rw [hholds.not_customed, ok_bind, if_neg Bool.false_ne_true, hholds.load_max, ok_bind,
      if_pos (hmaxOf ▸ hmax)]
    exact hholds.pallocSmall_of_room rfl hroom
  obtain ⟨rfl, rfl⟩ := Prod.mk.inj (Except.ok.inj (hrun.symm.trans hrun'))
  have hne : p ≠ 0 := by
    have hheader := hholds.layout.header
    unfold poolSize at hheader
    omega
  rw [granted, if_neg hne] at hinv
  rw [htail]
  exact ⟨_, hrun', hne, hinv, header_of_tail hstore (by omega)⟩

/-- A new array at the end of the block. -/
theorem create_last {size : ℕ} (env : Env) (h : OneBlock pool s items)
    (hmax : max arraySize (n * size) ≤ maxOf s pool)
    (hroom : tailOf s pool + arraySize + n * size ≤ boundOf s pool) :
    ∃ s', arrayCreate env s pool n size = Except.ok (some (tailOf s pool,
        ⟨tailOf s pool + arraySize, 0, size, n, pool⟩), s') ∧
      tailOf s' pool = tailOf s pool + arraySize + n * size := by
  have hlt := boundOf_lt s pool
  obtain ⟨s₁, hrun₁, hne, h₁, htail₁, hbound₁, hmax₁⟩ :=
    oneBlock_take env h ((le_max_left _ _).trans hmax) (by omega)
  obtain ⟨s₂, hrun₂, hne₂, -, htail₂, -⟩ := oneBlock_take env h₁ (n := n * size)
    (by rw [hmax₁]; exact (le_max_right _ _).trans hmax) (by omega)
  rw [htail₁] at hrun₂ hne₂ htail₂
  refine ⟨s₂, ?_, htail₂⟩
  unfold arrayCreate arrayInit
  rw [hrun₁, ok_bind, toUInt64_of_lt (by omega)]
  dsimp only
  rw [if_neg hne, hrun₂, ok_bind]
  dsimp only
  rw [if_neg hne₂]
  rfl

/-- The last array grows where it lies. -/
theorem grow_last {room : ℕ} (env : Env) (h : OneBlock a.pool s items)
    (hlast : a.elts + a.nalloc * a.size = tailOf s a.pool)
    (hroom : tailOf s a.pool + room ≤ boundOf s a.pool) (hcount : a.nalloc + n < 2 ^ 32) :
    ∃ s', (∀ nalloc bytes used, arrayGrow env s a n room nalloc bytes used =
        Except.ok (some { a with nalloc := a.nalloc + n }, s')) ∧
      tailOf s' a.pool = tailOf s a.pool + room := by
  have hlt := boundOf_lt s a.pool
  obtain ⟨hloadLast, hloadEnd⟩ := (oneBlock_serves env a.pool).tail h
  have hbytes : toUInt64 (a.size * a.nalloc : ℕ) = a.nalloc * a.size := by
    rw [Nat.mul_comm]
    exact toUInt64_of_lt (by omega)
  obtain ⟨b, last, max, records, hb, hholds⟩ := h
  have hstore : s.store (a.pool + lastOffset) (tailOf s a.pool + room) =
      Except.ok (s.put (a.pool + lastOffset) (tailOf s a.pool + room)) := by
    rw [← hb]
    exact Proc.store_of_owns (hholds.owns_word (by decide))
  refine ⟨_, fun nalloc bytes used => ?_, (header_of_tail hstore (by omega)).1⟩
  unfold arrayGrow
  rw [hloadLast, ok_bind, hloadEnd, ok_bind, hbytes, toUInt64_of_lt (by omega),
    toUInt64_of_lt (by omega), if_pos ⟨hlast, hroom⟩, hstore, ok_bind, toUInt32_of_lt hcount]
  rfl

/-- Writing what is handed out does not move the end of the pool. -/
theorem write_tail {x : Range} {k : ℕ} {bytes : List UInt8} (h : OneBlock pool s items)
    (hx : x ∈ items) (hstart : x.addr ≤ k) (hend : k + bytes.length ≤ x.addr + x.size) :
    tailOf ⟨s.heap.withMem (writeAt s.heap.mem k bytes), s.log⟩ pool = tailOf s pool := by
  obtain ⟨b, last, max, records, rfl, hholds⟩ := h
  obtain ⟨-, -, hkept⟩ := hholds.write hx hstart hend
  have hheader := hholds.layout.apart_header (List.mem_append_left _ hx)
  exact Keeps.word (hkept _ hheader.symm) (by decide : lastOffset + 8 ≤ poolSize)

/-- What a push in place does to the memory of its array and the end of the pool. -/
def GrowsInPlace (s s' : Proc) (a a' : Arr) (n : ℕ) : Prop :=
  a'.block = a.block ∧ tailOf s' a.pool = tailOf s a.pool ∨
    a.nalloc < a.nelts + n ∧ a'.block.addr = a.block.addr ∧
      a'.block.size = a.block.size + n * a.size ∧
      tailOf s' a.pool = tailOf s a.pool + n * a.size

theorem arrayPush_inPlace {elt : ℕ} (h : OneBlock a.pool s items)
    (hplace : a.nelts + 1 ≤ a.nalloc ∨ a.elts + a.nalloc * a.size = tailOf s a.pool ∧
      tailOf s a.pool + 1 * a.size ≤ boundOf s a.pool)
    (hfits : PushFits env s a) (hrun : arrayPush env s a = Except.ok (some (elt, a'), s')) :
    GrowsInPlace s s' a a' 1 := by
  unfold arrayPush at hrun
  dsimp only at hrun
  by_cases hfull : a.nelts = a.nalloc
  · obtain ⟨hlast, hroom⟩ := hplace.resolve_left (by omega)
    have hcount : a.nalloc + 1 < 2 ^ 32 := by
      have hgrowth := hfits.resolve_left (by omega)
      rwa [GrowthFits, if_pos ⟨hlast, hroom⟩] at hgrowth
    rw [Nat.one_mul] at hroom
    obtain ⟨s₁, hgrow, htail⟩ := grow_last env h hlast hroom hcount
    rw [if_pos hfull, hgrow, ok_bind] at hrun
    obtain ⟨hmade, rfl⟩ := Prod.mk.inj (Except.ok.inj hrun)
    obtain ⟨-, rfl⟩ := Prod.mk.inj (Option.some.inj hmade)
    rw [← Nat.one_mul a.size] at htail
    exact Or.inr ⟨by omega, rfl, Nat.add_mul _ _ _, htail⟩
  · rw [if_neg hfull] at hrun
    obtain ⟨hmade, rfl⟩ := Prod.mk.inj (Except.ok.inj hrun)
    obtain ⟨-, rfl⟩ := Prod.mk.inj (Option.some.inj hmade)
    exact Or.inl ⟨rfl, rfl⟩

theorem arrayPushN_inPlace {elt : ℕ} (h : OneBlock a.pool s items) (ha : a.InBounds)
    (hplace : a.nelts + n ≤ a.nalloc ∨ a.elts + a.nalloc * a.size = tailOf s a.pool ∧
      tailOf s a.pool + n * a.size ≤ boundOf s a.pool)
    (hfits : PushNFits env s a n)
    (hrun : arrayPushN env s a n = Except.ok (some (elt, a'), s')) :
    GrowsInPlace s s' a a' n := by
  have hnalloc := ha.nalloc
  unfold arrayPushN at hrun
  dsimp only at hrun
  by_cases hfree : a.nelts + n ≤ a.nalloc
  · rw [toUInt32_of_lt (by omega), if_neg (by omega)] at hrun
    obtain ⟨hmade, rfl⟩ := Prod.mk.inj (Except.ok.inj hrun)
    obtain ⟨-, rfl⟩ := Prod.mk.inj (Option.some.inj hmade)
    exact Or.inl ⟨rfl, rfl⟩
  · obtain ⟨hlast, hroom⟩ := hplace.resolve_left hfree
    obtain ⟨hsum, hgrowth⟩ := hfits.resolve_left hfree
    rw [GrowthFits, if_pos ⟨hlast, hroom⟩] at hgrowth
    have hlt := boundOf_lt s a.pool
    obtain ⟨s₁, hgrow, htail⟩ := grow_last env h hlast hroom hgrowth
    rw [toUInt32_of_lt hsum, if_pos (by omega), toUInt64_of_lt (x := n * a.size) (by omega), hgrow,
      ok_bind] at hrun
    obtain ⟨hmade, rfl⟩ := Prod.mk.inj (Except.ok.inj hrun)
    obtain ⟨-, rfl⟩ := Prod.mk.inj (Option.some.inj hmade)
    exact Or.inr ⟨by omega, rfl, Nat.add_mul _ _ _, htail⟩

end

/-- The arrays of `w` lie on the end of the pool above those of `w₀`. -/
def OnStack (pool : ℕ) (w₀ w : Lives) : Prop :=
  Stacked w₀.heads (blocks w₀.world.arrays) (tailOf w₀.world.proc pool) w.heads
    (blocks w.world.arrays) (tailOf w.world.proc pool)

section

variable {env : Env} {pool : ℕ} {w₀ w w' : Lives} {step : Step} {i n p : ℕ} {h : Held}
  {s' : Proc} {a' : Arr}

theorem blocks_set {arrays : List Held} (i : ℕ) (k : Held) :
    blocks (arrays.set i k) = (blocks arrays).set i k.arr.block := List.map_set

theorem blocks_set_same {arrays : List Held} {k : Held} (hi : arrays[i]? = some h)
    (hblock : k.arr.block = h.arr.block) : blocks (arrays.set i k) = blocks arrays := by
  obtain ⟨hlt, rfl⟩ := List.getElem?_eq_some_iff.mp hi
  have hlen : i < (blocks arrays).length := by rwa [blocks, List.length_map]
  have hsame : (blocks arrays)[i] = k.arr.block := by
    rw [hblock]
    exact List.getElem_map _
  rw [blocks_set, ← hsame, List.set_getElem_self]

/-- The last array above those of `w₀` ends where the pool does. -/
theorem OnStack.last (hs : OnStack pool w₀ w) (hi : w.world.arrays[0]? = some h)
    (hlen : w₀.world.arrays.length < w.world.arrays.length) :
    ∃ p heads bs, w.heads = some p :: heads ∧ blocks w.world.arrays = h.arr.block :: bs ∧
      h.arr.block.addr = p + arraySize ∧
      tailOf w.world.proc pool = h.arr.block.addr + h.arr.block.size ∧
      Stacked w₀.heads (blocks w₀.world.arrays) (tailOf w₀.world.proc pool) heads bs p := by
  have hlen' : (blocks w₀.world.arrays).length < (blocks w.world.arrays).length := by
    unfold blocks
    rwa [List.length_map, List.length_map]
  obtain ⟨p, heads, x, bs, hheads, hblocks, hnext, hlast, hbelow⟩ := Stacked.last hs hlen'
  have hget : (blocks w.world.arrays)[0]? = some h.arr.block := by
    rw [blocks, List.getElem?_map, hi]
    rfl
  rw [hblocks] at hget
  obtain rfl : x = h.arr.block := Option.some.inj hget
  exact ⟨p, heads, bs, hheads, hblocks, hnext, hlast, hbelow⟩

/-- An array stays where it is, or grows as the last one. -/
theorem OnStack.pushed (hs : OnStack pool w₀ w) (hi : w.world.arrays[i]? = some h)
    (hpool : h.arr.pool = pool)
    (hplace : h.arr.nelts + n ≤ h.arr.nalloc ∨ i = 0 ∧
      w₀.world.arrays.length < w.world.arrays.length)
    (hgrow : GrowsInPlace w.world.proc s' h.arr a' n) (vals : List (Option (List UInt8))) :
    OnStack pool w₀ ⟨⟨s', w.world.arrays.set i ⟨a', vals⟩, w.world.others⟩, w.heads⟩ := by
  unfold GrowsInPlace at hgrow
  rw [hpool] at hgrow
  unfold OnStack
  dsimp only
  rcases hgrow with ⟨hblock, htail⟩ | ⟨hfull, haddr, hsize, htail⟩
  · rw [htail, blocks_set_same hi hblock]
    exact hs
  · obtain ⟨rfl, hlen⟩ := hplace.resolve_left (by omega)
    obtain ⟨p, heads, bs, hheads, hblocks, hnext, hlast, hbelow⟩ := hs.last hi hlen
    have hend : tailOf s' pool = a'.block.addr + a'.block.size := by
      rw [htail, hlast, haddr, hsize, Nat.add_assoc]
    rw [hheads, blocks_set, hblocks, List.set_cons_zero, hend]
    exact Stacked.above hbelow (haddr.trans hnext)

/-- A write changes neither the arrays nor the end of the pool. -/
theorem OnStack.written (hs : OnStack pool w₀ w) {arrays : List Held}
    (hblocks : blocks arrays = blocks w.world.arrays)
    (htail : tailOf s' pool = tailOf w.world.proc pool) :
    OnStack pool w₀ ⟨⟨s', arrays, w.world.others⟩, w.heads⟩ := by
  unfold OnStack at hs ⊢
  dsimp only
  rwa [hblocks, htail]

theorem store_eq {m m' : Heap} {a : ℕ} {bytes : List UInt8}
    (hrun : store m a bytes = Except.ok m') : m' = m.withMem (writeAt m.mem a bytes) := by
  unfold store at hrun
  split at hrun
  · exact (Except.ok.inj hrun).symm
  · cases hrun

/-- A push in place, of one slot or of several. -/
theorem OnStack.pushing {pushing : Exec (Option (ℕ × Arr) × Proc)}
    {new : List (Option (List UInt8))} {world : World} (hs : OnStack pool w₀ w)
    (hw : InOrder pool (OneBlock pool) w) (hi : w.world.arrays[i]? = some h)
    (hplace : SlotsInPlace pool w₀.world.arrays.length w.world i n)
    (hpush : ∀ {items elt a' s'}, OneBlock h.arr.pool w.world.proc items →
      (h.arr.nelts + n ≤ h.arr.nalloc ∨
        h.arr.elts + h.arr.nalloc * h.arr.size = tailOf w.world.proc h.arr.pool ∧
          tailOf w.world.proc h.arr.pool + n * h.arr.size ≤ boundOf w.world.proc h.arr.pool) →
      pushing = Except.ok (some (elt, a'), s') → GrowsInPlace w.world.proc s' h.arr a' n)
    (hrun : (do
      let (pushed, s) ← pushing
      pure (pushed.map fun r =>
        (r.1, World.mk s (w.world.arrays.set i ⟨r.2, h.vals ++ new⟩) w.world.others)) :
          Exec (Option (ℕ × World))) = Except.ok (some (p, world))) :
    OnStack pool w₀ ⟨world, w.heads⟩ := by
  obtain ⟨⟨pushed, s'⟩, hpushing, hrun⟩ := bind_eq_ok.mp hrun
  obtain ⟨⟨elt, a'⟩, rfl, hpair⟩ := Option.map_eq_some_iff.mp (Except.ok.inj hrun)
  obtain ⟨-, rfl⟩ := Prod.mk.inj hpair
  have hpool := (hw.arrays h (List.mem_of_getElem? hi)).pool
  refine hs.pushed hi hpool ((hplace h hi).imp_right fun hlast => ⟨hlast.1, hlast.2.1⟩) ?_ _
  subst hpool
  refine hpush hw.inv ((hplace h hi).imp_right ?_) hpushing
  rintro ⟨rfl, hlen, hroom⟩
  obtain ⟨q, heads, bs, -, -, -, hend, -⟩ := hs.last hi hlen
  exact ⟨hend.symm, hroom⟩

/-- A step that uses the pool as a stack. -/
theorem OnStack.after (hs : OnStack pool w₀ w) (hw : InOrder pool (OneBlock pool) w)
    (hvalid : step.Valid w) (hfits : step.Fits env pool w)
    (hplace : step.InPlace pool w₀.world.arrays.length w)
    (hrun : step.run env pool w = Except.ok (some (p, w'))) : OnStack pool w₀ w' := by
  cases step with
  | use op =>
    obtain ⟨r, hop, hrun⟩ := bind_eq_ok.mp hrun
    obtain ⟨⟨q, world⟩, rfl, hpair⟩ := Option.map_eq_some_iff.mp (Except.ok.inj hrun)
    obtain ⟨rfl, rfl⟩ := Prod.mk.inj hpair
    cases op with
    | init n size => exact hplace.elim
    | palloc n => exact hplace.elim
    | pcalloc n => exact hplace.elim
    | prealloc x n => exact hplace.elim
    | push i =>
      obtain ⟨h, hi⟩ : ∃ h, w.world.arrays[i]? = some h := ⟨_, List.getElem?_eq_getElem hvalid⟩
      unfold Op.run at hop
      dsimp only at hop
      rw [hi] at hop
      refine hs.pushing hw hi hplace (fun hinv hin hpush => ?_) hop
      exact arrayPush_inPlace hinv hin (hfits h hi) hpush
    | pushN i n =>
      obtain ⟨h, hi⟩ : ∃ h, w.world.arrays[i]? = some h := ⟨_, List.getElem?_eq_getElem hvalid.1⟩
      have hbounds := (hw.arrays h (List.mem_of_getElem? hi)).bounds
      unfold Op.run at hop
      dsimp only at hop
      rw [hi] at hop
      refine hs.pushing hw hi hplace (fun hinv hin hpush => ?_) hop
      exact arrayPushN_inPlace hinv hbounds hin (hfits h hi) hpush
    | assign i j bytes =>
      obtain ⟨h, hi, hj, hlen⟩ := hvalid
      unfold Op.run at hop
      dsimp only at hop
      rw [hi] at hop
      obtain ⟨heap, hstore, hop⟩ := bind_eq_ok.mp hop
      obtain ⟨-, rfl⟩ := Prod.mk.inj (Option.some.inj (Except.ok.inj hop))
      have hmem := List.mem_of_getElem? hi
      have hslot := slot_le h.arr.size (hj.trans_le (hw.arrays h hmem).bounds.count)
      have hitem : h.arr.block ∈ headRanges w.heads ++ w.world.items :=
        List.mem_append_right _ (List.mem_append_left _ (mem_blocks hmem))
      have hend : h.arr.elts + j * h.arr.size + bytes.length ≤
          h.arr.block.addr + h.arr.block.size := by
        unfold Arr.block
        dsimp only
        omega
      rw [store_eq hstore]
      exact hs.written (blocks_set_same hi rfl)
        (write_tail hw.inv hitem (Nat.le_add_right _ _) hend)
    | fill x k bytes =>
      obtain ⟨heap, hstore, hop⟩ := bind_eq_ok.mp hop
      obtain ⟨-, rfl⟩ := Prod.mk.inj (Option.some.inj (Except.ok.inj hop))
      obtain ⟨hx, hlen⟩ := hvalid
      have hitem : x ∈ headRanges w.heads ++ w.world.items :=
        List.mem_append_right _ (List.mem_append_right _ hx)
      rw [store_eq hstore]
      exact hs.written rfl (write_tail hw.inv hitem (Nat.le_add_right _ k) (by omega))
  | create n size =>
    obtain ⟨hmax, hroom⟩ := hplace
    obtain ⟨s', hcreate, htail⟩ := create_last env hw.inv hmax hroom
    unfold Step.run at hrun
    dsimp only at hrun
    rw [hcreate, ok_bind] at hrun
    obtain ⟨rfl, rfl⟩ := Prod.mk.inj (Option.some.inj (Except.ok.inj hrun))
    unfold OnStack
    dsimp only
    rw [htail]
    exact Stacked.above hs rfl
  | destroy i =>
    obtain ⟨rfl, hlen⟩ := hplace
    obtain ⟨-, h, q, hi, hhead, harrays, hheads, -, htail⟩ :=
      hw.run (oneBlock_serves env pool) (oneBlock_bounded pool) hvalid hfits hrun
    obtain ⟨p, heads, bs, hsome, hblocks, hnext, hlast, hbelow⟩ := hs.last hi hlen
    rw [hsome] at hhead
    obtain rfl : p = q := Option.some.inj (Option.some.inj hhead)
    have hend : tailOf w'.world.proc pool = p := by
      have helts : (if h.arr.elts + h.arr.nalloc * h.arr.size = tailOf w.world.proc pool
          then h.arr.elts else tailOf w.world.proc pool) = p + arraySize :=
        (if_pos hlast.symm).trans hnext
      rw [htail, tailAfter, helts]
      exact if_pos rfl
    have hrest : blocks (w.world.arrays.eraseIdx 0) = bs := by
      rw [blocks, List.eraseIdx_zero, List.map_tail]
      exact congrArg List.tail hblocks
    unfold OnStack
    rw [harrays, hheads, hsome, hrest, hend]
    exact hbelow

/-- Arrays that are made, grown and destroyed as on a stack leave the pool with
the arrays and the end that it had. -/
theorem arrays_stack (h₀ : Run env pool w₀) (hplain : customed w₀.world.proc pool = Except.ok false)
    (h : Stack env pool w₀ w) :
    OnStack pool w₀ w ∧ (w.world.arrays.length = w₀.world.arrays.length →
      tailOf w.world.proc pool = tailOf w₀.world.proc pool ∧
        blocks w.world.arrays = blocks w₀.world.arrays ∧ w.heads = w₀.heads) := by
  have h₀' : InOrder pool (OneBlock pool) w₀ := by
    refine h₀.inOrder.resolve_right ?_
    rintro ⟨fns, J, hcustom, hw⟩
    rw [hcustom.customed_eq hw.inv] at hplain
    cases hplain
  have hon : InOrder pool (OneBlock pool) w ∧ OnStack pool w₀ w := by
    induction h with
    | start => exact ⟨h₀', Stacked.base⟩
    | step step _ hvalid hfits hplace hrun ih =>
      exact ⟨(ih.1.run (oneBlock_serves env pool) (oneBlock_bounded pool) hvalid hfits hrun).1,
        ih.2.after ih.1 hvalid hfits hplace hrun⟩
  refine ⟨hon.2, fun hlen => ?_⟩
  obtain ⟨hheads, hblocks, htail⟩ := Stacked.eq_base hon.2 (by
    unfold blocks
    rw [List.length_map, List.length_map, hlen])
  exact ⟨htail, hblocks, hheads⟩

end

/-- The pool after its array has been destroyed. -/
def cleared : Lives := livesOf ((Step.destroy 0).run bumpEnv 16 single)

theorem arrays_stack_single : OnStack 16 bare cleared ∧
    tailOf cleared.world.proc 16 = tailOf bare.world.proc 16 := by
  have hplain : customed bare.world.proc 16 = Except.ok false := by decide +kernel
  have hdestroy : (Step.destroy 0).run bumpEnv 16 single = Except.ok (some (0, cleared)) :=
    eq_livesOf (by decide +kernel)
  have hcreated : (Step.create 1 8).InPlace 16 bare.world.arrays.length bare := by
    have hmax : max arraySize (1 * 8) ≤ maxOf bare.world.proc 16 := by decide +kernel
    have hroom : tailOf bare.world.proc 16 + arraySize + 1 * 8 ≤ boundOf bare.world.proc 16 := by
      decide +kernel
    exact ⟨hmax, hroom⟩
  have hlast : (Step.destroy 0).InPlace 16 bare.world.arrays.length single := by
    obtain ⟨q, h, -, hi⟩ := single_valid
    obtain ⟨hlt, -⟩ := List.getElem?_eq_some_iff.mp hi
    exact ⟨rfl, hlt⟩
  have hstack : Stack bumpEnv 16 bare cleared :=
    (Stack.start.step (.create 1 8) ⟨by decide, by decide⟩ single_fits hcreated single_step).step
      (.destroy 0) single_valid trivial hlast hdestroy
  obtain ⟨hon, hsame⟩ := arrays_stack bare_run hplain hstack
  have hlen : cleared.world.arrays.length = bare.world.arrays.length := by decide +kernel
  exact ⟨hon, (hsame hlen).1⟩

end HCore.ArrayLife
