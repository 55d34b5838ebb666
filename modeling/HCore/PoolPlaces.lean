import HCore.PoolModel

/-!
Where a pool that still has one block keeps things. What it has handed out and
its records of large blocks lie below `last` in its block, behind the header,
or at the start of a large block that one of the records holds. Nothing of this
depends on the contents of memory.
-/

namespace HCore.PoolModel

open Machine LittleEndian CHeap

/-- Bytes in use. -/
structure Range where
  addr : ℕ
  size : ℕ
  deriving DecidableEq, Repr

/-- No byte is in both. -/
def Range.Apart (x y : Range) : Prop :=
  x.size = 0 ∨ y.size = 0 ∨ x.addr + x.size ≤ y.addr ∨ y.addr + y.size ≤ x.addr

/-- `hcore_pool_large_t`, with the block that it holds. -/
structure Record where
  addr : ℕ
  block : Option Block
  deriving DecidableEq, Repr

namespace Record

def range (r : Record) : Range := ⟨r.addr, largeSize⟩

/-- `large->alloc` -/
def alloc (r : Record) : ℕ :=
  match r.block with
  | none => 0
  | some c => c.addr

end Record

/-- The blocks that the records hold. -/
def heldBlocks (records : List Record) : List Block := records.filterMap Record.block

/-- Below `last` in the block, if there is a byte in it. -/
structure Small (b : Block) (last : ℕ) (x : Range) : Prop where
  start : b.addr + poolSize ≤ x.addr
  inside : x.addr + x.size ≤ b.addr + b.size
  below : x.size = 0 ∨ x.addr + x.size ≤ last

/-- At the start of a large block. -/
def Large (records : List Record) (x : Range) : Prop :=
  0 < x.size ∧ ∃ c ∈ heldBlocks records, x.addr = c.addr ∧ x.size ≤ c.size

structure Layout (live : List Block) (b : Block) (last : ℕ) (items : List Range)
    (records : List Record) : Prop where
  block : b ∈ live
  header : b.addr + poolSize ≤ last
  fits : last ≤ b.addr + b.size
  inside : ∀ r ∈ records, b.addr + poolSize ≤ r.addr ∧ r.addr + largeSize ≤ last
  held : ∀ c ∈ heldBlocks records, c ∈ live ∧ c ≠ b
  once : (heldBlocks records).Nodup
  placed : ∀ x ∈ items, Small b last x ∨ Large records x
  apart : items.Pairwise Range.Apart
  recordsApart : records.Pairwise fun r t => r.range.Apart t.range
  recordApart : ∀ x ∈ items, ∀ r ∈ records, x.Apart r.range

namespace Range

variable {x y : Range}

theorem Apart.symm (h : x.Apart y) : y.Apart x := by
  unfold Apart at h ⊢
  omega

theorem Apart.mono {x' : Range} (h : x.Apart y) (hstart : x.addr ≤ x'.addr)
    (hend : x'.addr + x'.size ≤ x.addr + x.size) : x'.Apart y := by
  unfold Apart at h ⊢
  omega

end Range

@[simp] theorem heldBlocks_cons_some (a : ℕ) (c : Block) (records : List Record) :
    heldBlocks (⟨a, some c⟩ :: records) = c :: heldBlocks records := rfl

@[simp] theorem heldBlocks_cons_none (a : ℕ) (records : List Record) :
    heldBlocks (⟨a, none⟩ :: records) = heldBlocks records := rfl

theorem heldBlocks_append (records others : List Record) :
    heldBlocks (records ++ others) = heldBlocks records ++ heldBlocks others :=
  List.filterMap_append

theorem mem_heldBlocks {records : List Record} {r : Record} {c : Block} (hr : r ∈ records)
    (hc : r.block = some c) : c ∈ heldBlocks records := List.mem_filterMap.mpr ⟨r, hr, hc⟩

/-- One record more that holds its block. -/
theorem heldBlocks_middle (pre post : List Record) (a : ℕ) (c : Block) :
    (heldBlocks (pre ++ ⟨a, some c⟩ :: post)).Perm
      (c :: heldBlocks (pre ++ ⟨a, none⟩ :: post)) := by
  simp only [heldBlocks_append, heldBlocks_cons_some, heldBlocks_cons_none]
  exact List.perm_middle

/-- The records have the same places, whatever one of them holds. -/
theorem mem_middle {pre post : List Record} {a : ℕ} {blk blk' : Option Block} {r : Record}
    (hr : r ∈ pre ++ ⟨a, blk'⟩ :: post) : ∃ t ∈ pre ++ ⟨a, blk⟩ :: post, t.addr = r.addr := by
  rcases List.mem_append.mp hr with hr | hr
  · exact ⟨r, List.mem_append_left _ hr, rfl⟩
  · rcases List.mem_cons.mp hr with rfl | hr
    · exact ⟨⟨a, blk⟩, List.mem_append_right _ List.mem_cons_self, rfl⟩
    · exact ⟨r, List.mem_append_right _ (List.mem_cons_of_mem _ hr), rfl⟩

theorem Large.mono {records others : List Record} {x : Range} (h : Large records x)
    (hsub : ∀ c ∈ heldBlocks records, c ∈ heldBlocks others) : Large others x := by
  obtain ⟨hpos, c, hc, hx⟩ := h
  exact ⟨hpos, c, hsub c hc, hx⟩

namespace Layout

section

variable {live live' : List Block} {b : Block} {last a n : ℕ} {items rest : List Range}
  {records : List Record} {x y : Range}

/-- Everything lies in a live block. -/
theorem covered (l : Layout live b last items records) (hx : x ∈ items) :
    ∃ d ∈ b :: heldBlocks records, d ∈ live ∧ d.Covers x.addr x.size := by
  rcases l.placed x hx with hsmall | ⟨-, c, hc, haddr, hsize⟩
  · have hstart := hsmall.start
    exact ⟨b, List.mem_cons_self, l.block, by omega, hsmall.inside⟩
  · exact ⟨c, List.mem_cons_of_mem _ hc, (l.held c hc).1, by omega, by omega⟩

theorem record_covered (l : Layout live b last items records) {r : Record} (hr : r ∈ records) :
    b.Covers r.addr largeSize := by
  have hin := l.inside r hr
  have hfits := l.fits
  exact ⟨by omega, by omega⟩

theorem mono (l : Layout live b last items records) (hlive : ∀ d ∈ live, d ∈ live') :
    Layout live' b last items records :=
  { l with
    block := hlive b l.block
    held := fun c hc => ⟨hlive c (l.held c hc).1, (l.held c hc).2⟩ }

theorem sub (l : Layout live b last items records) (hsub : rest.Sublist items) :
    Layout live b last rest records :=
  { l with
    placed := fun x hx => l.placed x (hsub.subset hx)
    apart := l.apart.sublist hsub
    recordApart := fun x hx => l.recordApart x (hsub.subset hx) }

theorem perm (l : Layout live b last items records) (hperm : items.Perm rest) :
    Layout live b last rest records :=
  { l with
    placed := fun x hx => l.placed x (hperm.mem_iff.mpr hx)
    apart := (hperm.pairwise_iff fun h => h.symm).mp l.apart
    recordApart := fun x hx => l.recordApart x (hperm.mem_iff.mpr hx) }

theorem addItem (l : Layout live b last items records) (hplaced : Small b last y ∨ Large records y)
    (hitems : ∀ x ∈ items, x.Apart y) (hrecords : ∀ r ∈ records, y.Apart r.range) :
    Layout live b last (y :: items) records :=
  { l with
    placed := List.forall_mem_cons.mpr ⟨hplaced, l.placed⟩
    apart := List.pairwise_cons.mpr ⟨fun x hx => (hitems x hx).symm, l.apart⟩
    recordApart := List.forall_mem_cons.mpr ⟨hrecords, l.recordApart⟩ }

/-- An item may get smaller. -/
theorem shrink (l : Layout live b last (⟨a, n⟩ :: items) records) {m : ℕ} (hpos : 0 < m)
    (hle : m ≤ n) : Layout live b last (⟨a, m⟩ :: items) records := by
  obtain ⟨hapart, -⟩ := List.pairwise_cons.mp l.apart
  have hless : ∀ {z : Range}, Range.Apart ⟨a, n⟩ z → Range.Apart ⟨a, m⟩ z := fun hz =>
    hz.mono (le_refl _) (Nat.add_le_add_left hle a)
  refine (l.sub (List.sublist_cons_self _ _)).addItem ?_ ?_ ?_
  · rcases l.placed _ List.mem_cons_self with hsmall | ⟨-, c, hc, haddr, hsize⟩
    · obtain ⟨hstart, hinside, hbelow⟩ := hsmall
      dsimp only at hstart hinside hbelow
      exact Or.inl ⟨hstart, by dsimp only; omega, Or.inr (by dsimp only; omega)⟩
    · dsimp only at haddr hsize
      exact Or.inr ⟨hpos, c, hc, haddr, hle.trans hsize⟩
  · exact fun x hx => (hless (hapart x hx)).symm
  · exact fun r hr => hless (l.recordApart _ List.mem_cons_self r hr)

/-- A record that holds a block no record has held. -/
theorem addRecord (l : Layout live b last items records) {c : Block} (hc : c ∈ live) (hne : c ≠ b)
    (hnew : c ∉ heldBlocks records)
    (hinside : b.addr + poolSize ≤ a ∧ a + largeSize ≤ last)
    (hitems : ∀ x ∈ items, x.Apart ⟨a, largeSize⟩)
    (hrecords : ∀ r ∈ records, r.range.Apart ⟨a, largeSize⟩) :
    Layout live b last items (⟨a, some c⟩ :: records) :=
  { l with
    inside := List.forall_mem_cons.mpr ⟨hinside, l.inside⟩
    held := List.forall_mem_cons.mpr ⟨⟨hc, hne⟩, l.held⟩
    once := List.nodup_cons.mpr ⟨hnew, l.once⟩
    placed := fun x hx => (l.placed x hx).imp_right fun hlarge =>
      hlarge.mono fun _ hd => List.mem_cons_of_mem _ hd
    recordsApart := List.pairwise_cons.mpr ⟨fun r hr => (hrecords r hr).symm, l.recordsApart⟩
    recordApart := fun x hx => List.forall_mem_cons.mpr ⟨hitems x hx, l.recordApart x hx⟩ }

end

section

variable {live live' : List Block} {b c : Block} {last a : ℕ} {items : List Range}
  {pre post : List Record}

/-- Another block, or none, in a record: the records themselves stay where they are. -/
theorem setBlock {blk blk' : Option Block}
    (l : Layout live b last items (pre ++ ⟨a, blk⟩ :: post))
    (hblock : b ∈ live')
    (hheld : ∀ d ∈ heldBlocks (pre ++ ⟨a, blk'⟩ :: post), d ∈ live' ∧ d ≠ b)
    (honce : (heldBlocks (pre ++ ⟨a, blk'⟩ :: post)).Nodup)
    (hplaced : ∀ x ∈ items, Small b last x ∨ Large (pre ++ ⟨a, blk'⟩ :: post) x) :
    Layout live' b last items (pre ++ ⟨a, blk'⟩ :: post) := by
  have hmap : ∀ blk : Option Block, (pre ++ (⟨a, blk⟩ : Record) :: post).map Record.range =
      pre.map Record.range ++ ⟨a, largeSize⟩ :: post.map Record.range := by
    intro blk
    rw [List.map_append, List.map_cons]
    rfl
  refine { l with
    block := hblock, held := hheld, once := honce, placed := hplaced,
    inside := ?_, recordsApart := ?_, recordApart := ?_ }
  · intro r hr
    obtain ⟨t, ht, haddr⟩ := mem_middle hr
    rw [← haddr]
    exact l.inside t ht
  · apply List.pairwise_map.mp
    rw [hmap, ← hmap blk]
    exact List.pairwise_map.mpr l.recordsApart
  · intro x hx r hr
    obtain ⟨t, ht, haddr⟩ := mem_middle hr
    rw [Record.range, ← haddr]
    exact l.recordApart x hx t ht

/-- An unused record takes a block that no record has held. -/
theorem reuse (l : Layout live b last items (pre ++ ⟨a, none⟩ :: post)) (hc : c ∈ live)
    (hne : c ≠ b) (hnew : c ∉ heldBlocks (pre ++ ⟨a, none⟩ :: post)) :
    Layout live b last items (pre ++ ⟨a, some c⟩ :: post) := by
  have hperm := heldBlocks_middle pre post a c
  refine l.setBlock l.block ?_ ?_ ?_
  · intro d hd
    rcases List.mem_cons.mp (hperm.mem_iff.mp hd) with rfl | hd
    · exact ⟨hc, hne⟩
    · exact l.held d hd
  · exact hperm.nodup_iff.mpr (List.nodup_cons.mpr ⟨hnew, l.once⟩)
  · intro x hx
    exact (l.placed x hx).imp_right fun hlarge =>
      hlarge.mono fun d hd => hperm.mem_iff.mpr (List.mem_cons_of_mem _ hd)

/-- A record gives up its block, and with it what lay there. -/
theorem release (l : Layout live b last items (pre ++ ⟨a, some c⟩ :: post))
    (hlive : ∀ d, d ∈ live' ↔ d ∈ live ∧ d ≠ c) (hitems : ∀ x ∈ items, x.addr ≠ c.addr) :
    Layout live' b last items (pre ++ ⟨a, none⟩ :: post) := by
  have hperm := heldBlocks_middle pre post a c
  obtain ⟨hnew, honce⟩ := List.nodup_cons.mp (hperm.nodup_iff.mp l.once)
  have hheld := fun d hd => l.held d (hperm.mem_iff.mpr hd)
  refine l.setBlock ?_ ?_ honce ?_
  · exact (hlive b).mpr ⟨l.block, (hheld c List.mem_cons_self).2.symm⟩
  · intro d hd
    obtain ⟨hd', hne⟩ := hheld d (List.mem_cons_of_mem _ hd)
    refine ⟨(hlive d).mpr ⟨hd', ?_⟩, hne⟩
    rintro rfl
    exact hnew hd
  · intro x hx
    refine (l.placed x hx).imp_right ?_
    rintro ⟨hpos, d, hd, haddr, hsize⟩
    rcases List.mem_cons.mp (hperm.mem_iff.mp hd) with rfl | hd
    · exact absurd haddr (hitems x hx)
    · exact ⟨hpos, d, hd, haddr, hsize⟩

end

section

variable {h : Heap} {b : Block} {last a n : ℕ} {items : List Range} {records : List Record}
  {x : Range}

theorem top_lt (l : Layout h.live b last items records) : b.addr + b.size < 2 ^ 64 :=
  (h.inRange b l.block).2

/-- An item is not in the block of the pool, or is small. -/
theorem outside (l : Layout h.live b last items records) (hx : x ∈ items) :
    Small b last x ∨ 0 < x.size ∧ (x.addr + x.size < b.addr ∨ b.addr + b.size < x.addr) := by
  refine (l.placed x hx).imp_right ?_
  rintro ⟨hpos, c, hc, haddr, hsize⟩
  obtain ⟨hlive, hne⟩ := l.held c hc
  rcases Heap.apart_of_ne hlive l.block hne with hlt | hlt
  · exact ⟨hpos, Or.inl (by omega)⟩
  · exact ⟨hpos, Or.inr (by omega)⟩

theorem apart_header (l : Layout h.live b last items records) (hx : x ∈ items) :
    x.Apart ⟨b.addr, poolSize⟩ := by
  have hheader := l.header
  have hfits := l.fits
  unfold Range.Apart
  dsimp only
  rcases l.outside hx with hsmall | ⟨-, hout⟩
  · have hstart := hsmall.start
    omega
  · omega

theorem record_apart_header (l : Layout h.live b last items records) {r : Record}
    (hr : r ∈ records) : r.range.Apart ⟨b.addr, poolSize⟩ := by
  have hstart := (l.inside r hr).1
  exact Or.inr (Or.inr (Or.inr hstart))

theorem owns (l : Layout h.live b last items records) (hx : x ∈ items) :
    h.Owns x.addr x.size := by
  obtain ⟨d, -, hd, hcover⟩ := l.covered hx
  exact ⟨d, hd, hcover⟩

theorem item_lt (l : Layout h.live b last items records) (hx : x ∈ items) :
    x.addr + x.size < 2 ^ 64 := by
  obtain ⟨d, -, hd, -, hcover⟩ := l.covered hx
  have hrange := (h.inRange d hd).2
  omega

theorem owns_record (l : Layout h.live b last items records) {r : Record} (hr : r ∈ records) :
    h.Owns r.addr largeSize := ⟨b, l.block, l.record_covered hr⟩

theorem owns_header (l : Layout h.live b last items records) : h.Owns b.addr poolSize := by
  have hheader := l.header
  have hfits := l.fits
  exact ⟨b, l.block, le_refl _, by omega⟩

/-- Room from `last` on belongs to nothing yet. -/
theorem carve (l : Layout h.live b last items records) (hstart : last ≤ a)
    (hend : a + n ≤ b.addr + b.size) :
    Layout h.live b (a + n) items records ∧ Small b (a + n) ⟨a, n⟩ ∧
      (∀ x ∈ items, x.Apart ⟨a, n⟩) ∧ ∀ r ∈ records, r.range.Apart ⟨a, n⟩ := by
  have hheader := l.header
  refine ⟨?_, ⟨by dsimp only; omega, hend, Or.inr (le_refl _)⟩, ?_, ?_⟩
  · refine { l with header := by omega, fits := hend, inside := ?_, placed := ?_ }
    · intro r hr
      have hin := l.inside r hr
      exact ⟨hin.1, by omega⟩
    · intro x hx
      refine (l.placed x hx).imp_left fun hsmall => ⟨hsmall.start, hsmall.inside, ?_⟩
      have hbelow := hsmall.below
      omega
  · intro x hx
    unfold Range.Apart
    dsimp only
    rcases l.outside hx with hsmall | ⟨-, hout⟩
    · have hbelow := hsmall.below
      omega
    · omega
  · intro r hr
    have hin := (l.inside r hr).2
    unfold Range.Apart Record.range
    dsimp only
    omega

/-- What ends at `last` can be taken back. -/
theorem retract (l : Layout h.live b last (⟨a, n⟩ :: items) records) (hlast : a + n = last) :
    b.addr + poolSize ≤ a ∧ Layout h.live b a items records := by
  have hheader := l.header
  have hfits := l.fits
  have hsmall : Small b last ⟨a, n⟩ := by
    rcases l.outside List.mem_cons_self with hsmall | ⟨hpos, hout⟩
    · exact hsmall
    · dsimp only at hout
      omega
  have hstart : b.addr + poolSize ≤ a := hsmall.start
  obtain ⟨hapart, -⟩ := List.pairwise_cons.mp l.apart
  refine ⟨hstart, { l.sub (List.sublist_cons_self _ _) with
    header := hstart, fits := by omega, inside := ?_, placed := ?_ }⟩
  · intro r hr
    have hin := l.inside r hr
    have hr' := l.recordApart _ List.mem_cons_self r hr
    unfold Range.Apart Record.range largeSize at hr'
    unfold largeSize at hin ⊢
    dsimp only at hr'
    omega
  · intro x hx
    refine (l.placed x (List.mem_cons_of_mem _ hx)).imp_left fun hx' =>
      ⟨hx'.start, hx'.inside, ?_⟩
    have hbelow := hx'.below
    have hx'' := hapart x hx
    unfold Range.Apart at hx''
    dsimp only at hx''
    omega

/-- What lies at the start of a large block is not empty. -/
theorem pos_of_large (l : Layout h.live b last items records) (hx : x ∈ items) {c : Block}
    (hc : c ∈ heldBlocks records) (haddr : x.addr = c.addr) : 0 < x.size := by
  obtain ⟨hlive, hne⟩ := l.held c hc
  rcases l.placed x hx with hsmall | hlarge
  · have hstart := hsmall.start
    have hinside := hsmall.inside
    rcases Heap.apart_of_ne hlive l.block hne with hlt | hlt <;> omega
  · exact hlarge.1

/-- Nothing else lies there. -/
theorem alone (l : Layout h.live b last (x :: items) records) {c : Block}
    (hc : c ∈ heldBlocks records) (haddr : x.addr = c.addr) : ∀ y ∈ items, y.addr ≠ c.addr := by
  obtain ⟨hapart, -⟩ := List.pairwise_cons.mp l.apart
  intro y hy hyc
  have hx := l.pos_of_large List.mem_cons_self hc haddr
  have hy' := l.pos_of_large (List.mem_cons_of_mem _ hy) hc hyc
  have hxy := hapart y hy
  unfold Range.Apart at hxy
  omega

/-- A new block is apart from everything. -/
theorem fresh (l : Layout h.live b last items records) (hfits : Fits h.live a n) :
    (∀ x ∈ items, x.Apart ⟨a, n⟩) ∧ (∀ r ∈ records, r.range.Apart ⟨a, n⟩) ∧
      (⟨b.addr, poolSize⟩ : Range).Apart ⟨a, n⟩ := by
  have hblock := hfits.apart b l.block
  have hheader := l.header
  have hlast := l.fits
  refine ⟨?_, ?_, ?_⟩
  · intro x hx
    obtain ⟨d, -, hd, hstart, hend⟩ := l.covered hx
    have hd' := hfits.apart d hd
    unfold Range.Apart
    dsimp only
    omega
  · intro r hr
    have hin := l.inside r hr
    unfold Range.Apart Record.range
    dsimp only
    omega
  · unfold Range.Apart
    dsimp only
    omega

end

end Layout

end HCore.PoolModel
