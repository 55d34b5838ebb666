import HCore.SlabRuns

/-!
The slot lists. A page of a size class has a type, a chunk size and a map of
its chunks, and the list of a class should hold the pages of that class with
a free chunk. Along calls that only take first chunks of new pages, a list
is empty or holds one page with one chunk in use. Nothing else survives: the
scan of a partly used page hands out a wrong chunk or never ends, and a page
index that is shifted by the page size makes every call that frees undefined.
-/

namespace HCore.SlabSlots

open Words Machine Base SlabPool SlabPages SlabAlloc SlabLayout SlabFreeList SlabClasses SlabRuns
  Runs Chains

def pageType (s : Pool) (i : ℕ) : ℕ := s.word (prevOf (s.page i)) &&& slabPageMask

/-- The back link of a page without its type bits. -/
def linkWord (s : Pool) (a : ℕ) : ℕ := andNot (s.word (prevOf a)) slabPageMask

/-- The shift of the chunks of a class page: exact pages have a fixed one, and
the others keep it below the map. -/
def pageShift (P : PageSize) (s : Pool) (i : ℕ) : ℕ :=
  if pageType s i = slabExact then P.geometry.slabExactShift
  else s.word (slabOf (s.page i)) % 2 ^ slabMapShift

/-- The page `i` belongs to the class of the slot `k`. -/
def IsClassPage (P : PageSize) (N : ℕ) (s : Pool) (i k : ℕ) : Prop :=
  i < N ∧ pageType s i ≠ slabPage ∧ pageShift P s i = k + s.minShift

/-- The chunks that the map of a class page has bits for. -/
def mapWidth (P : PageSize) (s : Pool) (i : ℕ) : ℕ :=
  if pageType s i = slabSmall then chunks P (pageShift P s i)
  else if pageType s i = slabExact then min (chunks P (pageShift P s i)) 64
  else min (chunks P (pageShift P s i)) 32

/-- The bit of the chunk `j`: in the page, in the descriptor word, or in its
upper half. -/
def chunkBit (P : PageSize) (s : Pool) (i j : ℕ) : Bool :=
  if pageType s i = slabSmall then (s.word (pageAddr P s i + 8 * (j / 64))).testBit (j % 64)
  else if pageType s i = slabExact then (s.word (slabOf (s.page i))).testBit j
  else (s.word (slabOf (s.page i))).testBit (j + slabMapShift)

/-- The chunk holds a part of the bitmap of its page. -/
def MapChunk (P : PageSize) (s : Pool) (i j : ℕ) : Prop :=
  pageType s i = slabSmall ∧ j < bitmapChunks P.geometry (pageShift P s i)

/-- The chunk is a block in use. -/
def LiveChunk (P : PageSize) (st : State) (i j : ℕ) : Prop :=
  ∃ b ∈ st.live, b.size ≤ unit P ∧ classShift st.pool b.size = pageShift P st.pool i ∧
    b.addr = pageAddr P st.pool i + j * 2 ^ pageShift P st.pool i

/-- The slot lists hold the pages of their class that have a free chunk. -/
structure SlotInvariant (P : PageSize) (N : ℕ) (st : State) (slots : ℕ → List ℕ) : Prop where
  chain : ∀ k < slotCount P, Chain (nextWord st.pool) (linkWord st.pool) (st.pool.slot k)
    (st.pool.slot k) ((slots k).map st.pool.page)
  nodup : ∀ k < slotCount P, (slots k).Nodup
  mem : ∀ k < slotCount P, ∀ i, i ∈ slots k ↔
    IsClassPage P N st.pool i k ∧ ∃ j < mapWidth P st.pool i, chunkBit P st.pool i j = false
  slot : ∀ i k, IsClassPage P N st.pool i k → k < slotCount P
  type : ∀ i k, IsClassPage P N st.pool i k →
    pageType st.pool i = classType P (k + st.pool.minShift)
  full : ∀ i k, IsClassPage P N st.pool i k →
    (∀ j < mapWidth P st.pool i, chunkBit P st.pool i j = true) →
      nextWord st.pool (st.pool.page i) = 0
  used : ∀ i k, IsClassPage P N st.pool i k → ∃ j < mapWidth P st.pool i, LiveChunk P st i j
  bitmap : ∀ i k, IsClassPage P N st.pool i k → ∀ j < mapWidth P st.pool i,
    chunkBit P st.pool i j = true ↔ MapChunk P st.pool i j ∨ LiveChunk P st i j

/-- A request for a number of pages that is not cut to zero, or for a class
without a partly used page; nothing is freed. -/
def FreshSlot (P : PageSize) (st : State) : Call → Prop
  | .alloc size => (unit P < size → requestPages P.geometry size ≠ 0) ∧
      (size ≤ unit P → FreshClass P st.pool size)
  | .free _ => False

/-- The first chunk of a page that is handed out. -/
def firstIndex (P : PageSize) (shift : ℕ) : ℕ :=
  if shift < P.log - 7 then bitmapChunks P.geometry shift else 0

theorem firstOffset_eq (P : PageSize) (shift : ℕ) :
    firstOffset P shift = firstIndex P shift * 2 ^ shift := by
  unfold firstOffset firstIndex
  split
  · rfl
  · rw [Nat.zero_mul]

/-- A slot whose list holds one page with one block. -/
structure OnePage (P : PageSize) (st : State) (runs : List Run) (k i : ℕ) (b : Block) : Prop where
  run : ⟨i, 1⟩ ∈ runs
  slot_next : st.pool.word (nextOf (st.pool.slot k)) = st.pool.page i
  next : st.pool.word (nextOf (st.pool.page i)) = st.pool.slot k
  prev : st.pool.word (prevOf (st.pool.page i)) = st.pool.slot k ||| classType P (k + 3)
  slab : st.pool.word (slabOf (st.pool.page i)) = firstSlab P (k + 3)
  maps : k + 3 < P.log - 7 → FirstMaps P st.pool i (k + 3)
  mem : b ∈ st.live
  size : b.size ≤ unit P
  shift : classShift st.pool b.size = k + 3
  addr : b.addr = pageAddr P st.pool i + firstOffset P (k + 3)

/-- Every slot list is empty or holds one page, and no other page has a type. -/
structure SlotInv (P : PageSize) (N : ℕ) (st : State) (frees runs : List Run)
    (one : ℕ → Option (ℕ × Block)) : Prop where
  list : FreeList P N st.pool frees runs
  empty : ∀ k < slotCount P, one k = none →
    st.pool.word (nextOf (st.pool.slot k)) = st.pool.slot k
  page : ∀ k < slotCount P, ∀ i b, one k = some (i, b) → OnePage P st runs k i b
  plain : ∀ i < N, (∀ k < slotCount P, ∀ b, one k ≠ some (i, b)) →
    st.pool.word (prevOf (st.pool.page i)) % 4 = 0
  block : ∀ b ∈ st.live, b.size ≤ unit P → ∃ k < slotCount P, ∃ i, one k = some (i, b)

section

variable {P : PageSize} {N : ℕ} {st : State} {s s' : Pool} {live : List Block}
  {frees runs : List Run} {one : ℕ → Option (ℕ × Block)} {k i : ℕ} {b : Block}

theorem classType_ne (P : PageSize) (shift : ℕ) : classType P shift ≠ slabPage := by
  unfold classType
  split
  · decide
  · split <;> decide

theorem pageType_mod (s : Pool) (i : ℕ) : pageType s i = s.word (prevOf (s.page i)) % 4 := by
  unfold pageType
  exact and_mask _ 2

theorem OnePage.type (h : OnePage P st runs k i b) (hl : Layout P N st.pool) :
    pageType st.pool i = classType P (k + 3) := by
  rw [pageType_mod, h.prev]
  exact slot_tag hl k (k + 3)

theorem firstSlab_shift (P : PageSize) {shift : ℕ} (hne : shift ≠ P.log - 7)
    (hle : shift < 2 ^ 32) : firstSlab P shift % 2 ^ slabMapShift = shift := by
  unfold firstSlab
  split
  · exact Nat.mod_eq_of_lt hle
  · have hor : 2 ^ slabMapShift ||| shift = 2 ^ slabMapShift + shift := or_tag (dvd_refl _) hle
    rw [Nat.one_shiftLeft, hor, Nat.add_mod_left]
    exact Nat.mod_eq_of_lt hle

theorem OnePage.shift_eq (h : OnePage P st runs k i b) (hl : Layout P N st.pool)
    (hk : k < slotCount P) : pageShift P st.pool i = k + 3 := by
  have hlog := P.log_le
  have hexact : P.geometry.slabExactShift = P.log - 7 := by rw [P.geometry_eq]
  unfold slotCount at hk
  unfold pageShift
  rw [h.type hl, h.slab, hexact]
  by_cases heq : k + 3 = P.log - 7
  · rw [if_pos]
    · exact heq.symm
    · unfold classType
      rw [if_neg (by omega), if_pos heq]
  · rw [if_neg]
    · exact firstSlab_shift P heq (by omega)
    · unfold classType
      split
      · decide
      · decide

theorem high_bit_shift (hk : k < P.log - 4) (j : ℕ) : k + 3 < 2 ^ (j + slabMapShift) := by
  have hlog := P.log_le
  have hpow : 2 ^ 32 ≤ 2 ^ (j + slabMapShift) := Nat.pow_le_pow_right (by omega) (by
    unfold slabMapShift
    omega)
  omega

/-- The map of the page has exactly the bits up to its first chunk. -/
theorem OnePage.bits (h : OnePage P st runs k i b) (hl : Layout P N st.pool)
    (hk : k < slotCount P) {j : ℕ} (hj : j < mapWidth P st.pool i) :
    chunkBit P st.pool i j = decide (j ≤ firstIndex P (k + 3)) := by
  have hlog := P.log_le
  have htype := h.type hl
  have hslot : k < P.log - 4 := hk
  unfold mapWidth at hj
  unfold chunkBit
  rw [h.shift_eq hl hk] at hj
  rw [htype] at hj ⊢
  unfold classType at *
  unfold firstIndex
  by_cases hsmall : k + 3 < P.log - 7
  · rw [if_pos hsmall] at hj ⊢
    rw [if_pos rfl] at hj ⊢
    rw [if_pos hsmall]
    exact h.maps hsmall j hj
  · rw [if_neg hsmall] at hj ⊢
    rw [if_neg hsmall, h.slab, firstSlab, if_neg hsmall]
    by_cases heq : k + 3 = P.log - 7
    · rw [if_pos heq] at hj ⊢
      rw [if_neg (by decide), if_pos rfl, if_pos heq, ← Nat.pow_zero 2, Nat.testBit_two_pow]
      exact decide_eq_decide.mpr (by omega)
    · rw [if_neg heq] at hj ⊢
      rw [if_neg (by decide), if_neg (by decide), if_neg heq, Nat.one_shiftLeft,
        Nat.testBit_or, Nat.testBit_two_pow, Nat.testBit_lt_two_pow (high_bit_shift hslot j),
        Bool.or_false]
      exact decide_eq_decide.mpr (by omega)

/-- The map of a class counts at least one chunk behind the first one. -/
theorem OnePage.width (h : OnePage P st runs k i b) (hl : Layout P N st.pool)
    (hk : k < slotCount P) : firstIndex P (k + 3) + 1 < mapWidth P st.pool i := by
  have hlog := P.log_ge
  have htype := h.type hl
  have hslot : k < P.log - 4 := hk
  unfold mapWidth firstIndex
  rw [h.shift_eq hl hk, htype]
  unfold classType
  by_cases hsmall : k + 3 < P.log - 7
  · obtain ⟨-, hle, htwo, hmod, -⟩ := bitmap_room P (Nat.le_add_left 3 k) hsmall
    rw [if_pos hsmall, if_pos hsmall, if_pos rfl]
    omega
  · have hchunks : 4 ≤ chunks P (k + 3) := by
      rw [chunks_eq P (by omega)]
      have hpow : 2 ^ 2 ≤ 2 ^ (P.log - (k + 3)) := Nat.pow_le_pow_right (by omega) (by omega)
      exact hpow
    rw [if_neg hsmall, if_neg hsmall]
    by_cases heq : k + 3 = P.log - 7
    · rw [if_pos heq, if_neg (by decide), if_pos rfl]
      omega
    · rw [if_neg heq, if_neg (by decide), if_neg (by decide)]
      omega

/-- The first chunk is the block of the page. -/
theorem OnePage.liveChunk (h : OnePage P st runs k i b) (hl : Layout P N st.pool)
    (hk : k < slotCount P) : LiveChunk P st i (firstIndex P (k + 3)) := by
  refine ⟨b, h.mem, h.size, ?_, ?_⟩
  · rw [h.shift, h.shift_eq hl hk]
  · rw [h.addr, h.shift_eq hl hk, firstOffset_eq]

namespace SlotInv

theorem classPage (h : SlotInv P N st frees runs one) (hi : IsClassPage P N st.pool i k) :
    k < slotCount P ∧ ∃ b, one k = some (i, b) := by
  obtain ⟨hlt, htype, hshift⟩ := hi
  by_contra hnone
  have hplain : ∀ k' < slotCount P, ∀ b, one k' ≠ some (i, b) := by
    intro k' hk' b hsome
    have hpage := h.page k' hk' i b hsome
    have hshift' := hpage.shift_eq h.list.layout hk'
    rw [hshift, h.list.layout.minShift] at hshift'
    obtain rfl : k = k' := by omega
    exact hnone ⟨hk', b, hsome⟩
  have htag := h.plain i hlt hplain
  rw [← pageType_mod] at htag
  exact htype htag

theorem isClassPage (h : SlotInv P N st frees runs one) (hk : k < slotCount P)
    (hsome : one k = some (i, b)) : IsClassPage P N st.pool i k := by
  have hpage := h.page k hk i b hsome
  refine ⟨?_, ?_, ?_⟩
  · exact h.list.tiles.lt_of_covers (List.mem_append_right _ hpage.run)
      (Run.covers_start Nat.one_pos)
  · rw [hpage.type h.list.layout]
    exact classType_ne _ _
  · rw [hpage.shift_eq h.list.layout hk, h.list.layout.minShift]

/-- The chunks in use of the only page of a class. -/
theorem liveChunk_iff (h : SlotInv P N st frees runs one) (hk : k < slotCount P)
    (hsome : one k = some (i, b)) {j : ℕ} :
    LiveChunk P st i j ↔ j = firstIndex P (k + 3) := by
  have hpage := h.page k hk i b hsome
  have hshift := hpage.shift_eq h.list.layout hk
  constructor
  · rintro ⟨b', hb', hsize, hclass, haddr⟩
    obtain ⟨k', hk', i', hsome'⟩ := h.block b' hb' hsize
    have hpage' := h.page k' hk' i' b' hsome'
    have hclass' := hpage'.shift
    rw [hclass, hshift] at hclass'
    obtain rfl : k = k' := by omega
    rw [hsome, Option.some.injEq, Prod.mk.injEq] at hsome'
    obtain ⟨rfl, rfl⟩ := hsome'
    rw [hpage.addr, hshift, firstOffset_eq] at haddr
    exact (Nat.eq_of_mul_eq_mul_right (Nat.two_pow_pos _) (Nat.add_left_cancel haddr)).symm
  · rintro rfl
    exact hpage.liveChunk h.list.layout hk

/-- The pages of a slot list as the ghost map names them. -/
def slotPages (one : ℕ → Option (ℕ × Block)) (k : ℕ) : List ℕ :=
  ((one k).map Prod.fst).toList

theorem mem_slotPages : i ∈ slotPages one k ↔ ∃ b, one k = some (i, b) := by
  unfold slotPages
  rw [Option.mem_toList, Option.map_eq_some_iff]
  constructor
  · rintro ⟨x, hx, rfl⟩
    exact ⟨x.2, hx⟩
  · rintro ⟨b, hb⟩
    exact ⟨(i, b), hb, rfl⟩

theorem invariant (h : SlotInv P N st frees runs one) :
    SlotInvariant P N st (slotPages one) where
  chain k hk := by
    unfold slotPages
    cases hone : one k with
    | none => exact h.empty k hk hone
    | some x =>
      have hpage := h.page k hk x.1 x.2 hone
      refine ⟨hpage.slot_next, ?_, hpage.next⟩
      dsimp only [linkWord]
      rw [hpage.prev]
      exact slot_link h.list.layout k (k + 3)
  nodup k hk := by
    unfold slotPages
    cases one k <;> simp
  mem k hk i := by
    rw [mem_slotPages]
    constructor
    · rintro ⟨b, hb⟩
      have hpage := h.page k hk i b hb
      have hwidth := hpage.width h.list.layout hk
      refine ⟨h.isClassPage hk hb, firstIndex P (k + 3) + 1, hwidth, ?_⟩
      rw [hpage.bits h.list.layout hk hwidth]
      exact decide_eq_false (by omega)
    · rintro ⟨hi, -⟩
      exact (h.classPage hi).2
  slot i k hi := (h.classPage hi).1
  type i k hi := by
    obtain ⟨hk, b, hb⟩ := h.classPage hi
    rw [(h.page k hk i b hb).type h.list.layout, h.list.layout.minShift]
  full i k hi hall := by
    obtain ⟨hk, b, hb⟩ := h.classPage hi
    have hpage := h.page k hk i b hb
    have hwidth := hpage.width h.list.layout hk
    have hbit := hall _ hwidth
    rw [hpage.bits h.list.layout hk hwidth, decide_eq_true_iff] at hbit
    omega
  used i k hi := by
    obtain ⟨hk, b, hb⟩ := h.classPage hi
    have hpage := h.page k hk i b hb
    have hwidth := hpage.width h.list.layout hk
    exact ⟨firstIndex P (k + 3), by omega, hpage.liveChunk h.list.layout hk⟩
  bitmap i k hi j hj := by
    obtain ⟨hk, b, hb⟩ := h.classPage hi
    have hpage := h.page k hk i b hb
    rw [hpage.bits h.list.layout hk hj, h.liveChunk_iff hk hb, decide_eq_true_iff, MapChunk,
      hpage.type h.list.layout, hpage.shift_eq h.list.layout hk]
    unfold firstIndex classType
    by_cases hsmall : k + 3 < P.log - 7
    · rw [if_pos hsmall, if_pos hsmall]
      omega
    · rw [if_neg hsmall, if_neg hsmall]
      have hne : ¬ (if k + 3 = P.log - 7 then slabExact else slabBig) = slabSmall := by
        split <;> decide
      omega

end SlotInv

/-- The page of a slot keeps its place while its own words are kept. -/
theorem OnePage.congr {live' : List Block} {runs' : List Run}
    (h : OnePage P ⟨s, live⟩ runs k i b) (hsame : SameHeader s s') (hruns : ∀ r ∈ runs, r ∈ runs') (hlive : ∀ b ∈ live, b ∈ live')
    (hslot : s'.word (nextOf (s.slot k)) = s.word (nextOf (s.slot k)))
    (hdesc : ∀ x, s.page i ≤ x → x < s.page i + 24 → s'.word x = s.word x)
    (hdata : ∀ x, pageAddr P s i ≤ x → x < pageAddr P s i + unit P → s'.word x = s.word x) :
    OnePage P ⟨s', live'⟩ runs' k i b := by
  have haddr : pageAddr P s' i = pageAddr P s i := by
    unfold pageAddr
    rw [hsame.start]
  refine ⟨hruns _ h.run, ?_, ?_, ?_, ?_, ?_, hlive b h.mem, h.size, ?_, ?_⟩
  all_goals dsimp only
  · rw [hsame.slot, hsame.page, hslot]
    exact h.slot_next
  · rw [hsame.slot, hsame.page, hdesc _ (by unfold nextOf; omega) (by unfold nextOf; omega)]
    exact h.next
  · rw [hsame.slot, hsame.page, hdesc _ (by unfold prevOf; omega) (by unfold prevOf; omega)]
    exact h.prev
  · rw [hsame.page, hdesc _ (by unfold slabOf; omega) (by unfold slabOf; omega)]
    exact h.slab
  · intro hsmall j hj
    obtain ⟨hmap, -, -, hmod, hroom⟩ := bitmap_room P (Nat.le_add_left 3 k) hsmall
    rw [Nat.add_mul] at hroom
    rw [haddr, hdata _ (Nat.le_add_right ..) (by omega)]
    exact h.maps hsmall j hj
  · rw [classShift, hsame.minSize, hsame.minShift]
    exact h.shift
  · rw [haddr]
    exact h.addr

/-- Pages keep the type bits of a plain page or belong to a free run. -/
theorem plain_step {frees' : List Run} {r : Run} {j : ℕ} (h : SlotInv P N ⟨s, live⟩ frees runs one)
    (hsame : SameHeader s s') (hfree : FreeList P N s' frees' (r :: runs)) (hj : j < N)
    (hplain : ∀ k < slotCount P, ∀ b, one k ≠ some (j, b))
    (hnew : r.Covers j → s'.word (prevOf (s.page j)) % 4 = 0)
    (hdesc : ∀ r' ∈ runs, r'.Covers j → s'.word (prevOf (s.page j)) = s.word (prevOf (s.page j))) :
    s'.word (prevOf (s'.page j)) % 4 = 0 := by
  obtain ⟨r', hr', hcover⟩ := hfree.tiles.exists_covers hj
  rcases List.mem_append.mp hr' with hr' | hr'
  · exact hfree.tags r' hr' j hcover
  · rw [hsame.page]
    rcases List.mem_cons.mp hr' with rfl | hr'
    · exact hnew hcover
    · rw [hdesc r' hr' hcover]
      exact h.plain j hj hplain

theorem pages_inv (h : SlotInv P N ⟨s, live⟩ frees runs one) {frees' : List Run} {n : ℕ}
    (hfree : FreeList P N s' frees' (⟨i, n⟩ :: runs)) (halloc : Allocated s s' frees i n)
    (hb : unit P < b.size) : SlotInv P N ⟨s', b :: live⟩ frees' (⟨i, n⟩ :: runs) one := by
  have hlist : FreeList P N s frees runs := h.list
  have hsame := halloc.taken.same
  have hdata {x : ℕ} (hx : s.start ≤ x) : s'.word x = s.word x :=
    halloc.frame x (data_not_freeWord hlist hx)
  have hslot {k : ℕ} (hk : k < slotCount P) :
      s'.word (nextOf (s.slot k)) = s.word (nextOf (s.slot k)) :=
    halloc.frame _ (slot_not_freeWord hlist hk (by unfold nextOf; omega) (by unfold nextOf; omega))
  refine ⟨hfree, ?_, ?_, ?_, ?_⟩
  · intro k hk hnone
    dsimp only
    rw [hsame.slot, hslot hk]
    exact h.empty k hk hnone
  · intro k hk j b' hsome
    have hpage := h.page k hk j b' hsome
    refine hpage.congr hsame (fun r hr => List.mem_cons_of_mem _ hr)
      (fun b hb => List.mem_cons_of_mem _ hb) (hslot hk) ?_ ?_
    · intro x hlow hhigh
      exact halloc.frame x
        (hlist.live_not_freeWord hpage.run (Run.covers_start Nat.one_pos) hlow hhigh)
    · intro x hlow hhigh
      apply hdata
      unfold pageAddr at hlow
      omega
  · intro j hj hplain
    refine plain_step h hsame hfree hj hplain ?_ ?_
    · intro hcover
      rw [Run.covers_mk] at hcover
      have htag := halloc.tags (j - i) (by omega)
      rwa [show i + (j - i) = j by omega] at htag
    · intro r' hr' hcover
      exact halloc.frame _ (hlist.live_not_freeWord hr' hcover (by unfold prevOf; omega)
        (by unfold prevOf; omega))
  · intro b' hb' hsize
    rcases List.mem_cons.mp hb' with rfl | hb'
    · omega
    · exact h.block b' hb' hsize

/-- A new page is the one page of its slot. -/
theorem onePage_new {frees' : List Run} (hnew : NewPage P s s' frees' i (k + 3))
    (hsize : b.size ≤ unit P) (hshift : classShift s b.size = k + 3)
    (haddr : b.addr = pageAddr P s i + firstOffset P (k + 3)) :
    OnePage P ⟨s', b :: live⟩ (⟨i, 1⟩ :: runs) k i b := by
  have hsame := hnew.linked.same
  have hlink := hnew.linked
  rw [Nat.add_sub_cancel] at hlink
  refine ⟨List.mem_cons_self .., ?_, ?_, ?_, ?_, hnew.maps, List.mem_cons_self .., hsize, ?_, ?_⟩
  all_goals dsimp only
  · rw [hsame.slot, hsame.page]
    exact hlink.slot_next
  · rw [hsame.slot, hsame.page]
    exact hlink.next
  · rw [hsame.slot, hsame.page]
    exact hlink.prev
  · rw [hsame.page]
    exact hlink.slab
  · rw [classShift, hsame.minSize, hsame.minShift]
    exact hshift
  · rw [pageAddr, hsame.start]
    exact haddr

theorem chunk_inv (h : SlotInv P N ⟨s, live⟩ frees runs one) {frees' : List Run}
    (hk : k < slotCount P) (hone : one k = none)
    (hfree : FreeList P N s' frees' (⟨i, 1⟩ :: runs)) (hnew : NewPage P s s' frees i (k + 3))
    (hsize : b.size ≤ unit P) (hshift : classShift s b.size = k + 3)
    (haddr : b.addr = pageAddr P s i + firstOffset P (k + 3)) :
    SlotInv P N ⟨s', b :: live⟩ frees' (⟨i, 1⟩ :: runs)
      (Function.update one k (some (i, b))) := by
  have hlist : FreeList P N s frees runs := h.list
  have hsame := hnew.linked.same
  have hother {k' : ℕ} {x : ℕ × Block} (hsome : one k' = some x) : k' ≠ k := by
    rintro rfl
    rw [hone] at hsome
    cases hsome
  refine ⟨hfree, ?_, ?_, ?_, ?_⟩
  · intro k' hk' hnone
    have hne : k' ≠ k := by
      rintro rfl
      simp at hnone
    rw [Function.update_of_ne hne] at hnone
    dsimp only
    rw [hsame.slot, hnew.slot_kept hlist hk' hne]
    exact h.empty k' hk' hnone
  · intro k' hk' j b' hsome
    by_cases hne : k' = k
    · subst hne
      rw [Function.update_self, Option.some.injEq, Prod.mk.injEq] at hsome
      obtain ⟨rfl, rfl⟩ := hsome
      exact onePage_new hnew hsize hshift haddr
    · rw [Function.update_of_ne hne] at hsome
      have hpage := h.page k' hk' j b' hsome
      have hcover : (⟨j, 1⟩ : Run).Covers j := Run.covers_start Nat.one_pos
      have hj := ne_new_page hfree Nat.one_pos hpage.run hcover
      exact hpage.congr hsame (fun r hr => List.mem_cons_of_mem _ hr)
        (fun b hb => List.mem_cons_of_mem _ hb) (hnew.slot_kept hlist hk' hne)
        (fun x hlow hhigh => hnew.desc_kept hlist hk hpage.run hcover hlow hhigh)
        (fun x hlow hhigh => hnew.data_kept hlist hk hj hlow hhigh)
  · intro j hj hplain
    refine plain_step h hsame hfree hj ?_ ?_ ?_
    · intro k' hk' b' hsome
      apply hplain k' hk' b'
      rw [Function.update_of_ne (hother hsome)]
      exact hsome
    · intro hcover'
      rw [Run.covers_mk] at hcover'
      obtain rfl : j = i := by omega
      exact absurd (Function.update_self ..) (hplain k hk b)
    · intro r' hr' hcover'
      exact hnew.desc_kept hlist hk hr' hcover' (by unfold prevOf; omega) (by unfold prevOf; omega)
  · intro b' hb' hsize'
    rcases List.mem_cons.mp hb' with rfl | hb'
    · exact ⟨k, hk, i, Function.update_self ..⟩
    · obtain ⟨k', hk', j, hsome⟩ := h.block b' hb' hsize'
      refine ⟨k', hk', j, ?_⟩
      rw [Function.update_of_ne (hother hsome)]
      exact hsome

/-- A list that is empty for the code is empty for the ghost map. -/
theorem one_eq_none (h : SlotInv P N ⟨s, live⟩ frees runs one) (hk : k < slotCount P)
    (hempty : s.word (nextOf (s.slot k)) = s.slot k) : one k = none := by
  cases hone : one k with
  | none => rfl
  | some x =>
    have hpage := h.page k hk x.1 x.2 hone
    have hnext := hpage.slot_next
    obtain ⟨-, hslot⟩ := slot_lt_pages h.list.layout hk
    dsimp only at hnext hslot
    rw [hempty, page_eq] at hnext
    omega

/-- A served request runs out of steps, finds no pages, or keeps the lists. -/
theorem fresh_cases (h : SlotInv P N ⟨s, live⟩ frees runs one) {size : ℕ}
    (hguard : FreshSlot P ⟨s, live⟩ (.alloc size)) (fuel : ℕ) :
    (slabAllocLocked P.geometry fuel s size = outOfFuel ∧ fuel ≤ frees.length) ∨
      slabAllocLocked P.geometry fuel s size = Except.ok (0, s) ∨
      ∃ p s' frees' runs' one', p ≠ 0 ∧
        slabAllocLocked P.geometry fuel s size = Except.ok (p, s') ∧
        SlotInv P N ⟨s', ⟨p, size⟩ :: live⟩ frees' runs' one' := by
  have hlist : FreeList P N s frees runs := h.list
  obtain ⟨hpages, hclass⟩ := hguard
  by_cases hsize : unit P < size
  · rcases allocPages_cases hlist hsize (Nat.pos_of_ne_zero (hpages hsize)) fuel with
      hcase | hcase | ⟨i, frees', s', hr, hcase, hfree, halloc⟩
    · exact Or.inl hcase
    · exact Or.inr (Or.inl hcase)
    · exact Or.inr (Or.inr ⟨_, s', frees', _, one, pageAddr_ne_zero hlist.layout i, hcase,
        pages_inv h hfree halloc hsize⟩)
  · have hsize := Nat.not_lt.mp hsize
    obtain ⟨hk, hempty⟩ := hclass hsize
    dsimp only at hk hempty
    rw [hlist.layout.minShift] at hk hempty
    obtain ⟨hlow, -, -⟩ := classShift_spec hlist.layout.minShift hlist.layout.minSize hsize
    have hone := one_eq_none h hk hempty
    have hshift : classShift s size - 3 + 3 = classShift s size := by omega
    rw [slabAllocLocked_fresh hlist.layout hsize hk hempty]
    rcases newClass_cases hlist hlow hk fuel with
      hcase | ⟨-, hcase⟩ | ⟨i, frees', s', -, hcase, hfree, hnew⟩
    · exact Or.inl hcase
    · exact Or.inr (Or.inl hcase)
    · have hne := pageAddr_ne_zero hlist.layout i
      rw [← hshift] at hnew
      exact Or.inr (Or.inr ⟨_, s', frees', _, _, by omega, hcase,
        chunk_inv h hk hone hfree hnew hsize hshift.symm (by rw [hshift])⟩)

end

/-- One call keeps the slot lists. -/
theorem step_inv {P : PageSize} {N : ℕ} {st st' : State} {c : Call} {frees runs : List Run}
    {one : ℕ → Option (ℕ × Block)} (h : SlotInv P N st frees runs one) (hguard : FreshSlot P st c)
    (hstep : Step P st c st') :
    ∃ frees' runs' one', SlotInv P N st' frees' runs' one' := by
  cases c with
  | alloc size =>
    refine Step.of_alloc (I := fun st => ∃ frees runs one, SlotInv P N st frees runs one)
      ⟨_, _, _, h⟩ ?_ hstep
    intro fuel
    rcases fresh_cases h hguard fuel with ⟨hcase, -⟩ | hcase | ⟨p, s', f, r, o, hp, hcase, hinv⟩
    · exact Or.inl hcase
    · exact Or.inr (Or.inl hcase)
    · exact Or.inr (Or.inr ⟨p, s', hp, hcase, _, _, _, hinv⟩)
  | free b => exact hguard.elim

theorem created_slots {P : PageSize} {M : Mapping P} {size : ℕ} {s : Pool}
    (h : Created P M size s) (hfit : Fits P size) :
    SlotInv P (pageCount P M size) ⟨s, []⟩ [⟨0, pageCount P M size⟩] [] (fun _ => none) where
  list := created_freeList h hfit
  empty k hk _ := h.slot_next k hk
  page k _ i b hsome := by cases hsome
  plain i hi _ := by
    refine (created_freeList h hfit).tags ⟨0, pageCount P M size⟩ (List.mem_cons_self ..) i ?_
    rw [Run.covers_mk]
    omega
  block b hb := by cases hb

/-- Along fresh calls the slot lists hold the pages with free chunks. -/
theorem slot_invariant (P : PageSize) (M : Mapping P) (size : ℕ) (hfit : Fits P size)
    (st : State) (hrun : Reaches P M size (FreshSlot P) st) :
    ∃ slots, SlotInvariant P (pageCount P M size) st slots := by
  have hinv : ∃ frees runs one, SlotInv P (pageCount P M size) st frees runs one := by
    refine hrun.invariant
      (I := fun st => ∃ frees runs one, SlotInv P (pageCount P M size) st frees runs one) ?_ ?_
    · intro s hcreated
      exact ⟨_, _, _, created_slots hcreated hfit⟩
    · rintro st st' c ⟨frees, runs, one, ih⟩ hc hstep
      exact step_inv ih hc hstep
  obtain ⟨frees, runs, one, hinv⟩ := hinv
  exact ⟨_, hinv.invariant⟩

/-- A small page, an exact page and a run of whole pages. -/
theorem slot_invariant_mixed :
    Fits smallPages 1 ∧ ∃ st, Reaches smallPages clearMapping 1 (FreshSlot smallPages) st ∧
      st.live = [⟨73728, 4096⟩, ⟨71680, 32⟩, ⟨69696, 8⟩] ∧
      ∃ slots, SlotInvariant smallPages (pageCount smallPages clearMapping 1) st slots := by
  have hfit : Fits smallPages 1 := by decide
  have htrace : (do
      let s0 ← createShpool smallPages clearMapping 1
      let r1 ← slabAllocLocked smallPages.geometry 9 s0 8
      let r2 ← slabAllocLocked smallPages.geometry 9 r1.2 32
      let r3 ← slabAllocLocked smallPages.geometry 9 r2.2 4096
      pure (decide (FreshClass smallPages s0 8), r1.1,
        decide (FreshClass smallPages r1.2 32), r2.1, r3.1)) =
        (Except.ok (true, 69696, true, 71680, 73728) : Exec _) := by decide +kernel
  obtain ⟨s0, h0, htrace⟩ := bind_eq_ok.mp htrace
  obtain ⟨⟨p1, s1⟩, h1, htrace⟩ := bind_eq_ok.mp htrace
  obtain ⟨⟨p2, s2⟩, h2, htrace⟩ := bind_eq_ok.mp htrace
  obtain ⟨⟨p3, s3⟩, h3, htrace⟩ := bind_eq_ok.mp htrace
  simp only [pure_eq_ok, Except.ok.injEq, Prod.mk.injEq, decide_eq_true_eq] at htrace
  obtain ⟨hfresh1, rfl, hfresh2, rfl, rfl⟩ := htrace
  have hrun0 : Reaches smallPages clearMapping 1 (FreshSlot smallPages) ⟨s0, []⟩ := Reaches.init h0
  have hrun1 := hrun0.call (c := .alloc 8)
    ⟨fun h => absurd h (by decide), fun _ => hfresh1⟩
    (Step.allocBlock (by omega) h1 (by omega))
  have hrun2 := hrun1.call (c := .alloc 32) ⟨fun h => absurd h (by decide), fun _ => hfresh2⟩
    (Step.allocBlock (by omega) h2 (by omega))
  have hrun3 := hrun2.call (c := .alloc 4096) ⟨fun _ => by decide, fun h => absurd h (by decide)⟩
    (Step.allocBlock (by omega) h3 (by omega))
  exact ⟨hfit, _, hrun3, rfl, slot_invariant smallPages clearMapping 1 hfit _ hrun3⟩

/-- The second block of eight bytes takes the bit of chunk 9, but it is not
chunk 9. -/
theorem second_block_unmapped :
    ∃ st, Reaches smallPages clearMapping 1 (fun _ _ => True) st ∧
      ∀ slots, ¬ SlotInvariant smallPages (pageCount smallPages clearMapping 1) st slots := by
  have htrace : (do
      let s0 ← createShpool smallPages clearMapping 1
      let r1 ← slabAllocLocked smallPages.geometry 9 s0 8
      let r2 ← slabAllocLocked smallPages.geometry 9 r1.2 8
      let s := r2.2
      pure ((r1.1, r2.1, pageAddr smallPages s 0, s.minShift),
        (pageType s 0, pageShift smallPages s 0, mapWidth smallPages s 0),
        chunkBit smallPages s 0 9)) =
        (Except.ok ((69696, 69632, 69632, 3), (3, 3, 512), true) : Exec _) := by decide +kernel
  obtain ⟨s0, h0, htrace⟩ := bind_eq_ok.mp htrace
  obtain ⟨⟨p1, s1⟩, h1, htrace⟩ := bind_eq_ok.mp htrace
  obtain ⟨⟨p2, s2⟩, h2, htrace⟩ := bind_eq_ok.mp htrace
  simp only [pure_eq_ok, Except.ok.injEq, Prod.mk.injEq] at htrace
  obtain ⟨⟨rfl, rfl, hpage, hmin⟩, ⟨htype, hshift, hwidth⟩, hbit⟩ := htrace
  have hrun0 : Reaches smallPages clearMapping 1 (fun _ _ => True) ⟨s0, []⟩ := Reaches.init h0
  have hrun1 := hrun0.call (c := .alloc 8) trivial
    (Step.allocBlock (by omega) h1 (by omega))
  have hrun2 := hrun1.call (c := .alloc 8) trivial (Step.allocBlock (by omega) h2 (by omega))
  refine ⟨_, hrun2, ?_⟩
  intro slots h
  have hclass : IsClassPage smallPages (pageCount smallPages clearMapping 1) s2 0 0 :=
    ⟨by decide, by rw [htype]; decide, by rw [hshift, hmin]⟩
  rcases (h.bitmap 0 0 hclass 9 (by dsimp only; omega)).mp hbit with ⟨-, hmap⟩ | hlive
  · dsimp only at hmap
    rw [hshift] at hmap
    exact absurd hmap (by decide)
  · obtain ⟨b, hb, -, -, haddr⟩ := hlive
    dsimp only at hb haddr
    rw [hpage, hshift] at haddr
    simp only [List.mem_cons, List.not_mem_nil, or_false] at hb
    rcases hb with rfl | rfl
    · exact absurd haddr (by decide)
    · exact absurd haddr (by decide)

end HCore.SlabSlots
