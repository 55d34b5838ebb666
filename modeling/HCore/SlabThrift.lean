import HCore.SlabTermination
import HCore.SlabReclaim

/-!
When an allocation takes a new page. The list of a class holds one page, and
every other page of the class should be full. A page leaves the list when its
last chunk is handed out, or is replaced when a search has found it full. One
class breaks the rule: a page of 32 chunks, whose chunk size has an odd
exponent, leaves its list with its second chunk.
-/

namespace HCore.SlabThrift

open Words Machine Base SlabPool SlabPages SlabAlloc SlabLayout SlabFreeList SlabClasses SlabRuns
  SlabSlots SlabMaps SlabReclaim SlabTermination Runs

/-- A page of the class has a free chunk. -/
def FreeChunk (P : PageSize) (N : ℕ) (s : Pool) (k : ℕ) : Prop :=
  ∃ i, IsClassPage P N s i k ∧ ∃ j < mapWidth P s i, chunkBit P s i j = false

/-- A call takes a new page when no page of the class has a free chunk, and
fails when there is no free page either. -/
structure Lawful (P : PageSize) (N : ℕ) (s : Pool) (k p : ℕ) (s' : Pool) : Prop where
  takes : s'.pfree < s.pfree ↔ ¬ FreeChunk P N s k ∧ 0 < s.pfree
  fails : p = 0 ↔ ¬ FreeChunk P N s k ∧ s.pfree = 0

/-- The request returns and wastes no page. -/
def Thrifty (P : PageSize) (N : ℕ) (s : Pool) (size : ℕ) : Prop :=
  ∃ fuel p s', slabAllocLocked P.geometry fuel s size = Except.ok (p, s') ∧
    Lawful P N s (classShift s size - s.minShift) p s'

/-- The class whose pages leave their list too early. -/
def Dropping (P : PageSize) (k : ℕ) : Prop :=
  P.log - 7 < k + 3 ∧ chunks P (k + 3) = 32 ∧ (k + 3) % 2 = 1

/-- A request of a class with a slot head; its list is empty, and then no page
of the class has been dropped from it, or it is not the exact class and has
fewer than 64 chunks or small ones. -/
structure Sparing (P : PageSize) (N : ℕ) (s : Pool) (size : ℕ) : Prop where
  scannable : Scannable P s size
  dropped : s.word (nextOf (s.slot (classShift s size - s.minShift))) =
      s.slot (classShift s size - s.minShift) → Dropping P (classShift s size - s.minShift) →
    ∀ i, ¬ IsClassPage P N s i (classShift s size - s.minShift)

/-- The calls of a run. -/
def Careful (P : PageSize) (N : ℕ) (st : State) : Call → Prop
  | .alloc size => (unit P < size → requestPages P.geometry size ≠ 0) ∧
      (size ≤ unit P → Sparing P N st.pool size)
  | .free _ => True

/-- The class is searched, and by a map of its own width. -/
def Searchable (P : PageSize) (k : ℕ) : Prop :=
  k + 3 < P.log - 7 ∨ (P.log - 7 < k + 3 ∧ chunks P (k + 3) < 64)

/-- The page in the list of a slot. -/
structure Listed (P : PageSize) (s : Pool) (k i : ℕ) : Prop where
  low : k + 3 ≠ P.log - 7 → s.word (slabOf (s.page i)) % 2 ^ slabMapShift = k + 3
  partly : Dropping P k → ¬ MapFull P s i (k + 3)

/-- A page of the class `k` is listed or full, or was dropped. -/
structure Placed (P : PageSize) (s : Pool) (runs : List Run) (k i : ℕ) : Prop where
  slot : k < slotCount P
  type : pageType s i = classType P (k + 3)
  place : Holds P s runs k i ∨ (Searchable P k ∧ MapFull P s i (k + 3)) ∨ Dropping P k

/-- Every page of a class is in its place. -/
structure ThriftInv (P : PageSize) (N : ℕ) (s : Pool) (frees runs : List Run) : Prop where
  lists : ListInv P N s frees runs
  listed : ∀ k < slotCount P, ∀ i, Holds P s runs k i → Listed P s k i
  placed : ∀ k i, IsClassPage P N s i k → Placed P s runs k i

/-- The descriptor and the bytes of a page are kept. -/
structure PageKept (P : PageSize) (s s' : Pool) (i : ℕ) : Prop where
  desc : ∀ x, s.page i ≤ x → x < s.page i + 24 → s'.word x = s.word x
  data : ∀ x, pageAddr P s i ≤ x → x < pageAddr P s i + unit P → s'.word x = s.word x

section

variable {P : PageSize} {N : ℕ} {s s' : Pool} {frees runs frees' runs' : List Run} {k i j : ℕ}

namespace PageKept

theorem slab (h : PageKept P s s' i) :
    s'.word (slabOf (s.page i)) = s.word (slabOf (s.page i)) :=
  h.desc _ (by unfold slabOf; omega) (by unfold slabOf; omega)

theorem pageType (h : PageKept P s s' i) (hsame : SameHeader s s') :
    pageType s' i = pageType s i := by
  rw [SlabSlots.pageType, SlabSlots.pageType, hsame.page,
    h.desc _ (by unfold prevOf; omega) (by unfold prevOf; omega)]

theorem isClassPage (h : PageKept P s s' i) (hsame : SameHeader s s') :
    IsClassPage P N s' i k ↔ IsClassPage P N s i k := by
  unfold IsClassPage pageShift
  rw [h.pageType hsame, hsame.minShift, hsame.page, h.slab]

theorem mapFull {shift : ℕ} (h : PageKept P s s' i) (hsame : SameHeader s s')
    (hfull : MapFull P s i shift) : MapFull P s' i shift :=
  hfull.keep hsame h.slab h.data

theorem symm (h : PageKept P s s' i) (hsame : SameHeader s s') : PageKept P s' s i := by
  constructor
  · intro x hlow hhigh
    rw [hsame.page] at hlow hhigh
    exact (h.desc x hlow hhigh).symm
  · intro x hlow hhigh
    rw [pageAddr, hsame.start, ← pageAddr] at hlow hhigh
    exact (h.data x hlow hhigh).symm

theorem listed (h : PageKept P s s' i) (hsame : SameHeader s s') (hl : Listed P s k i) :
    Listed P s' k i := by
  refine ⟨fun hne => ?_, fun hd hfull => hl.partly hd ((h.symm hsame).mapFull hsame.symm hfull)⟩
  rw [hsame.page, h.slab]
  exact hl.low hne

end PageKept

theorem slot_ne_page (hl : Layout P N s) (hk : k < slotCount P) (i : ℕ) : s.slot k ≠ s.page i := by
  obtain ⟨-, hslot⟩ := slot_lt_pages hl hk
  rw [page_eq]
  omega

theorem page_injective (s : Pool) (h : s.page i = s.page j) : i = j := by
  rw [page_eq, page_eq] at h
  omega

/-- The list of a slot holds the page that its head points at. -/
theorem holds_of_next (h : ListInv P N s frees runs) (hk : k < slotCount P)
    (hnext : s.word (nextOf (s.slot k)) = s.page i) : Holds P s runs k i := by
  rcases h.slot k hk with hempty | ⟨j, hj⟩
  · exact absurd (hempty.symm.trans hnext) (slot_ne_page h.list.layout hk i)
  · obtain rfl := page_injective s (hj.slot_next.symm.trans hnext)
    exact hj

theorem holds_unique (hi : Holds P s runs k i) (hj : Holds P s runs k j) : i = j :=
  page_injective s (hi.slot_next.symm.trans hj.slot_next)

theorem holds_lt (h : ListInv P N s frees runs) (hi : Holds P s runs k i) : i < N :=
  h.list.tiles.lt_of_covers (List.mem_append_right _ hi.run) (Run.covers_start Nat.one_pos)

theorem holds_type (hl : Layout P N s) (hi : Holds P s runs k i) :
    pageType s i = classType P (k + 3) := by
  rw [pageType_mod, hi.prev]
  exact slot_tag hl k (k + 3)

/-- The class of a page whose type and chunk size are known. -/
theorem isClassPage_iff {k' : ℕ} (hl : Layout P N s) (hi : i < N)
    (htype : pageType s i = classType P (k + 3))
    (hlow : k + 3 ≠ P.log - 7 → s.word (slabOf (s.page i)) % 2 ^ slabMapShift = k + 3) :
    IsClassPage P N s i k' ↔ k' = k := by
  have hexact : P.geometry.slabExactShift = P.log - 7 := by rw [P.geometry_eq]
  have hshift : pageShift P s i = k + 3 := by
    unfold pageShift
    rw [htype, hexact]
    by_cases heq : k + 3 = P.log - 7
    · rw [if_pos (by rw [classType, if_neg (by omega), if_pos heq]), heq]
    · have hclass : classType P (k + 3) ≠ slabExact := by
        rw [classType, if_neg heq]
        split <;> decide
      rw [if_neg hclass]
      exact hlow heq
  unfold IsClassPage
  rw [hshift, hl.minShift, htype]
  constructor
  · rintro ⟨-, -, heq⟩
    omega
  · rintro rfl
    exact ⟨hi, classType_ne P _, rfl⟩

theorem ThriftInv.class_of_holds (h : ThriftInv P N s frees runs) (hk : k < slotCount P)
    (hi : Holds P s runs k i) : IsClassPage P N s i k :=
  (isClassPage_iff h.lists.list.layout (holds_lt h.lists hi) (holds_type h.lists.list.layout hi)
    (h.listed k hk i hi).low).mpr rfl

/-- The bits of a page of a class, as its search sees them. -/
theorem freeBit_iff (hl : Layout P N s) (hi : IsClassPage P N s i k)
    (htype : pageType s i = classType P (k + 3)) (hs : Searchable P k) (hk : k < slotCount P) :
    (∃ j < mapWidth P s i, chunkBit P s i j = false) ↔ ¬ MapFull P s i (k + 3) := by
  obtain ⟨-, -, hshift⟩ := hi
  rw [hl.minShift] at hshift
  unfold mapWidth chunkBit MapFull
  rw [htype, hshift]
  unfold classType
  rcases hs with hsmall | ⟨hbig, hchunks⟩
  · obtain ⟨-, -, -, hmod, -⟩ := bitmap_room P (Nat.le_add_left 3 k) hsmall
    simp only [if_pos hsmall, if_true]
    constructor
    · rintro ⟨j, hj, hclear⟩ hfull
      rw [hfull (j / 64) (by omega) (j % 64) (by omega)] at hclear
      cases hclear
    · intro hnot
      by_contra hnone
      refine hnot (fun w hw b hb => ?_)
      by_contra hclear
      refine hnone ⟨64 * w + b, by omega, ?_⟩
      have hdiv : (64 * w + b) / 64 = w := by omega
      have hrem : (64 * w + b) % 64 = b := by omega
      rw [hdiv, hrem]
      exact Bool.eq_false_of_not_eq_true hclear
  · have hc := chunks_le hk hchunks
    have hne : ¬ k + 3 < P.log - 7 := by omega
    have hne' : k + 3 ≠ P.log - 7 := by omega
    have hsmall : slabBig ≠ slabSmall := by decide
    have hexact : slabBig ≠ slabExact := by decide
    simp only [if_neg hne, if_neg hne', if_neg hsmall, if_neg hexact, Nat.min_eq_left hc]
    constructor
    · rintro ⟨j, hj, hclear⟩ hfull
      rw [hfull j hj] at hclear
      cases hclear
    · intro hnot
      by_contra hnone
      refine hnot (fun j hj => ?_)
      by_contra hclear
      exact hnone ⟨j, hj, Bool.eq_false_of_not_eq_true hclear⟩

/-- The pages of the changed slots aside, everything stays where it is. -/
theorem ThriftInv.step (h : ThriftInv P N s frees runs) (hsame : SameHeader s s')
    (hlists : ListInv P N s' frees' runs') (hruns : ∀ r ∈ runs, r ∈ runs') (changed : ℕ → Prop)
    (hslot : ∀ k < slotCount P, ¬ changed k →
      s'.word (nextOf (s.slot k)) = s.word (nextOf (s.slot k)))
    (hkept : ∀ k < slotCount P, ¬ changed k → ∀ i, Holds P s runs k i → PageKept P s s' i)
    (hlisted : ∀ k < slotCount P, changed k → ∀ i, Holds P s' runs' k i → Listed P s' k i)
    (hclass : ∀ k i, IsClassPage P N s' i k → PageKept P s s' i ∨ Placed P s' runs' k i)
    (hleft : ∀ k < slotCount P, changed k → ∀ i, Holds P s runs k i → PageKept P s s' i →
      Holds P s' runs' k i ∨ (Searchable P k ∧ MapFull P s' i (k + 3)) ∨ Dropping P k) :
    ThriftInv P N s' frees' runs' where
  lists := hlists
  listed := by
    intro k hk i hi
    by_cases hc : changed k
    · exact hlisted k hk hc i hi
    · have hnext := hi.slot_next
      rw [hsame.slot, hsame.page, hslot k hk hc] at hnext
      have hold := holds_of_next h.lists hk hnext
      exact (hkept k hk hc i hold).listed hsame (h.listed k hk i hold)
  placed := by
    intro k i hi
    rcases hclass k i hi with hkeep | hplaced
    · have hold := h.placed k i ((hkeep.isClassPage hsame).mp hi)
      refine ⟨hold.slot, (hkeep.pageType hsame).trans hold.type, ?_⟩
      rcases hold.place with hholds | ⟨hs, hfull⟩ | hd
      · by_cases hc : changed k
        · exact hleft k hold.slot hc i hholds hkeep
        · exact Or.inl (hholds.keep hsame hruns (hslot k hold.slot hc) hkeep.desc)
      · exact Or.inr (Or.inl ⟨hs, hkeep.mapFull hsame hfull⟩)
      · exact Or.inr (Or.inr hd)
    · exact hplaced

/-- The words of the other pages are outside of a scan. -/
theorem kept_of_outside (hl : Layout P N s) (hk : k < slotCount P) (hi : i < N) (hj : j < N)
    (hne : j ≠ i) (hkeep : ∀ x, Outside P s k i x → s'.word x = s.word x) : PageKept P s s' j := by
  refine ⟨fun x hlow hhigh => hkeep x (outside_desc hl hk hj hne hlow hhigh), ?_⟩
  obtain ⟨-, hslot⟩ := slot_lt_pages hl hk
  have hlast := hl.last_le
  have hlast' := hl.last_eq
  have hpi : s.page i = s.pages + 24 * i := rfl
  have hstart : s.start ≤ pageAddr P s j := Nat.le_add_right ..
  have hapart := pageAddr_apart P s hne
  intro x hlow hhigh
  exact hkeep x ⟨by omega, by omega, by omega⟩

theorem Listed.drops_iff (h : Listed P s k i) : Drops P s i (k + 3) ↔ Dropping P k := by
  unfold Drops Dropping
  have hlow := h.low
  unfold slabMapShift at hlow
  constructor
  · rintro ⟨hbig, hchunks, hodd⟩
    have hlow := hlow (by omega)
    exact ⟨hbig, hchunks, by omega⟩
  · rintro ⟨hbig, hchunks, hodd⟩
    have hlow := hlow (by omega)
    exact ⟨hbig, hchunks, by omega⟩

/-- A chunk from the listed page. -/
theorem ThriftInv.granted (h : ThriftInv P N s frees runs) (hk : k < slotCount P)
    (hi : Holds P s runs k i) {p : ℕ} (hg : Granted P s s' runs k i p) (hs : Searchable P k) :
    ThriftInv P N s' frees runs := by
  have hl := h.lists.list.layout
  have hl' := hl.congr hg.same
  have hin := holds_lt h.lists hi
  have hlisted := h.listed k hk i hi
  have hplace : Holds P s' runs k i ∨ (Searchable P k ∧ MapFull P s' i (k + 3)) ∨ Dropping P k :=
    hg.stays.imp_right (fun hrest => hrest.imp (fun hfull => ⟨hs, hfull⟩) hlisted.drops_iff.mp)
  have htype : pageType s' i = classType P (k + 3) := by
    rw [pageType_mod, hg.same.page]
    exact hg.type
  have hlow (hne : k + 3 ≠ P.log - 7) :
      s'.word (slabOf (s'.page i)) % 2 ^ slabMapShift = k + 3 := by
    rw [hg.same.page, hg.low]
    exact hlisted.low hne
  have hother {j : ℕ} (hj : j < N) (hne : j ≠ i) : PageKept P s s' j :=
    kept_of_outside hl hk hin hj hne hg.keep
  refine h.step hg.same (h.lists.scanned hk hi hg.toScanned) (fun _ hr => hr) (· = k)
    ?_ ?_ ?_ ?_ ?_
  · intro k' hk' hne
    exact hg.keep _ (outside_slot hl hk' hne i)
  · intro k' hk' hne j hj
    exact hother (holds_lt h.lists hj) (hi.ne hj hne)
  · intro k' _ hk' j hj
    obtain rfl : k = k' := hk'.symm
    rcases hg.slot with hempty | hholds
    · exact absurd (hempty.symm.trans hj.slot_next) (slot_ne_page hl' hk j)
    · obtain rfl := holds_unique hholds hj
      refine ⟨hlow, fun hd => ?_⟩
      have hempty := hg.drops (hlisted.drops_iff.mpr hd)
      rw [← hg.same.slot] at hempty
      exact absurd (hempty.symm.trans hj.slot_next) (slot_ne_page hl' hk _)
  · intro k' j hj
    by_cases hne : j = i
    · subst hne
      obtain rfl := (isClassPage_iff hl' hin htype hlow).mp hj
      exact Or.inr ⟨hk, htype, hplace⟩
    · exact Or.inl (hother hj.1 hne)
  · intro k' _ hk' j hj _
    obtain rfl : k = k' := hk'.symm
    obtain rfl := holds_unique hi hj
    exact hplace

/-- A class page is in a run that has been handed out. -/
theorem class_covers {r : Run} (hfree : FreeList P N s' frees' (r :: runs))
    (hi : IsClassPage P N s' i k) : r.Covers i ∨ ∃ r' ∈ runs, r'.Covers i := by
  obtain ⟨hin, htype, -⟩ := hi
  obtain ⟨r', hr', hcover⟩ := hfree.tiles.exists_covers hin
  rcases List.mem_append.mp hr' with hr' | hr'
  · have htag := hfree.tags r' hr' i hcover
    rw [← pageType_mod] at htag
    exact absurd htag htype
  · rcases List.mem_cons.mp hr' with rfl | hr'
    · exact Or.inl hcover
    · exact Or.inr ⟨r', hr', hcover⟩

/-- A run of whole pages. -/
theorem ThriftInv.pages (h : ThriftInv P N s frees runs) {n : ℕ}
    (hfree : FreeList P N s' frees' (⟨i, n⟩ :: runs)) (halloc : Allocated s s' frees i n) :
    ThriftInv P N s' frees' (⟨i, n⟩ :: runs) := by
  have hlist := h.lists.list
  have hsame := halloc.taken.same
  have hkept {r : Run} (hr : r ∈ runs) {j : ℕ} (hj : r.Covers j) : PageKept P s s' j := by
    constructor
    · intro x hlow hhigh
      exact halloc.frame x (hlist.live_not_freeWord hr hj hlow hhigh)
    · intro x hlow hhigh
      refine halloc.frame x (data_not_freeWord hlist ?_)
      unfold pageAddr at hlow
      omega
  refine h.step hsame (h.lists.pages hfree halloc) (fun _ hr => List.mem_cons_of_mem _ hr)
    (fun _ => False) ?_ ?_ (fun _ _ hc => hc.elim) ?_ (fun _ _ hc => hc.elim)
  · intro k' hk' _
    exact halloc.frame _ (slot_not_freeWord hlist hk' (by unfold nextOf; omega)
      (by unfold nextOf; omega))
  · intro k' hk' _ j hj
    exact hkept hj.run (Run.covers_start Nat.one_pos)
  · intro k' j hj
    rcases class_covers hfree hj with hcover | ⟨r, hr, hcover⟩
    · rw [Run.covers_mk] at hcover
      have htag := halloc.tags (j - i) (by omega)
      rw [show i + (j - i) = j by omega, ← hsame.page, ← pageType_mod] at htag
      exact absurd htag hj.2.1
    · exact Or.inl (hkept hr hcover)

/-- The first chunk of a new page. -/
theorem ThriftInv.chunk (h : ThriftInv P N s frees runs) (hk : k < slotCount P)
    (hfree : FreeList P N s' frees' (⟨i, 1⟩ :: runs)) (hnew : NewPage P s s' frees i (k + 3))
    (hold : ∀ j, Holds P s runs k j → Searchable P k ∧ MapFull P s j (k + 3)) :
    ThriftInv P N s' frees' (⟨i, 1⟩ :: runs) := by
  have hlist := h.lists.list
  have hl := hlist.layout
  have hl' := hfree.layout
  have hlink := hnew.linked
  rw [Nat.add_sub_cancel] at hlink
  have hsame := hlink.same
  have hcover : (⟨i, 1⟩ : Run).Covers i := Run.covers_start Nat.one_pos
  have hin : i < N :=
    hfree.tiles.lt_of_covers (List.mem_append_right _ (List.mem_cons_self ..)) hcover
  have hholds : Holds P s' (⟨i, 1⟩ :: runs) k i := Holds.of_linked hlink
  have htype := holds_type hl' hholds
  have hlow (hne : k + 3 ≠ P.log - 7) :
      s'.word (slabOf (s'.page i)) % 2 ^ slabMapShift = k + 3 := by
    have hlog := P.log_le
    unfold slotCount at hk
    rw [hsame.page, hlink.slab]
    exact firstSlab_shift P hne (by omega)
  have hkept {r : Run} (hr : r ∈ runs) {j : ℕ} (hj : r.Covers j) : PageKept P s s' j :=
    ⟨fun x hlow hhigh => hnew.desc_kept hlist hk hr hj hlow hhigh,
      fun x hlow hhigh => hnew.data_kept hlist hk (ne_new_page hfree Nat.one_pos hr hj) hlow hhigh⟩
  refine h.step hsame (h.lists.chunk hk hfree hnew) (fun _ hr => List.mem_cons_of_mem _ hr)
    (· = k) ?_ ?_ ?_ ?_ ?_
  · intro k' hk' hne
    exact hnew.slot_kept hlist hk' hne
  · intro k' hk' hne j hj
    exact hkept hj.run (Run.covers_start Nat.one_pos)
  · intro k' _ hk' j hj
    obtain rfl : k = k' := hk'.symm
    obtain rfl := holds_unique hholds hj
    refine ⟨hlow, fun hd hfull => ?_⟩
    obtain ⟨hbig, hchunks, -⟩ := hd
    unfold MapFull at hfull
    rw [if_neg (by omega)] at hfull
    have hbit := hfull 1 (by omega)
    have hsmall : k + 3 < 2 ^ (1 + slabMapShift) := high_bit_shift hk 1
    rw [hsame.page, hlink.slab, firstSlab, if_neg (by omega), if_neg (by omega),
      Nat.one_shiftLeft, Nat.testBit_or, Nat.testBit_two_pow, Nat.testBit_lt_two_pow hsmall] at hbit
    exact absurd hbit (by decide)
  · intro k' j hj
    rcases class_covers hfree hj with hcover' | ⟨r, hr, hcover'⟩
    · rw [Run.covers_mk] at hcover'
      obtain rfl : j = i := by omega
      obtain rfl := (isClassPage_iff hl' hin htype hlow).mp hj
      exact Or.inr ⟨hk, htype, Or.inl hholds⟩
    · exact Or.inl (hkept hr hcover')
  · intro k' _ hk' j hj hkeep
    obtain rfl : k = k' := hk'.symm
    obtain ⟨hs, hfull⟩ := hold j hj
    exact Or.inr (Or.inl ⟨hs, hkeep.mapFull hsame hfull⟩)

/-- The searchable class of a request whose list is not empty. -/
theorem searchable {size : ℕ} (hl : Layout P N s) (hguard : Scannable P s size)
    (hsize : size ≤ unit P) (hk : k = classShift s size - 3) (hi : Holds P s runs k i) :
    Searchable P k := by
  have hexact : P.geometry.slabExactShift = P.log - 7 := by rw [P.geometry_eq]
  obtain ⟨hslot, hcond⟩ := hguard
  obtain ⟨hlow, -, -⟩ := classShift_spec hl.minShift hl.minSize hsize
  have hshift : classShift s size = k + 3 := by omega
  rw [hl.minShift, ← hk] at hslot
  rw [hl.minShift, hexact, hshift, Nat.add_sub_cancel] at hcond
  rcases hcond with hempty | hclass
  · exact absurd (hempty.symm.trans hi.slot_next) (slot_ne_page hl hslot i)
  · exact hclass

/-- No page of a class has a free chunk when its list is empty or its page is
full, unless a page was dropped. -/
theorem ThriftInv.not_freeChunk (h : ThriftInv P N s frees runs) (hk : k < slotCount P)
    (hlist : (s.word (nextOf (s.slot k)) = s.slot k ∧
        (Dropping P k → ∀ i, ¬ IsClassPage P N s i k)) ∨
      ∃ i, Holds P s runs k i ∧ Searchable P k ∧ MapFull P s i (k + 3)) :
    ¬ FreeChunk P N s k := by
  have hl := h.lists.list.layout
  rintro ⟨j, hj, hbit⟩
  have hplaced := h.placed k j hj
  have hfull (hs : Searchable P k) : ¬ MapFull P s j (k + 3) :=
    (freeBit_iff hl hj hplaced.type hs hk).mp hbit
  rcases hplaced.place with hholds | ⟨hs, hmap⟩ | hd
  · rcases hlist with ⟨hempty, -⟩ | ⟨i, hi, hs, hmap⟩
    · exact absurd (hempty.symm.trans hholds.slot_next) (slot_ne_page hl hk j)
    · obtain rfl := holds_unique hi hholds
      exact hfull hs hmap
  · exact hfull hs hmap
  · rcases hlist with ⟨-, hnone⟩ | ⟨i, hi, -, hmap⟩
    · exact hnone hd j hj
    · exact (h.listed k hk i hi).partly hd hmap

/-- A page of the free list that becomes a page in use is one page less. -/
theorem pfree_new {n : ℕ} (h : FreeList P N s frees runs)
    (h' : FreeList P N s' frees' (⟨i, n⟩ :: runs)) : s'.pfree + n = s.pfree := by
  have htotal := h.tiles.total_eq
  have htotal' := h'.tiles.total_eq
  rw [h.pfree, h'.pfree]
  unfold total at *
  rw [List.map_append, List.sum_append] at htotal htotal'
  rw [List.map_cons, List.sum_cons] at htotal'
  dsimp only at htotal'
  omega

/-- A request of at most half a page. -/
theorem chunk_cases (h : ThriftInv P N s frees runs) {size : ℕ} (hsize : size ≤ unit P)
    (hguard : Sparing P N s size) (fuel : ℕ) :
    (slabAllocLocked P.geometry fuel s size = outOfFuel ∧ fuel ≤ frees.length) ∨
      ∃ p s' frees' runs', slabAllocLocked P.geometry fuel s size = Except.ok (p, s') ∧
        Lawful P N s (classShift s size - s.minShift) p s' ∧ ThriftInv P N s' frees' runs' := by
  have hlist := h.lists.list
  have hl := hlist.layout
  obtain ⟨hscan, hdropped⟩ := hguard
  have hk := hscan.1
  rw [hl.minShift] at hk hdropped ⊢
  obtain ⟨hlow, -, -⟩ := classShift_spec hl.minShift hl.minSize hsize
  have hshift : classShift s size - 3 + 3 = classShift s size := by omega
  rcases alloc_route h.lists hsize hscan fuel with
    ⟨hroute, hwhy⟩ | ⟨i, p, t, hi, -, hgranted, hroute⟩
  · have hnone : ¬ FreeChunk P N s (classShift s size - 3) := by
      refine h.not_freeChunk hk (hwhy.imp (fun hempty => ⟨hempty, hdropped hempty⟩) ?_)
      rintro ⟨i, hi, hfull⟩
      exact ⟨i, hi, searchable hl hscan hsize rfl hi, by rwa [hshift]⟩
    have hold (i : ℕ) (hi : Holds P s runs (classShift s size - 3) i) :
        Searchable P (classShift s size - 3) ∧ MapFull P s i (classShift s size - 3 + 3) := by
      rcases hwhy with hempty | ⟨j, hj, hfull⟩
      · exact absurd (hempty.symm.trans hi.slot_next) (slot_ne_page hl hk i)
      · obtain rfl := holds_unique hi hj
        exact ⟨searchable hl hscan hsize rfl hi, by rwa [hshift]⟩
    rw [hroute]
    rcases newClass_cases hlist hlow hk fuel with
      hcase | ⟨rfl, hcase⟩ | ⟨i, frees', s', -, hcase, hfree, hnew⟩
    · exact Or.inl hcase
    · have hzero : s.pfree = 0 := hlist.pfree
      refine Or.inr ⟨0, s, [], runs, hcase, ⟨?_, ?_⟩, h⟩
      · exact iff_of_false (Nat.lt_irrefl _) (fun hc => absurd hc.2 (by omega))
      · exact iff_of_true rfl ⟨hnone, hzero⟩
    · have hpfree := pfree_new hlist hfree
      have hne := pageAddr_ne_zero hl i
      refine Or.inr ⟨_, s', frees', ⟨i, 1⟩ :: runs, hcase, ⟨?_, ?_⟩, ?_⟩
      · exact iff_of_true (by omega) ⟨hnone, by omega⟩
      · exact iff_of_false (by omega) (fun hc => absurd hc.2 (by omega))
      · rw [← hshift] at hnew
        exact h.chunk hk hfree hnew hold
  · have hs := searchable hl hscan hsize rfl hi
    have hclass := h.class_of_holds hk hi
    have hsome : FreeChunk P N s (classShift s size - 3) :=
      ⟨i, hclass, (freeBit_iff hl hclass (holds_type hl hi) hs hk).mpr hgranted.partly⟩
    have hpfree := hgranted.pfree
    refine Or.inr ⟨p, t, _, _, hroute, ⟨?_, ?_⟩, h.granted hk hi hgranted hs⟩
    · exact iff_of_false (by omega) (fun hc => hc.1 hsome)
    · exact iff_of_false hgranted.block (fun hc => hc.1 hsome)

/-- A request above half a page. -/
theorem pages_cases (h : ThriftInv P N s frees runs) {size : ℕ} (hsize : unit P < size)
    (hpages : requestPages P.geometry size ≠ 0) (fuel : ℕ) :
    slabAllocLocked P.geometry fuel s size = outOfFuel ∨
      ∃ p s' frees' runs', slabAllocLocked P.geometry fuel s size = Except.ok (p, s') ∧
        ThriftInv P N s' frees' runs' := by
  rcases allocPages_cases h.lists.list hsize (Nat.pos_of_ne_zero hpages) fuel with
    ⟨hcase, -⟩ | hcase | ⟨i, frees', s', -, hcase, hfree, halloc⟩
  · exact Or.inl hcase
  · exact Or.inr ⟨0, s, frees, runs, hcase, h⟩
  · exact Or.inr ⟨_, s', frees', _, hcase, h.pages hfree halloc⟩

/-- An allocation that returns keeps every page in its place. -/
theorem alloc_inv (h : ThriftInv P N s frees runs) {size fuel p : ℕ} {live : List Block}
    (hguard : Careful P N ⟨s, live⟩ (.alloc size))
    (hrun : slabAllocLocked P.geometry fuel s size = Except.ok (p, s')) :
    ∃ frees' runs', ThriftInv P N s' frees' runs' := by
  obtain ⟨hpages, hchunk⟩ := hguard
  by_cases hsize : unit P < size
  · rcases pages_cases h hsize (hpages hsize) fuel with hcase | ⟨p', t, f, r, hcase, hinv⟩
    · rw [hcase] at hrun
      cases hrun
    · rw [hcase] at hrun
      cases hrun
      exact ⟨f, r, hinv⟩
  · have hsize := Nat.not_lt.mp hsize
    rcases chunk_cases h hsize (hchunk hsize) fuel with ⟨hcase, -⟩ | ⟨p', t, f, r, hcase, -, hinv⟩
    · rw [hcase] at hrun
      cases hrun
    · rw [hcase] at hrun
      cases hrun
      exact ⟨f, r, hinv⟩

end

/-- One call keeps every page in its place. A call that frees only returns for
an address outside of the pool. -/
theorem step_inv {P : PageSize} {N : ℕ} {st st' : State} {c : Call} {frees runs : List Run}
    (h : ThriftInv P N st.pool frees runs) (hguard : Careful P N st c) (hstep : Step P st c st') :
    ∃ frees' runs', ThriftInv P N st'.pool frees' runs' := by
  cases hstep with
  | allocBlock hsize hrun hp => exact alloc_inv h hguard hrun
  | allocNone hsize hrun => exact alloc_inv h hguard hrun
  | @free s s' live b hb hrun =>
    obtain ⟨rfl, -⟩ := slabFreeLocked_returns hrun
    exact ⟨frees, runs, h⟩

theorem created_thrift {P : PageSize} {M : Mapping P} {size : ℕ} {s : Pool}
    (h : Created P M size s) (hfit : Fits P size) :
    ThriftInv P (pageCount P M size) s [⟨0, pageCount P M size⟩] [] where
  lists := ⟨created_freeList h hfit, fun k hk => Or.inl (h.slot_next k hk)⟩
  listed k hk i hi := by cases hi.run
  placed k i hi := by
    have hfree := created_freeList h hfit
    have htag := hfree.tags ⟨0, pageCount P M size⟩ (List.mem_cons_self ..) i (by
      rw [Run.covers_mk]
      exact ⟨Nat.zero_le i, by rw [Nat.zero_add]; exact hi.1⟩)
    rw [← pageType_mod] at htag
    exact absurd htag hi.2.1

theorem reaches_inv {P : PageSize} {M : Mapping P} {size : ℕ} (hfit : Fits P size) {st : State}
    (hrun : Reaches P M size (Careful P (pageCount P M size)) st) :
    ∃ frees runs, ThriftInv P (pageCount P M size) st.pool frees runs := by
  refine hrun.invariant
    (I := fun st => ∃ frees runs, ThriftInv P (pageCount P M size) st.pool frees runs) ?_ ?_
  · intro s hcreated
    exact ⟨_, _, created_thrift hcreated hfit⟩
  · rintro st st' c ⟨frees, runs, ih⟩ hc hstep
    exact step_inv ih hc hstep

/-- **No page is wasted** along such calls. -/
theorem pages_not_wasted (P : PageSize) (M : Mapping P) (size : ℕ) (hfit : Fits P size)
    (st : State) (hrun : Reaches P M size (Careful P (pageCount P M size)) st) (request : ℕ)
    (hle : request ≤ P.geometry.slabMaxSize)
    (hguard : Sparing P (pageCount P M size) st.pool request) :
    Thrifty P (pageCount P M size) st.pool request := by
  obtain ⟨frees, runs, hinv⟩ := reaches_inv hfit hrun
  have hsize : request ≤ unit P := by
    rwa [P.geometry_eq] at hle
  rcases chunk_cases hinv hsize hguard (frees.length + 1) with
    ⟨-, hfuel⟩ | ⟨p, s', -, -, hcase, hlaw, -⟩
  · omega
  · exact ⟨_, p, s', hcase, hlaw⟩

/-- The second block of eight bytes. -/
theorem pages_not_wasted_small :
    Fits smallPages 1 ∧ ∃ st,
      Reaches smallPages clearMapping 1
        (Careful smallPages (pageCount smallPages clearMapping 1)) st ∧
      st.live = [⟨69696, 8⟩] ∧ 8 ≤ smallPages.geometry.slabMaxSize ∧
      Sparing smallPages (pageCount smallPages clearMapping 1) st.pool 8 ∧
      Thrifty smallPages (pageCount smallPages clearMapping 1) st.pool 8 := by
  have hfit : Fits smallPages 1 := by decide
  have hle : 8 ≤ smallPages.geometry.slabMaxSize := by decide
  have htrace : (do
      let s0 ← createShpool smallPages clearMapping 1
      let r1 ← slabAllocLocked smallPages.geometry 9 s0 8
      pure ((decide (Scannable smallPages s0 8), classShift s0 8 - s0.minShift), r1.1,
        (decide (Scannable smallPages r1.2 8), classShift r1.2 8 - r1.2.minShift))) =
        (Except.ok ((true, 0), 69696, (true, 0)) : Exec _) := by decide +kernel
  obtain ⟨s0, h0, htrace⟩ := bind_eq_ok.mp htrace
  obtain ⟨⟨p1, s1⟩, h1, htrace⟩ := bind_eq_ok.mp htrace
  simp only [pure_eq_ok, Except.ok.injEq, Prod.mk.injEq, decide_eq_true_eq] at htrace
  obtain ⟨⟨hscan, hclass⟩, rfl, ⟨hscan', hclass'⟩⟩ := htrace
  have hkeeps : ¬ Dropping smallPages 0 := fun hd => absurd hd.1 (by decide)
  have hrun0 : Reaches smallPages clearMapping 1
    (Careful smallPages (pageCount smallPages clearMapping 1)) ⟨s0, []⟩ := Reaches.init h0
  have hrun1 := hrun0.call (c := .alloc 8)
    ⟨fun h => absurd h (by decide), fun _ => ⟨hscan, fun _ hd => absurd (hclass ▸ hd) hkeeps⟩⟩
    (Step.allocBlock (by omega) h1 (by omega))
  have hguard : Sparing smallPages (pageCount smallPages clearMapping 1) s1 8 :=
    ⟨hscan', fun _ hd => absurd (hclass' ▸ hd) hkeeps⟩
  exact ⟨hfit, _, hrun1, rfl, hle, hguard,
    pages_not_wasted smallPages clearMapping 1 hfit _ hrun1 8 hle hguard⟩

/-- A request whose list is empty never finds a free chunk of its class. -/
theorem not_thrifty {P : PageSize} {N : ℕ} {s : Pool} {frees runs : List Run} {size : ℕ}
    (h : FreeList P N s frees runs) (hsize : size ≤ unit P)
    (hk : classShift s size - 3 < slotCount P)
    (hempty : s.word (nextOf (s.slot (classShift s size - 3))) = s.slot (classShift s size - 3))
    (hsome : FreeChunk P N s (classShift s size - 3)) : ¬ Thrifty P N s size := by
  rintro ⟨fuel, p, s', hrun, hlaw⟩
  have hl := h.layout
  obtain ⟨hlow, -, -⟩ := classShift_spec hl.minShift hl.minSize hsize
  rw [hl.minShift] at hlaw
  rw [slabAllocLocked_fresh hl hsize hk hempty] at hrun
  rcases newClass_cases h hlow hk fuel with
    ⟨hcase, -⟩ | ⟨-, hcase⟩ | ⟨i, frees', t, -, hcase, hfree, -⟩
  · rw [hcase] at hrun
    cases hrun
  · rw [hcase] at hrun
    cases hrun
    exact (hlaw.fails.mp rfl).1 hsome
  · rw [hcase] at hrun
    cases hrun
    have hpfree := pfree_new h hfree
    exact (hlaw.takes.mp (by omega)).1 hsome

/-- The third block of 128 bytes takes a new page, and the first page has room
for thirty more. -/
theorem third_block_wastes_page :
    ∃ st, Reaches smallPages clearMapping 1 (fun _ _ => True) st ∧
      128 ≤ smallPages.geometry.slabMaxSize ∧
      ¬ Thrifty smallPages (pageCount smallPages clearMapping 1) st.pool 128 := by
  have hfit : Fits smallPages 1 := by decide
  have htrace : (do
      let s0 ← createShpool smallPages clearMapping 1
      let r1 ← slabAllocLocked smallPages.geometry 9 s0 128
      let r2 ← slabAllocLocked smallPages.geometry 9 r1.2 128
      let s := r2.2
      pure (decide (Scannable smallPages s0 128 ∧ Scannable smallPages r1.2 128),
        (r1.1, r2.1), decide (classShift s 128 = 7 ∧ s.word (nextOf (s.slot 4)) = s.slot 4),
        decide (pageType s 0 = 1 ∧ pageShift smallPages s 0 = 4 + s.minShift ∧
          2 < mapWidth smallPages s 0 ∧ chunkBit smallPages s 0 2 = false))) =
        (Except.ok (true, (69632, 69632), true, true) : Exec _) := by
    decide +kernel
  obtain ⟨s0, h0, htrace⟩ := bind_eq_ok.mp htrace
  obtain ⟨⟨p1, s1⟩, h1, htrace⟩ := bind_eq_ok.mp htrace
  obtain ⟨⟨p2, s2⟩, h2, htrace⟩ := bind_eq_ok.mp htrace
  simp only [pure_eq_ok, Except.ok.injEq, Prod.mk.injEq, decide_eq_true_eq] at htrace
  obtain ⟨⟨hscan0, hscan1⟩, ⟨rfl, rfl⟩, ⟨hclass, hempty⟩, htype, hshift, hwidth, hbit⟩ := htrace
  have hstep1 : Step smallPages ⟨s0, []⟩ (.alloc 128) ⟨s1, [⟨69632, 128⟩]⟩ :=
    Step.allocBlock (by omega) h1 (by omega)
  have hstep2 : Step smallPages ⟨s1, [⟨69632, 128⟩]⟩ (.alloc 128)
      ⟨s2, [⟨69632, 128⟩, ⟨69632, 128⟩]⟩ := Step.allocBlock (by omega) h2 (by omega)
  have hguard1 : Returning smallPages ⟨s0, []⟩ (.alloc 128) :=
    ⟨fun h => absurd h (by decide), fun _ => hscan0⟩
  have hguard2 : Returning smallPages ⟨s1, [⟨69632, 128⟩]⟩ (.alloc 128) :=
    ⟨fun h => absurd h (by decide), fun _ => hscan1⟩
  have hreturning : Reaches smallPages clearMapping 1 (Returning smallPages) ⟨s2, _⟩ :=
    ((Reaches.init h0).call hguard1 hstep1).call hguard2 hstep2
  have hreaches : Reaches smallPages clearMapping 1 (fun _ _ => True) ⟨s2, _⟩ :=
    ((Reaches.init h0).call trivial hstep1).call trivial hstep2
  obtain ⟨frees, runs, hinv⟩ := SlabTermination.reaches_inv hfit hreturning
  have hsome : FreeChunk smallPages (pageCount smallPages clearMapping 1) s2 4 :=
    ⟨0, ⟨by decide, by rw [htype]; decide, hshift⟩, 2, hwidth, hbit⟩
  exact ⟨_, hreaches, by decide, not_thrifty hinv.list (by decide) (by rw [hclass]; decide)
    (by rw [hclass]; exact hempty) (by rw [hclass]; exact hsome)⟩

end HCore.SlabThrift
