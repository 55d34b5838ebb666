import HCore.SlabFreeList

/-!
Runs of calls that allocate and free whole pages. Freeing a run whose
neighbour pages are both in use puts it at the head of the free list. When a
neighbour page is free the source joins the runs, but then clears the length
of a head that stays in the list, so the list is well formed along exactly
those runs of calls in which nothing is to be joined.
-/

namespace HCore.SlabPageRuns

open Words Machine Base SlabPool SlabPages SlabLayout SlabFreeList Runs Chains

/-- The surroundings of a run that is freed without a join. -/
structure Lone (P : PageSize) (N : ℕ) (s : Pool) (i len nx : ℕ) : Prop where
  layout : Layout P N s
  len_pos : 0 < len
  len_lt : len < 2 ^ 31
  inside : i + len ≤ N
  pfree_lt : s.pfree + len < 2 ^ 32
  first : s.word (nextOf s.free) = nx
  first_valid : s.Valid (prevOf nx)
  first_apart : nx = s.free ∨ Apart nx s.free (s.free + 24)
  first_out : Apart nx (s.page i) (s.page i + 24 * len)
  next : s.word (nextOf (s.page i)) = 0
  right : i + len < N → s.word (nextOf (s.page (i + len))) = 0
  left : 0 < i → s.word (slabOf (s.page (i - 1))) ≠ 0 ∧ s.word (nextOf (s.page (i - 1))) = 0

/-- Neither neighbour is joined while both are in use. -/
theorem joinNext_none {P : PageSize} {N : ℕ} {s : Pool} (hl : Layout P N s) {i len : ℕ} (n : ℤ)
    (hpos : 0 < len) (hin : i + len ≤ N) (hslab : s.word (slabOf (s.page i)) = len)
    (hright : i + len < N → s.word (nextOf (s.page (i + len))) = 0) :
    joinNext s (s.page i) n = Except.ok (n, s) := by
  have hlast := hl.last_eq
  obtain ⟨h0, -, -⟩ := hl.valid_page (show i < N by omega)
  have hjoin : s.page i + pageSize * len = s.page (i + len) := (page_add ..).symm
  unfold joinNext
  rw [Pool.load_ok h0, ok_bind, hslab]
  dsimp only
  rw [hjoin]
  by_cases hcase : i + len < N
  · obtain ⟨-, h8, h16⟩ := hl.valid_page hcase
    rw [if_pos (by rw [page_eq]; omega), Pool.getPageType_ok h8, ok_bind,
      Pool.load_ok h16, ok_bind, hright hcase, if_neg (by simp)]
    rfl
  · rw [if_neg (by rw [page_eq]; omega)]
    rfl

theorem joinPrev_none {P : PageSize} {N : ℕ} {s : Pool} (hl : Layout P N s) {i : ℕ} (n : ℤ)
    (hin : i < N)
    (hleft : 0 < i → s.word (slabOf (s.page (i - 1))) ≠ 0 ∧
      s.word (nextOf (s.page (i - 1))) = 0) :
    joinPrev s (s.page i) n = Except.ok (s.page i, n, s) := by
  unfold joinPrev
  by_cases hcase : 0 < i
  · obtain ⟨hslab, hnext⟩ := hleft hcase
    obtain ⟨h0, h8, h16⟩ := hl.valid_page (show i - 1 < N by omega)
    have hjoin : s.page i - pageSize = s.page (i - 1) := by
      rw [page_eq, page_eq, pageSize]
      omega
    rw [if_pos (by rw [page_eq]; omega)]
    dsimp only
    rw [hjoin, Pool.getPageType_ok h8, ok_bind]
    have hslab' : ¬ s.word (slabOf (s.page (i - 1))) = slabPageFree := hslab
    split
    · rw [Pool.load_ok h0, ok_bind, if_neg hslab', pure_eq_ok, ok_bind, Pool.load_ok h16, ok_bind,
        hnext, if_neg (by simp)]
      rfl
    · rfl
  · rw [if_neg (by rw [page_eq]; omega)]
    rfl

/-- The interior descriptors of a freed run are cleared. -/
theorem clearRest_spec (s : Pool) (page len : ℕ) (hpos : 0 < len) (hlt : len < 2 ^ 31)
    (hlo : s.mem.lo ≤ page) (hhi : page + 24 * len ≤ s.mem.hi) :
    ∃ s', (if (len : ℤ) - 1 ≠ 0 then
        s.memzero (page + pageSize) (toUInt64 (((len : ℤ) - 1) * pageSize)) else pure s) =
        Except.ok s' ∧ SameHeader s s' ∧ s'.pfree = s.pfree ∧
      (∀ x, page + 24 ≤ x → x < page + 24 * len → s'.word x = 0) ∧
      ∀ x, x < page + 24 ∨ page + 24 * len ≤ x → s'.word x = s.word x := by
  by_cases hcase : (len : ℤ) - 1 ≠ 0
  · have hsize : toUInt64 (((len : ℤ) - 1) * pageSize) = (len - 1) * 24 := by
      rw [pageSize, show ((len : ℤ) - 1) * ((24 : ℕ) : ℤ) = (((len - 1) * 24 : ℕ) : ℤ) by omega]
      exact toUInt64_of_lt (by omega)
    refine ⟨s.clear (page + 24) ((len - 1) * 24), ?_, ⟨rfl, rfl, rfl⟩, rfl, ?_, ?_⟩
    · rw [if_pos hcase, hsize]
      exact Pool.memzero_ok (by unfold pageSize; omega) (by unfold pageSize; omega)
    · intro x hlow hhigh
      exact Pool.clear_in (by omega) (by omega)
    · intro x hx
      exact Pool.clear_out (by omega)
  · refine ⟨s, ?_, SameHeader.refl s, rfl, fun x hlow hhigh => by omega, fun _ _ => rfl⟩
    rw [if_neg hcase]
    rfl

/-- The last descriptor of a freed run of two or more pages learns its head. -/
theorem markTail_spec {P : PageSize} {N : ℕ} {s : Pool} (hl : Layout P N s) (i len : ℕ)
    (hpos : 0 < len) (hin : i + len ≤ N) :
    ∃ s', (if (len : ℤ) - 1 ≠ 0 then
        s.store (prevOf (pageAt (s.page i) ((len : ℤ) - 1))) (s.page i) else pure s) =
        Except.ok s' ∧ SameHeader s s' ∧ s'.pfree = s.pfree ∧
      (2 ≤ len → s'.word (prevOf (s.page (i + len - 1))) = s.page i) ∧
      (∀ x, s'.word x = s.page i ∨ s'.word x = s.word x) ∧
      ∀ x, x < s.page i + 24 ∨ s.page i + 24 * len ≤ x → s'.word x = s.word x := by
  by_cases hcase : (len : ℤ) - 1 ≠ 0
  · have htail : pageAt (s.page i) ((len : ℤ) - 1) = s.page (i + len - 1) := by
      unfold pageAt pageSize
      rw [page_eq, page_eq]
      omega
    obtain ⟨-, h8, -⟩ := hl.valid_page (show i + len - 1 < N by omega)
    refine ⟨s.set (prevOf (s.page (i + len - 1))) (s.page i), ?_, ⟨rfl, rfl, rfl⟩, rfl,
      fun _ => Pool.set_same, ?_, ?_⟩
    · rw [if_pos hcase, htail, Pool.store_ok h8]
    · intro x
      by_cases heq : x = prevOf (s.page (i + len - 1))
      · rw [heq]
        exact Or.inl Pool.set_same
      · exact Or.inr (Pool.set_other heq)
    · intro x hx
      apply Pool.set_other
      rw [page_eq] at *
      unfold prevOf
      omega
  · refine ⟨s, ?_, SameHeader.refl s, rfl, fun hlen => by omega, fun _ => Or.inr rfl,
      fun _ _ => rfl⟩
    rw [if_neg hcase]
    rfl

/-- The free list with a head in front. -/
def linkFront (s : Pool) (page nx : ℕ) : Pool :=
  (((s.set (prevOf page) s.free).set (nextOf page) nx).set (prevOf nx) page).set (nextOf s.free) page

/-- The links of that head, and the words apart from them. -/
structure InFront (s s' : Pool) (page nx : ℕ) : Prop where
  prev : s'.word (prevOf page) = s.free
  next : s'.word (nextOf page) = nx
  back : s'.word (prevOf nx) = page
  first : s'.word (nextOf s.free) = page
  keep : ∀ x, x ≠ prevOf page → x ≠ nextOf page → x ≠ prevOf nx → x ≠ nextOf s.free →
    s'.word x = s.word x

theorem linkFront_inFront {s : Pool} {page nx : ℕ} (hfree : s.free + 24 ≤ page)
    (hout : Apart nx page (page + 24)) (hnx : nx = s.free ∨ Apart nx s.free (s.free + 24)) :
    InFront s (linkFront s page nx) page nx := by
  unfold Apart at hout hnx
  constructor
  case prev | next | back =>
    simp only [linkFront, nextOf, prevOf]
    simp (disch := omega) only [Pool.set_other, Pool.set_same]
  case first => exact Pool.set_same
  case keep =>
    intro x h1 h2 h3 h4
    unfold linkFront
    rw [Pool.set_other h4, Pool.set_other h3, Pool.set_other h2, Pool.set_other h1]

/-- The end of `hcore_slab_free_pages`. -/
def pushHead (s : Pool) (page : ℕ) : Exec Pool := do
  let s ← s.store (prevOf page) s.free
  let next ← s.load (nextOf s.free)
  let s ← s.store (nextOf page) next
  let next ← s.load (nextOf page)
  let s ← s.store (prevOf next) page
  s.store (nextOf s.free) page

theorem pushHead_ok {s : Pool} {page nx : ℕ} (hfree : s.free + 24 ≤ page)
    (hprev : s.Valid (prevOf page)) (hnext : s.Valid (nextOf page))
    (hhead : s.Valid (nextOf s.free)) (hback : s.Valid (prevOf nx))
    (hfirst : s.word (nextOf s.free) = nx) :
    pushHead s page = Except.ok (linkFront s page nx) := by
  have hload : (s.set (prevOf page) s.free).word (nextOf s.free) = nx :=
    (Pool.set_other (by unfold nextOf prevOf; omega)).trans hfirst
  simp only [pushHead, linkFront, Pool.load_ok, Pool.store_ok, Pool.set_valid, Pool.set_free,
    ok_bind, Pool.set_same, hprev, hnext, hhead, hback, hload]

/-- The memory after a run has become the first of the free list. -/
structure Pushed (s s' : Pool) (i len nx : ℕ) : Prop where
  same : SameHeader s s'
  pfree : s'.pfree = s.pfree + len
  slab : s'.word (slabOf (s.page i)) = len
  next : s'.word (nextOf (s.page i)) = nx
  prev : s'.word (prevOf (s.page i)) = s.free
  first : s'.word (nextOf s.free) = s.page i
  back : s'.word (prevOf nx) = s.page i
  tail : 2 ≤ len → s'.word (prevOf (s.page (i + len - 1))) = s.page i
  inner : ∀ j, 1 ≤ j → j < len → s'.word (prevOf (s.page (i + j))) = s.page i ∨
    s'.word (prevOf (s.page (i + j))) = 0
  keep : ∀ x, x < s.page i ∨ s.page i + 24 * len ≤ x → x ≠ nextOf s.free → x ≠ prevOf nx →
    s'.word x = s.word x

/-- A run before it is pushed on the free list: only its head and its tail have
words that are set. -/
structure Emptied (s s' : Pool) (i len : ℕ) : Prop where
  same : SameHeader s s'
  pfree : s'.pfree = s.pfree + len
  slab : s'.word (slabOf (s.page i)) = len
  tail : 2 ≤ len → s'.word (prevOf (s.page (i + len - 1))) = s.page i
  inner : ∀ j, 1 ≤ j → j < len → s'.word (prevOf (s.page (i + j))) = s.page i ∨
    s'.word (prevOf (s.page (i + j))) = 0
  keep : ∀ x, x < s.page i ∨ s.page i + 24 * len ≤ x → s'.word x = s.word x

/-- Without a neighbour to join, the run is emptied and then pushed. -/
theorem slabFreePages_emptied {P : PageSize} {N : ℕ} {s : Pool} {i len nx : ℕ}
    (h : Lone P N s i len nx) :
    ∃ s', slabFreePages s (s.page i) (toInt32 len) = pushHead s' (s.page i) ∧
      Emptied s s' i len := by
  obtain ⟨hl, hpos, hlt, hin, hpfree, -, -, -, -, hnext, hright, hleft⟩ := h
  have hlen : toInt32 len = len := toInt32_of_range (by omega) (by omega)
  have hcount : toUInt32 (s.pfree + (len : ℤ)) = s.pfree + len := toUInt32_of_lt hpfree
  have hlen64 : toUInt64 (len : ℤ) = len := toUInt64_of_lt (by omega)
  have hroom := hl.room
  have hlast := hl.last_eq
  have hstart := hl.last_le
  have hpages := hl.pages_eq
  have hpage : s.page i = s.pages + 24 * i := rfl
  have hlow : s.mem.lo = s.addr := hl.lo
  have hhigh : s.mem.hi = s.endAddr := hl.hi
  obtain ⟨hv0, -, hv16⟩ := hl.valid_page (show i < N by omega)
  let s0 : Pool := { s with pfree := s.pfree + len }
  let s1 : Pool := s0.set (slabOf (s.page i)) len
  have hs1 : SameHeader s s1 := ⟨rfl, rfl, rfl⟩
  have hword1 (x : ℕ) (hx : x ≠ s.page i) : s1.word x = s.word x :=
    Pool.set_other (s := s0) hx
  obtain ⟨s2, hrun2, hsame2, hpfree2, hzero2, hword2⟩ := clearRest_spec s1 (s.page i) len hpos hlt
    (show s.mem.lo ≤ s.page i by omega) (show s.page i + 24 * len ≤ s.mem.hi by omega)
  have hs2 := hs1.trans hsame2
  have hout (j : ℕ) (x : ℕ) (hx : s.page j ≤ x ∧ x < s.page j + 24) (hj : j < i ∨ i + len ≤ j) :
      s2.word x = s.word x := by
    rw [page_eq] at hx
    rw [hword2 x (by omega), hword1 x (by omega)]
  have hslab2 : s2.word (slabOf (s.page i)) = len := by
    rw [hword2 _ (by unfold slabOf; omega)]
    exact Pool.set_same
  have hnext2 : s2.word (nextOf (s.page i)) = 0 := by
    rw [hword2 _ (by unfold nextOf; omega), hword1 _ (by unfold nextOf; omega), hnext]
  have hrun3 := joinNext_none (hl.congr hs2) ((len : ℤ) - 1) hpos hin (by rwa [hs2.page])
    (by
      intro hcase
      rw [hs2.page, hout (i + len) _ (by unfold nextOf; omega) (by omega)]
      exact hright hcase)
  have hrun4 := joinPrev_none (hl.congr hs2) (i := i) ((len : ℤ) - 1) (by omega)
    (by
      intro hcase
      rw [hs2.page, hout (i - 1) _ (by unfold slabOf; omega) (by omega),
        hout (i - 1) _ (by unfold nextOf; omega) (by omega)]
      exact hleft hcase)
  obtain ⟨s3, hrun5, hsame3, hpfree3, htail3, hinner3, hword3⟩ :=
    markTail_spec (hl.congr hs2) i len hpos hin
  rw [hs2.page] at hrun3 hrun4 hrun5 htail3 hinner3 hword3
  refine ⟨s3, ?_, hs2.trans hsame3, hpfree3.trans hpfree2, ?_, htail3, fun j hpos' hj => ?_,
    fun x hx => ?_⟩
  · unfold slabFreePages
    rw [hlen]
    simp only [hcount, hlen64]
    change (s0.store (slabOf (s.page i)) len >>= _) = _
    rw [Pool.store_ok (show s0.Valid _ from hv0), ok_bind, ite_bind]
    refine bind_of_ok hrun2 ?_
    rw [Pool.load_ok (hs2.valid.mpr hv16), ok_bind, hnext2, if_neg (by simp), pure_eq_ok, ok_bind]
    refine bind_of_ok hrun3 ?_
    refine bind_of_ok hrun4 ?_
    dsimp only
    rw [ite_bind]
    exact bind_of_ok hrun5 rfl
  · rw [hword3 _ (by unfold slabOf; omega), hslab2]
  · have hinner := hinner3 (prevOf (s.page (i + j)))
    rwa [hzero2 _ (by simp only [prevOf, page_add]; omega)
      (by simp only [prevOf, page_add]; omega)] at hinner
  · rw [hword3 x (by omega), hword2 x (by omega), hword1 x (by omega)]

/-- Freeing a run between pages in use pushes it on the free list. -/
theorem slabFreePages_lone {P : PageSize} {N : ℕ} {s : Pool} {i len nx : ℕ}
    (h : Lone P N s i len nx) :
    ∃ s', slabFreePages s (s.page i) (toInt32 len) = Except.ok s' ∧ Pushed s s' i len nx := by
  obtain ⟨s3, hrun, hsame, hpfree, hslab, htail, hinner, hkeep⟩ := slabFreePages_emptied h
  obtain ⟨hl, hpos, -, hin, -, hfirst, hvx, hxfree, hxout, -, -, -⟩ := h
  have hpages := hl.pages_eq
  have hfree : s.free = s.addr + 40 := rfl
  have hpage : s.page i = s.pages + 24 * i := rfl
  obtain ⟨-, hv8, hv16⟩ := hl.valid_page (show i < N by omega)
  obtain ⟨-, -, hvf⟩ := hl.valid_free
  have hbelow : s3.free + 24 ≤ s.page i := by
    rw [hsame.free]
    omega
  unfold Apart at hxout
  obtain ⟨hprev, hnext, hback, hhead, hother⟩ :
      InFront s3 (linkFront s3 (s.page i) nx) (s.page i) nx := by
    refine linkFront_inFront hbelow (by unfold Apart; omega) ?_
    rwa [hsame.free]
  rw [hsame.free] at hbelow hprev hhead hother
  have hpush : pushHead s3 (s.page i) = Except.ok (linkFront s3 (s.page i) nx) := by
    refine pushHead_ok (by rwa [hsame.free]) (hsame.valid.mpr hv8) (hsame.valid.mpr hv16) ?_
      (hsame.valid.mpr hvx) ?_
    · rw [hsame.free]
      exact hsame.valid.mpr hvf
    · rw [hsame.free, hkeep _ (by unfold nextOf; omega), hfirst]
  unfold Apart at hxfree
  refine ⟨linkFront s3 (s.page i) nx, hrun.trans hpush, hsame.trans ⟨rfl, rfl, rfl⟩, hpfree, ?_,
    hnext, hprev, hhead, hback, fun hlen => ?_, fun j hpos' hj => ?_, fun x hx hne hne' => ?_⟩
  · refine Eq.trans ?_ hslab
    apply hother <;> simp only [slabOf, nextOf, prevOf] <;> omega
  · have hlast : s.page (i + len - 1) = s.pages + 24 * (i + len - 1) := rfl
    refine Eq.trans ?_ (htail hlen)
    apply hother <;> simp only [nextOf, prevOf] <;> omega
  · have hkept : (linkFront s3 (s.page i) nx).word (prevOf (s.page (i + j))) =
        s3.word (prevOf (s.page (i + j))) := by
      rw [page_add]
      apply hother <;> simp only [nextOf, prevOf] <;> omega
    rw [hkept]
    exact hinner j hpos' hj
  · rw [← hkeep x hx]
    refine hother x ?_ ?_ hne' hne
    · unfold prevOf
      omega
    · unfold nextOf
      omega

/-- A pool and the runs of pages that callers hold. -/
structure PageState where
  pool : Pool
  live : List Run

inductive Call
  | alloc (n : ℕ)
  | free (r : Run)

/-- One call that returns. A run is freed with its true length, which the
callee receives as an `int`. -/
inductive Step : PageState → Call → PageState → Prop
  | allocRun {s s' : Pool} {live : List Run} {n fuel page : ℕ} (hn : 0 < n) (hn' : n < 2 ^ 32)
      (hrun : slabAllocPages fuel s n = Except.ok (page, s')) (hpage : page ≠ 0) :
      Step ⟨s, live⟩ (.alloc n) ⟨s', ⟨(page - s.pages) / pageSize, n⟩ :: live⟩
  | allocNone {s s' : Pool} {live : List Run} {n fuel : ℕ} (hn : 0 < n) (hn' : n < 2 ^ 32)
      (hrun : slabAllocPages fuel s n = Except.ok (0, s')) :
      Step ⟨s, live⟩ (.alloc n) ⟨s', live⟩
  | free {s s' : Pool} {live : List Run} {r : Run} (hr : r ∈ live)
      (hrun : slabFreePages s (s.page r.start) (toInt32 r.len) = Except.ok s') :
      Step ⟨s, live⟩ (.free r) ⟨s', live.erase r⟩

/-- The states that calls with the property `guard` reach from a new pool. -/
inductive Reaches (P : PageSize) (M : Mapping P) (size : ℕ) (guard : PageState → Call → Prop) :
    PageState → Prop
  | init {s : Pool} (h : createShpool P M size = Except.ok s) : Reaches P M size guard ⟨s, []⟩
  | call {st st' : PageState} {c : Call} (h : Reaches P M size guard st) (hc : guard st c)
      (hstep : Step st c st') : Reaches P M size guard st'

/-- The free list is a well formed ring of the heads of free runs. -/
structure ListInvariant (N : ℕ) (st : PageState) (frees : List Run) : Prop where
  chain : Chain (nextWord st.pool) (prevWord st.pool) st.pool.free st.pool.free
    (heads st.pool frees)
  slab : ∀ r ∈ frees, st.pool.word (slabOf (st.pool.page r.start)) = r.len
  tail : ∀ r ∈ frees, 2 ≤ r.len → (∃ r' ∈ st.live, r'.Covers r.stop) →
    st.pool.word (prevOf (st.pool.page (r.stop - 1))) = st.pool.page r.start
  pfree : st.pool.pfree = total frees
  tiles : Tiles N (frees ++ st.live)
  apart : ∀ r ∈ frees, ∀ r' ∈ frees, r.stop ≠ r'.start

/-- A freed run has its length in an `int` and no free page next to it. -/
def NoJoin (N : ℕ) (st : PageState) : Call → Prop
  | .alloc _ => True
  | .free r => r.len < 2 ^ 31 ∧ (r.start = 0 ∨ ∃ r' ∈ st.live, r'.stop = r.start) ∧
      (r.stop = N ∨ ∃ r' ∈ st.live, r'.start = r.stop)

/-- The free list together with the marks of the pages in use. -/
structure PageInv (P : PageSize) (N : ℕ) (st : PageState) (frees : List Run) : Prop where
  list : FreeList P N st.pool frees st.live
  next : ∀ r ∈ st.live, ∀ i, r.Covers i → st.pool.word (nextOf (st.pool.page i)) = 0
  slab : ∀ r ∈ st.live, ∀ i, r.Covers i → st.pool.word (slabOf (st.pool.page i)) ≠ 0

theorem PageInv.invariant {P : PageSize} {N : ℕ} {st : PageState} {frees : List Run}
    (h : PageInv P N st frees) : ListInvariant N st frees where
  chain := h.list.chain
  slab := h.list.slab
  tail r hr hlen hnext := by
    obtain ⟨r', hr', hcover⟩ := hnext
    exact h.list.tail r hr hlen
      (h.list.tiles.lt_of_covers (List.mem_append_right _ hr') hcover)
  pfree := h.list.pfree
  tiles := h.list.tiles
  apart := h.list.apart

section

variable {P : PageSize} {N : ℕ} {s s' : Pool} {frees live : List Run} {r : Run}

theorem created_inv {M : Mapping P} {size : ℕ} (h : createShpool P M size = Except.ok s)
    (hfit : Fits P size) :
    PageInv P (pageCount P M size) ⟨s, []⟩ [⟨0, pageCount P M size⟩] := by
  obtain ⟨s1, hrun, hcreated⟩ := createShpool_spec P M size
  rw [h] at hrun
  cases hrun
  exact ⟨created_freeList hcreated hfit, by simp, by simp⟩

/-- A call that allocates keeps the invariant. -/
theorem alloc_inv (h : PageInv P N ⟨s, live⟩ frees) {i n : ℕ} {frees' : List Run}
    (hfree : FreeList P N s' frees' (⟨i, n⟩ :: live)) (halloc : Allocated s s' frees i n) :
    PageInv P N ⟨s', ⟨i, n⟩ :: live⟩ frees' := by
  have hpage := halloc.taken.same.page
  have hlist : FreeList P N s frees live := h.list
  refine ⟨hfree, ?_, ?_⟩
  · intro r hr j hj
    dsimp only
    rw [hpage]
    rcases List.mem_cons.mp hr with rfl | hr
    · rw [Run.covers_mk] at hj
      have hnext := halloc.taken.next (j - i) (by omega)
      rwa [← page_add, show i + (j - i) = j by omega] at hnext
    · rw [halloc.frame _ (hlist.live_not_freeWord hr hj (by unfold nextOf; omega)
        (by unfold nextOf; omega))]
      exact h.next r hr j hj
  · intro r hr j hj
    dsimp only
    rw [hpage]
    rcases List.mem_cons.mp hr with rfl | hr
    · rw [Run.covers_mk] at hj
      rcases Nat.eq_or_lt_of_le hj.1 with rfl | hlt
      · rw [halloc.taken.slab]
        intro hzero
        exact absurd (Nat.or_eq_zero_iff.mp hzero).2 (by decide)
      · have hbusy := halloc.taken.busy (j - i) (by omega) (by omega)
        rw [← page_add, show i + (j - i) = j by omega] at hbusy
        rw [hbusy]
        decide
    · rw [halloc.frame _ (hlist.live_not_freeWord hr hj (by unfold slabOf; omega)
        (by unfold slabOf; omega))]
      exact h.slab r hr j hj

/-- The nodes of the ring lie apart from a run in use. -/
theorem live_apart (h : FreeList P N s frees live) (hr : r ∈ live) {x : ℕ}
    (hx : x ∈ s.free :: heads s frees) :
    Apart x (s.page r.start) (s.page r.start + 24 * r.len) := by
  have hlow := h.runs.free_lt_pages
  unfold Apart
  rcases FreeRuns.node_cases hx with rfl | ⟨r', hr', rfl⟩
  · rw [page_eq]
    omega
  · by_contra hin
    rw [page_eq, page_eq] at hin
    have hpos := h.len_pos hr'
    have hpos' := h.tiles.len_pos r (List.mem_append_right _ hr)
    have heq : r' = r := by
      apply h.tiles.eq_of_covers (List.mem_append_left _ hr') (List.mem_append_right _ hr)
        (i := r'.start) (Run.covers_start hpos)
      unfold Run.Covers Run.stop
      omega
    subst heq
    exact List.disjoint_of_nodup_append h.tiles.nodup hr' hr

/-- The surroundings of a run that `NoJoin` lets free. -/
theorem PageInv.lone (h : PageInv P N ⟨s, live⟩ frees) (hr : r ∈ live)
    (hguard : NoJoin N ⟨s, live⟩ (.free r)) :
    Lone P N s r.start r.len (nextWord s s.free) := by
  obtain ⟨hlen, hleft, hright⟩ := hguard
  have hlist : FreeList P N s frees live := h.list
  have htotal := hlist.tiles.total_eq
  have hcount := hlist.layout.count_lt
  have hmem : nextWord s s.free ∈ s.free :: heads s frees := by
    rw [hlist.chain.head]
    cases heads s frees with
    | nil => exact List.mem_cons_self ..
    | cons y l => simp
  have hpos := hlist.tiles.len_pos r (List.mem_append_right _ hr)
  have hstop := hlist.tiles.stop_le (List.mem_append_right _ hr)
  have hlive := len_le_total hr
  rw [total_append] at htotal
  exact {
    layout := hlist.layout
    len_pos := hpos
    len_lt := hlen
    inside := hstop
    pfree_lt := by
      rw [hlist.pfree]
      omega
    first := rfl
    first_valid := (hlist.runs.valid_node hmem).2.1
    first_apart := hlist.runs.nodes_apart hmem (List.mem_cons_self ..)
    first_out := live_apart hlist hr hmem
    next := h.next r hr r.start (Run.covers_start hpos)
    right := by
      intro hlt
      rcases hright with heq | ⟨r', hr', heq⟩
      · unfold Run.stop at heq
        omega
      · have hpos' := hlist.tiles.len_pos r' (List.mem_append_right _ hr')
        exact h.next r' hr' _ (by rw [← Run.stop, ← heq]; exact Run.covers_start hpos')
    left := by
      intro hlt
      rcases hleft with heq | ⟨r', hr', heq⟩
      · omega
      · have hpos' := hlist.tiles.len_pos r' (List.mem_append_right _ hr')
        have hcover : r'.Covers (r.start - 1) := by
          unfold Run.Covers
          unfold Run.stop at *
          omega
        exact ⟨h.slab r' hr' _ hcover, h.next r' hr' _ hcover⟩ }

/-- A freed run joins no run of the free list. -/
theorem NoJoin.apart (h : FreeList P N s frees live)
    (hguard : NoJoin N ⟨s, live⟩ (.free r)) {r' : Run} (hr' : r' ∈ frees) :
    r.stop ≠ r'.start ∧ r'.stop ≠ r.start := by
  obtain ⟨-, hleft, hright⟩ := hguard
  have hpos' := h.len_pos hr'
  have hin := h.stop_le hr'
  constructor
  · intro heq
    rcases hright with hend | ⟨r2, hr2, hstart⟩
    · omega
    · have hpos2 := h.tiles.len_pos r2 (List.mem_append_right _ hr2)
      have hsame : r' = r2 := by
        apply h.tiles.eq_of_covers (List.mem_append_left _ hr') (List.mem_append_right _ hr2)
          (i := r'.start) (Run.covers_start hpos')
        rw [← heq, ← hstart]
        exact Run.covers_start hpos2
      subst hsame
      exact List.disjoint_of_nodup_append h.tiles.nodup hr' hr2
  · intro heq
    rcases hleft with hstart | ⟨r2, hr2, hstop⟩
    · unfold Run.stop at heq
      omega
    · exact FreeList.stop_ne_stop h.tiles hr' hr2 (heq.trans hstop.symm)

theorem first_mem (h : FreeList P N s frees live) :
    nextWord s s.free ∈ s.free :: heads s frees := by
  rw [h.chain.head]
  cases heads s frees with
  | nil => exact List.mem_cons_self ..
  | cons y l => simp

theorem head_ne_free (h : FreeList P N s frees live) {x : ℕ} (hx : x ∈ heads s frees) :
    x ≠ s.free := by
  rintro rfl
  exact (List.nodup_cons.mp h.runs.nodup).1 hx

/-- Two runs of a tiling, one free and one in use, lie apart. -/
theorem free_live_apart (h : FreeList P N s frees live) {r' : Run} (hr' : r' ∈ frees)
    (hr : r ∈ live) : r'.stop ≤ r.start ∨ r.stop ≤ r'.start := by
  have hpos := h.len_pos hr'
  have hpos' := h.tiles.len_pos r (List.mem_append_right _ hr)
  by_contra hover
  have heq : r' = r := by
    apply h.tiles.eq_of_covers (List.mem_append_left _ hr') (List.mem_append_right _ hr)
      (i := max r'.start r.start)
    · unfold Run.Covers
      unfold Run.stop at *
      omega
    · unfold Run.Covers
      unfold Run.stop at *
      omega
  subst heq
  exact List.disjoint_of_nodup_append h.tiles.nodup hr' hr

section

variable (h : FreeList P N s frees live) (hr : r ∈ live)
  (hp : Pushed s s' r.start r.len (nextWord s s.free))
include h hr hp

/-- The links and lengths of the runs that were free before are kept. -/
theorem pushed_next {z : ℕ} (hz : z ∈ heads s frees) : nextWord s' z = nextWord s z := by
  have hz' : z ∈ s.free :: heads s frees := List.mem_cons_of_mem _ hz
  have hout := live_apart h hr hz'
  have hnode := h.runs.nodes_apart hz' (first_mem h)
  have hne := head_ne_free h hz
  unfold Apart at *
  apply hp.keep <;> unfold nextOf <;> (try unfold prevOf) <;> omega

theorem pushed_prev {z : ℕ} (hz : z ∈ heads s frees) (hne : z ≠ nextWord s s.free) :
    prevWord s' z = prevWord s z := by
  have hz' : z ∈ s.free :: heads s frees := List.mem_cons_of_mem _ hz
  have hout := live_apart h hr hz'
  have hnode := h.runs.nodes_apart hz' (first_mem h)
  have hfree := h.runs.nodes_apart hz' (List.mem_cons_self ..)
  unfold Apart at *
  apply hp.keep <;> unfold prevOf <;> (try unfold nextOf) <;> omega

theorem pushed_slab {r' : Run} (hr' : r' ∈ frees) :
    s'.word (slabOf (s.page r'.start)) = r'.len := by
  have hz : s.page r'.start ∈ s.free :: heads s frees :=
    List.mem_cons_of_mem _ (List.mem_map_of_mem hr')
  have hout := live_apart h hr hz
  have hnode := h.runs.nodes_apart hz (first_mem h)
  have hfree := h.runs.nodes_apart hz (List.mem_cons_self ..)
  rw [← h.slab r' hr']
  unfold Apart at *
  apply hp.keep <;> unfold slabOf <;> (try unfold nextOf) <;> (try unfold prevOf) <;> omega

theorem pushed_tags {r' : Run} {i : ℕ} (hr' : r' ∈ frees) (hi : r'.Covers i) :
    s'.word (prevOf (s.page i)) % 4 = 0 := by
  have hpageMod : s.page r.start % 4 = 0 := by
    have hmod := h.layout.addr_mod
    have hpages := h.layout.pages_eq
    rw [page_eq]
    omega
  by_cases hnext : s.page i = nextWord s s.free
  · rw [hnext, hp.back]
    exact hpageMod
  · have hout := free_live_apart h hr' hr
    have hlow := h.runs.free_lt_pages
    rw [← h.tags r' hr' i hi]
    congr 1
    simp only [page_eq, Run.Covers, Run.stop] at *
    apply hp.keep <;> unfold prevOf <;> (try unfold nextOf) <;>
      (try simp only [page_eq]) <;> omega

theorem pushed_tail {r' : Run} (hr' : r' ∈ frees) (hlen : 2 ≤ r'.len) (hstop : r'.stop < N) :
    s'.word (prevOf (s.page (r'.stop - 1))) = s.page r'.start := by
  have hout := free_live_apart h hr' hr
  have hnode := h.runs.node_interior hr' (first_mem h)
  have hlow := h.runs.free_lt_pages
  rw [← h.tail r' hr' hlen hstop]
  simp only [Apart, page_eq, Run.stop] at *
  apply hp.keep <;> unfold prevOf <;> (try unfold nextOf) <;> (try simp only [page_eq]) <;>
    omega

/-- The descriptors of the other runs in use are kept. -/
theorem pushed_live {r' : Run} {j x : ℕ} (hr' : r' ∈ live.erase r) (hj : r'.Covers j)
    (hlo : s.page j ≤ x) (hhi : x < s.page j + 24) : s'.word x = s.word x := by
  have hnd : live.Nodup := List.Nodup.of_append_right h.tiles.nodup
  obtain ⟨hne, hmem⟩ := (List.Nodup.mem_erase_iff hnd).mp hr'
  have hcover : ¬ r.Covers j := by
    intro hj'
    exact hne (h.tiles.eq_of_covers (List.mem_append_right _ hmem) (List.mem_append_right _ hr)
      hj hj')
  have hword := h.live_not_freeWord hmem hj hlo hhi
  have hmem' := first_mem h
  apply hp.keep
  · rw [page_eq] at *
    unfold Run.Covers Run.stop at hcover
    omega
  · rintro rfl
    exact hword (Or.inl ⟨by unfold nextOf; omega, by unfold nextOf; omega⟩)
  · rintro rfl
    exact hword (h.runs.node_freeWord hmem' (by unfold prevOf; omega) (by unfold prevOf; omega))

end

/-- A call that frees a run keeps the invariant. -/
theorem free_inv (h : PageInv P N ⟨s, live⟩ frees) (hr : r ∈ live)
    (hguard : NoJoin N ⟨s, live⟩ (.free r)) :
    ∃ s', slabFreePages s (s.page r.start) (toInt32 r.len) = Except.ok s' ∧
      PageInv P N ⟨s', live.erase r⟩ (r :: frees) := by
  have hlist : FreeList P N s frees live := h.list
  have hlone := h.lone hr hguard
  obtain ⟨s', hrun, hp⟩ := slabFreePages_lone hlone
  have hsame := hp.same
  have hperm : (frees ++ live).Perm ((r :: frees) ++ live.erase r) := by
    refine List.Perm.trans (List.Perm.append_left _ (List.perm_cons_erase hr)) ?_
    exact List.perm_middle
  refine ⟨s', hrun, ⟨?_, ?_, ?_⟩⟩
  · refine {
      layout := hlist.layout.congr hsame
      chain := ?_
      slab := ?_
      tail := ?_
      tiles := hlist.tiles.perm hperm
      apart := ?_
      pfree := ?_
      tags := ?_ }
    · dsimp only
      rw [hsame.free]
      change Chain _ _ _ _ (s'.page r.start :: frees.map (fun r => s'.page r.start))
      rw [hsame.page]
      exact hlist.chain.push hlist.runs.nodup hp.first hp.prev hp.next (fun _ => hp.back)
        (fun z hz => pushed_next hlist hr hp hz) (fun z hz hne => pushed_prev hlist hr hp hz hne)
    · intro r' hr'
      dsimp only
      rw [hsame.page]
      rcases List.mem_cons.mp hr' with rfl | hr'
      · exact hp.slab
      · exact pushed_slab hlist hr hp hr'
    · intro r' hr' hlen hstop
      dsimp only
      rw [hsame.page]
      rcases List.mem_cons.mp hr' with rfl | hr'
      · exact hp.tail hlen
      · exact pushed_tail hlist hr hp hr' hlen hstop
    · intro r1 hr1 r2 hr2
      rcases List.mem_cons.mp hr1 with rfl | hmem1
      · rcases List.mem_cons.mp hr2 with rfl | hmem2
        · have hpos := hlone.len_pos
          unfold Run.stop
          omega
        · exact (hguard.apart hlist hmem2).1
      · rcases List.mem_cons.mp hr2 with rfl | hmem2
        · exact (hguard.apart hlist hmem1).2
        · exact hlist.apart r1 hmem1 r2 hmem2
    · dsimp only
      rw [hp.pfree, hlist.pfree, total_cons, Nat.add_comm]
    · intro r' hr' i hi
      dsimp only
      rw [hsame.page]
      rcases List.mem_cons.mp hr' with rfl | hr'
      · have hmod := hlist.layout.addr_mod
        have hpages := hlist.layout.pages_eq
        unfold Run.Covers Run.stop at hi
        rcases Nat.eq_or_lt_of_le hi.1 with heq | hlt
        · rw [← heq, hp.prev, Pool.free, freeOffset]
          omega
        · have hinner := hp.inner (i - r'.start) (by omega) (by omega)
          rw [show r'.start + (i - r'.start) = i by omega, page_eq s r'.start] at hinner
          omega
      · exact pushed_tags hlist hr hp hr' hi
  · intro r' hr' j hj
    dsimp only
    rw [hsame.page, pushed_live hlist hr hp hr' hj (by unfold nextOf; omega)
      (by unfold nextOf; omega)]
    exact h.next r' (List.mem_of_mem_erase hr') j hj
  · intro r' hr' j hj
    dsimp only
    rw [hsame.page, pushed_live hlist hr hp hr' hj (by unfold slabOf; omega)
      (by unfold slabOf; omega)]
    exact h.slab r' (List.mem_of_mem_erase hr') j hj

/-- One guarded call keeps the invariant. -/
theorem step_inv {st st' : PageState} {c : Call} (h : PageInv P N st frees)
    (hguard : NoJoin N st c) (hstep : Step st c st') : ∃ frees', PageInv P N st' frees' := by
  cases hstep with
  | allocRun hn hn' hrun hpage =>
    rcases h.list.slabAllocPages_spec hn hrun with ⟨hzero, -, -⟩ | ⟨i, frees', rfl, -, hfree, halloc⟩
    · exact absurd hzero hpage
    · dsimp only at *
      have hindex (s : Pool) : (s.page i - s.pages) / pageSize = i := by
        rw [page_eq, pageSize]
        omega
      rw [hindex]
      exact ⟨frees', alloc_inv h hfree halloc⟩
  | allocNone hn hn' hrun =>
    rcases h.list.slabAllocPages_spec hn hrun with ⟨-, hs, -⟩ | ⟨i, frees', hpage, -, -, -⟩
    · dsimp only at hs
      subst hs
      exact ⟨frees, h⟩
    · exact absurd hpage.symm (h.list.page_ne_zero i)
  | free hr hrun =>
    obtain ⟨s1, hrun1, hinv⟩ := free_inv h hr hguard
    rw [hrun1] at hrun
    cases hrun
    exact ⟨_, hinv⟩

/-- A guarded call returns: pages are found or not, and a held run is freed. -/
theorem step_returns {st : PageState} {c : Call} (h : PageInv P N st frees)
    (hguard : NoJoin N st c)
    (hcall : match c with
      | .alloc n => 0 < n ∧ n < 2 ^ 32
      | .free r => r ∈ st.live) : ∃ st', Step st c st' := by
  obtain ⟨s, live⟩ := st
  cases c with
  | alloc n =>
    obtain ⟨page, s', hrun⟩ := h.list.slabAllocPages_returns hcall.1 (Nat.lt_succ_self _)
    by_cases hpage : page = 0
    · subst hpage
      exact ⟨_, Step.allocNone hcall.1 hcall.2 hrun⟩
    · exact ⟨_, Step.allocRun hcall.1 hcall.2 hrun hpage⟩
  | free r =>
    obtain ⟨s', hrun, -⟩ := free_inv h hcall hguard
    exact ⟨_, Step.free hcall hrun⟩

end

/-- Along calls that join no runs the free list stays well formed. -/
theorem free_list_invariant (P : PageSize) (M : Mapping P) (size : ℕ) (hfit : Fits P size)
    (st : PageState) (hrun : Reaches P M size (NoJoin (pageCount P M size)) st) :
    ∃ frees, ListInvariant (pageCount P M size) st frees := by
  have hinv : ∃ frees, PageInv P (pageCount P M size) st frees := by
    induction hrun with
    | init h => exact ⟨_, created_inv h hfit⟩
    | call _ hc hstep ih =>
      obtain ⟨frees, ih⟩ := ih
      exact step_inv ih hc hstep
  obtain ⟨frees, hinv⟩ := hinv
  exact ⟨frees, hinv.invariant⟩

/-- Two runs are taken and the first is given back; the second holds its
right neighbour. -/
theorem free_list_invariant_lone :
    Fits smallPages 1 ∧ ∃ st,
      Reaches smallPages clearMapping 1 (NoJoin (pageCount smallPages clearMapping 1)) st ∧
      st.live = [⟨1, 2⟩] ∧ ∃ frees,
      ListInvariant (pageCount smallPages clearMapping 1) st frees := by
  have hfit : Fits smallPages 1 := by decide
  have htrace : (do
      let s0 ← createShpool smallPages clearMapping 1
      let r1 ← slabAllocPages 9 s0 1
      let r2 ← slabAllocPages 9 r1.2 2
      let s3 ← slabFreePages r2.2 (r2.2.page 0) (toInt32 1)
      pure ((r1.1, (r1.1 - s0.pages) / pageSize), (r2.1, (r2.1 - r1.2.pages) / pageSize),
        s3.pfree)) = (Except.ok ((65824, 0), (65848, 1), 5) : Exec _) := by decide +kernel
  obtain ⟨s0, h0, htrace⟩ := bind_eq_ok.mp htrace
  obtain ⟨⟨p1, s1⟩, h1, htrace⟩ := bind_eq_ok.mp htrace
  obtain ⟨⟨p2, s2⟩, h2, htrace⟩ := bind_eq_ok.mp htrace
  obtain ⟨s3, h3, htrace⟩ := bind_eq_ok.mp htrace
  simp only [pure_eq_ok, Except.ok.injEq, Prod.mk.injEq] at htrace
  obtain ⟨⟨hp1, hi1⟩, ⟨hp2, hi2⟩, -⟩ := htrace
  have hrun0 : Reaches smallPages clearMapping 1
      (NoJoin (pageCount smallPages clearMapping 1)) ⟨s0, []⟩ := Reaches.init h0
  have hrun1 := hrun0.call (c := .alloc 1) trivial
    (Step.allocRun (by omega) (by omega) h1 (by omega))
  have hrun2 := hrun1.call (c := .alloc 2) trivial
    (Step.allocRun (by omega) (by omega) h2 (by omega))
  rw [hi1, hi2] at hrun2
  have hrun3 := hrun2.call (c := .free ⟨0, 1⟩)
    ⟨by decide, Or.inl rfl, Or.inr ⟨⟨1, 2⟩, by simp, rfl⟩⟩ (Step.free (by simp) h3)
  exact ⟨hfit, _, hrun3, rfl, free_list_invariant smallPages clearMapping 1 hfit _ hrun3⟩

/-- Taking one page and giving it back joins it with the run behind it, and
leaves a head of length zero. -/
theorem free_list_joined :
    ∃ st, Reaches smallPages clearMapping 1 (fun _ _ => True) st ∧
      ∀ frees, ¬ ListInvariant (pageCount smallPages clearMapping 1) st frees := by
  have htrace : (do
      let s0 ← createShpool smallPages clearMapping 1
      let r1 ← slabAllocPages 9 s0 1
      let s2 ← slabFreePages r1.2 (r1.2.page 0) (toInt32 1)
      pure (r1.1, (r1.1 - s0.pages) / pageSize, s2.free, s2.word (nextOf s2.free),
        s2.word (slabOf 65824))) =
        (Except.ok (65824, 0, 65576, 65824, 0) : Exec _) := by decide +kernel
  obtain ⟨s0, h0, htrace⟩ := bind_eq_ok.mp htrace
  obtain ⟨⟨p1, s1⟩, h1, htrace⟩ := bind_eq_ok.mp htrace
  obtain ⟨s2, h2, htrace⟩ := bind_eq_ok.mp htrace
  simp only [pure_eq_ok, Except.ok.injEq, Prod.mk.injEq] at htrace
  obtain ⟨hp1, hi1, hfree, hnext, hslab⟩ := htrace
  have hrun0 : Reaches smallPages clearMapping 1 (fun _ _ => True) ⟨s0, []⟩ := Reaches.init h0
  have hrun1 := hrun0.call (c := .alloc 1) trivial (Step.allocRun (by omega) (by omega) h1 (by omega))
  rw [hi1] at hrun1
  have hrun2 := hrun1.call (c := .free ⟨0, 1⟩) trivial (Step.free (by simp) h2)
  refine ⟨_, hrun2, ?_⟩
  intro frees hinv
  have hhead := hinv.chain.head
  dsimp only [nextWord] at hhead
  rw [hnext] at hhead
  cases frees with
  | nil =>
    rw [heads, List.map_nil, List.headD_nil] at hhead
    omega
  | cons r rest =>
    have hlen := hinv.slab r (List.mem_cons_self ..)
    have hpos := hinv.tiles.len_pos r (by simp)
    rw [heads, List.map_cons, List.headD_cons] at hhead
    dsimp only at hlen hhead
    rw [← hhead, hslab] at hlen
    omega

end HCore.SlabPageRuns
