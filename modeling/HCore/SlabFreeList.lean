import HCore.SlabLayout
import HCore.Runs
import HCore.Chains

/-!
The page free list and what an allocation does to it. The list is a ring
through the heads of the free runs. The runs of free pages and the runs that
are in use tile the descriptors, and no two free runs are adjacent. Taking
pages replaces the head of a run by the head of its rest or removes it, and
only descriptors of free pages and the list header are written.
-/

namespace HCore.SlabFreeList

open Words Machine Base SlabPool SlabPages SlabLayout Runs Chains

def nextWord (s : Pool) (a : ℕ) : ℕ := s.word (nextOf a)

def prevWord (s : Pool) (a : ℕ) : ℕ := s.word (prevOf a)

/-- The descriptor addresses of the first pages of some runs. -/
def heads (s : Pool) (rs : List Run) : List ℕ := rs.map (fun r => s.page r.start)

/-- The free list of a pool: its runs in list order, and the runs in use. -/
structure FreeList (P : PageSize) (N : ℕ) (s : Pool) (frees live : List Run) : Prop where
  layout : Layout P N s
  chain : Chain (nextWord s) (prevWord s) s.free s.free (heads s frees)
  slab : ∀ r ∈ frees, s.word (slabOf (s.page r.start)) = r.len
  tail : ∀ r ∈ frees, 2 ≤ r.len → r.stop < N →
    s.word (prevOf (s.page (r.stop - 1))) = s.page r.start
  tiles : Tiles N (frees ++ live)
  apart : ∀ r ∈ frees, ∀ r' ∈ frees, r.stop ≠ r'.start
  pfree : s.pfree = total frees
  tags : ∀ r ∈ frees, ∀ i, r.Covers i → s.word (prevOf (s.page i)) % 4 = 0

/-- The free list alone: its runs in list order, linked through the header.
Free runs may be adjacent here, and nothing is said of the other pages. -/
structure FreeRuns (s : Pool) (frees : List Run) : Prop where
  valid_free : s.Valid (slabOf s.free) ∧ s.Valid (prevOf s.free) ∧ s.Valid (nextOf s.free)
  free_lt_pages : s.free + 24 ≤ s.pages
  aligned : s.pages % 8 = 0
  mapped : ∀ r ∈ frees, ∀ a, s.page r.start ≤ a → a < s.page r.start + 24 * r.len →
    a % 8 = 0 → s.Valid a
  len_pos : ∀ r ∈ frees, 0 < r.len
  separate : frees.Pairwise Run.Separate
  chain : Chain (nextWord s) (prevWord s) s.free s.free (heads s frees)
  slab : ∀ r ∈ frees, s.word (slabOf (s.page r.start)) = r.len
  pfree : s.pfree = total frees
  pfree_lt : s.pfree < 2 ^ 32

/-- The words that an allocation may write: the descriptors of free pages and
the header of the free list. -/
def FreeWord (s : Pool) (frees : List Run) (a : ℕ) : Prop :=
  (s.free ≤ a ∧ a < s.free + 24) ∨
    ∃ r ∈ frees, s.page r.start ≤ a ∧ a < s.page r.start + 24 * r.len

/-- The loop over the interior of an allocated run. -/
theorem markBusy_spec (k page p : ℕ) (s : Pool) (hpage : page + 24 ≤ p)
    (hv : s.Valid (prevOf page))
    (hv' : ∀ a, p ≤ a → a < p + 24 * k → a % 8 = 0 → s.Valid a) (hp : p % 8 = 0)
    (hprev : s.word (prevOf page) = 0) :
    ∃ s', markBusy k page p s = Except.ok s' ∧ SameHeader s s' ∧ s'.pfree = s.pfree ∧
      (∀ j < k, s'.word (slabOf (p + 24 * j)) = slabPageBusy ∧
        s'.word (nextOf (p + 24 * j)) = 0 ∧
        s'.word (prevOf (p + 24 * j)) = s.word (prevOf (p + 24 * j))) ∧
      (∀ a, a < p ∨ p + 24 * k ≤ a → s'.word a = s.word a) := by
  induction k generalizing p s with
  | zero => exact ⟨s, rfl, SameHeader.refl s, rfl, by simp, fun _ _ => rfl⟩
  | succ k ih =>
    have h0 : s.Valid (slabOf p) := hv' _ (by simp [slabOf]) (by unfold slabOf; omega) hp
    have h16 : s.Valid (nextOf p) := by apply hv' <;> unfold nextOf <;> omega
    let s1 := ((s.set (slabOf p) slabPageBusy).set (nextOf p) 0).set (prevOf page) (0 ||| slabPage)
    have hs1 : SameHeader s s1 := (SameHeader.set ..).store.store
    have hprev1 : s1.word (prevOf page) = 0 := Pool.set_same
    have hkeep (a : ℕ) (ha : a ≠ slabOf p) (ha' : a ≠ nextOf p) : s1.word a = s.word a := by
      by_cases hcase : a = prevOf page
      · rw [hcase, hprev1, hprev]
      · simp only [s1]
        rw [Pool.set_other hcase, Pool.set_other ha', Pool.set_other ha]
    obtain ⟨s', hrun, hsame, hfree, hbusy, hother⟩ := ih (p + 24) s1 (by omega) hv
      (fun a h1 h2 h3 => hv' a (by omega) (by omega) h3) (by omega) hprev1
    refine ⟨s', ?_, hs1.trans hsame, hfree, ?_, ?_⟩
    · simp only [markBusy, Pool.store_ok h0, ok_bind, Pool.store_ok (Pool.set_valid.mpr h16),
        Pool.setPagePrev_ok (Pool.set_valid.mpr (Pool.set_valid.mpr hv)), pageSize]
      exact hrun
    · intro j hj
      cases j with
      | zero =>
        rw [Nat.mul_zero, Nat.add_zero, hother _ (Or.inl (by unfold slabOf; omega)),
          hother _ (Or.inl (by unfold nextOf; omega)), hother _ (Or.inl (by unfold prevOf; omega)),
          hkeep (prevOf p) (by unfold prevOf slabOf; omega) (by unfold prevOf nextOf; omega)]
        simp only [s1]
        rw [Pool.set_other (by unfold slabOf prevOf; omega),
          Pool.set_other (by unfold slabOf nextOf; omega), Pool.set_same,
          Pool.set_other (by unfold nextOf prevOf; omega), Pool.set_same]
        exact ⟨rfl, rfl, trivial⟩
      | succ j =>
        have hj' := hbusy j (by omega)
        rw [show p + 24 + 24 * j = p + 24 * (j + 1) by ring,
          hkeep (prevOf _) (by unfold prevOf slabOf; omega) (by unfold prevOf nextOf; omega)] at hj'
        exact hj'
    · intro a ha
      rw [hother a (by omega)]
      exact hkeep a (by unfold slabOf; omega) (by unfold nextOf; omega)

/-- A node of the free list lies apart from the descriptors `[a, b)`. -/
def Apart (x a b : ℕ) : Prop := x + 24 ≤ a ∨ b ≤ x

/-- The links around the head of a free run of `L` pages. -/
structure Linked (s : Pool) (page L p nx : ℕ) : Prop where
  mod : page % 8 = 0
  valid : ∀ a, page ≤ a → a < page + 24 * L → a % 8 = 0 → s.Valid a
  valid_prev : s.Valid (nextOf p)
  valid_next : s.Valid (prevOf nx)
  slab : s.word (slabOf page) = L
  prev : s.word (prevOf page) = p
  next : s.word (nextOf page) = nx
  apart_prev : Apart p page (page + 24 * L)
  apart_next : Apart nx page (page + 24 * L)
  apart : p = nx ∨ Apart p nx (nx + 24)

/-- What the marking of the first `n` pages at `page` leaves in memory. -/
structure Taken (s s' : Pool) (page n : ℕ) : Prop where
  same : SameHeader s s'
  slab : s'.word (slabOf page) = n ||| slabPageStart
  prev : s'.word (prevOf page) = 0
  next : ∀ j < n, s'.word (nextOf (page + 24 * j)) = 0
  busy : ∀ j, 1 ≤ j → j < n → s'.word (slabOf (page + 24 * j)) = slabPageBusy
  inner : ∀ j, 1 ≤ j → j < n → s'.word (prevOf (page + 24 * j)) = s.word (prevOf (page + 24 * j))
  pfree : s'.pfree = s.pfree - n

/-- The words outside the free list are not written, and the taken pages are
marked as allocated. -/
structure Allocated (s s' : Pool) (frees : List Run) (i n : ℕ) : Prop where
  taken : Taken s s' (s.page i) n
  tags : ∀ j < n, s'.word (prevOf (s.page (i + j))) % 4 = 0
  frame : ∀ x, ¬ FreeWord s frees x → s'.word x = s.word x

/-- The second half of `takePages`: the run becomes an allocated one. -/
def markPages (s : Pool) (page n : ℕ) : Exec (ℕ × Pool) := do
  let s ← s.store (slabOf page) (n ||| slabPageStart)
  let s ← s.store (nextOf page) 0
  let s ← s.setPagePrev page 0 slabPage
  let s := { s with pfree := toUInt32 ((s.pfree : ℤ) - n) }
  let s ← markBusy (toUInt32 ((n : ℤ) - 1)) page (page + pageSize) s
  pure (page, s)

theorem mark_spec (s : Pool) (page n : ℕ) (hn : 0 < n) (hfree : n ≤ s.pfree)
    (hlt : s.pfree < 2 ^ 32) (hmod : page % 8 = 0)
    (hv : ∀ a, page ≤ a → a < page + 24 * n → a % 8 = 0 → s.Valid a) :
    ∃ s', markPages s page n = Except.ok (page, s') ∧ Taken s s' page n ∧
      ∀ a, a < page ∨ page + 24 * n ≤ a → s'.word a = s.word a := by
  have hv0 : s.Valid (slabOf page) := by apply hv <;> unfold slabOf <;> omega
  have hv8 : s.Valid (prevOf page) := by apply hv <;> unfold prevOf <;> omega
  have hv16 : s.Valid (nextOf page) := by apply hv <;> unfold nextOf <;> omega
  let s1 := ((s.set (slabOf page) (n ||| slabPageStart)).set (nextOf page) 0).set (prevOf page)
    (0 ||| slabPage)
  let s2 : Pool := { s1 with pfree := toUInt32 ((s.pfree : ℤ) - n) }
  have hs2 : SameHeader s s2 := ⟨rfl, rfl, rfl⟩
  have hcount : toUInt32 ((n : ℤ) - 1) = n - 1 := toUInt32_sub hn (by omega)
  obtain ⟨s', hrun, hsame, hpfree, hbusy, hother⟩ := markBusy_spec (n - 1) page (page + 24) s2
    (le_refl _) hv8 (fun a h1 h2 h3 => hv a (by omega) (by omega) h3) (by omega)
    (show s1.word (prevOf page) = 0 from Pool.set_same)
  refine ⟨s', ?_, ?_, ?_⟩
  · unfold markPages
    rw [hcount]
    simp only [Pool.store_ok hv0, ok_bind, Pool.store_ok (Pool.set_valid.mpr hv16),
      Pool.setPagePrev_ok (Pool.set_valid.mpr (Pool.set_valid.mpr hv8)), pageSize]
    change (markBusy (n - 1) page (page + 24) s2 >>= _) = _
    rw [hrun]
    rfl
  · have hs1 (a : ℕ) (ha : a < page + 24) : s'.word a = s1.word a := hother a (Or.inl ha)
    refine ⟨hs2.trans hsame, ?_, ?_, ?_, ?_, ?_, ?_⟩
    · rw [hs1 _ (by unfold slabOf; omega)]
      simp only [s1]
      rw [Pool.set_other (by unfold slabOf prevOf; omega),
        Pool.set_other (by unfold slabOf nextOf; omega), Pool.set_same]
    · rw [hs1 _ (by unfold prevOf; omega)]
      exact Pool.set_same
    · intro j hj
      rcases Nat.eq_zero_or_pos j with rfl | hpos
      · rw [Nat.mul_zero, Nat.add_zero, hs1 _ (by unfold nextOf; omega)]
        simp only [s1]
        rw [Pool.set_other (by unfold nextOf prevOf; omega), Pool.set_same]
      · have hj' := (hbusy (j - 1) (by omega)).2.1
        rwa [show page + 24 + 24 * (j - 1) = page + 24 * j by omega] at hj'
    · intro j hpos hj
      have hj' := (hbusy (j - 1) (by omega)).1
      rwa [show page + 24 + 24 * (j - 1) = page + 24 * j by omega] at hj'
    · intro j hpos hj
      have hj' := (hbusy (j - 1) (by omega)).2.2
      rw [show page + 24 + 24 * (j - 1) = page + 24 * j by omega] at hj'
      rw [hj']
      change s1.word _ = s.word _
      simp only [s1]
      rw [Pool.set_other (by unfold prevOf; omega), Pool.set_other (by unfold prevOf nextOf; omega),
        Pool.set_other (by unfold prevOf slabOf; omega)]
    · rw [hpfree]
      exact toUInt32_sub hfree hlt
  · intro a ha
    rw [hother a (by omega)]
    change s1.word a = s.word a
    simp only [s1]
    rw [Pool.set_other (by unfold prevOf; omega), Pool.set_other (by unfold nextOf; omega),
      Pool.set_other (by unfold slabOf; omega)]

/-- The free list with the rest of the run in the place of its head. -/
def cutHead (s : Pool) (page L p nx n : ℕ) : Pool :=
  (((((s.set (prevOf (page + 24 * (L - 1))) (page + 24 * n)).set
    (slabOf (page + 24 * n)) (L - n)).set (nextOf (page + 24 * n)) nx).set
    (prevOf (page + 24 * n)) p).set (nextOf p) (page + 24 * n)).set (prevOf nx) (page + 24 * n)

/-- The words behind the first `n` pages after that. -/
structure Cut (s s' : Pool) (page L p nx n : ℕ) : Prop where
  slab : s'.word (slabOf (page + 24 * n)) = L - n
  next : s'.word (nextOf (page + 24 * n)) = nx
  prev : s'.word (prevOf (page + 24 * n)) = p
  first : s'.word (nextOf p) = page + 24 * n
  back : s'.word (prevOf nx) = page + 24 * n
  tail : 2 ≤ L - n → s'.word (prevOf (page + 24 * (L - 1))) = page + 24 * n
  inner : ∀ j, n ≤ j → j < L → s'.word (prevOf (page + 24 * j)) = s.word (prevOf (page + 24 * j)) ∨
    s'.word (prevOf (page + 24 * j)) = page + 24 * n ∨ s'.word (prevOf (page + 24 * j)) = p
  keep : ∀ a, a < page + 24 * n ∨ page + 24 * L ≤ a → a ≠ nextOf p → a ≠ prevOf nx →
    s'.word a = s.word a

theorem cutHead_cut {s : Pool} {page L p nx n : ℕ} (h : Linked s page L p nx) (hnL : n < L) :
    Cut s (cutHead s page L p nx n) page L p nx n := by
  obtain ⟨-, -, -, -, -, -, -, hp, hnx, hpn⟩ := h
  unfold Apart at hp hnx hpn
  constructor
  case slab | next | prev | first =>
    simp only [cutHead, slabOf, nextOf, prevOf]
    simp (disch := omega) only [Pool.set_other, Pool.set_same]
  case back => exact Pool.set_same
  case tail =>
    intro hlen
    simp only [cutHead, slabOf, nextOf, prevOf]
    simp (disch := omega) only [Pool.set_other, Pool.set_same]
  case inner =>
    intro j hlow hhigh
    by_cases hfirst : j = n
    · right
      right
      rw [hfirst]
      simp only [cutHead, nextOf, prevOf]
      simp (disch := omega) only [Pool.set_other, Pool.set_same]
    · by_cases hlast : j = L - 1
      · right
        left
        rw [hlast]
        simp only [cutHead, slabOf, nextOf, prevOf]
        simp (disch := omega) only [Pool.set_other, Pool.set_same]
      · left
        simp only [cutHead, slabOf, nextOf, prevOf]
        simp (disch := omega) only [Pool.set_other]
  case keep =>
    intro a ha hne hne'
    unfold cutHead
    rw [Pool.set_other hne', Pool.set_other hne]
    simp only [slabOf, nextOf, prevOf]
    simp (disch := omega) only [Pool.set_other]

/-- The first half of `takePages`, for a shorter request. -/
theorem takePages_cutHead {s : Pool} {page L p nx n : ℕ} (h : Linked s page L p nx) (hn : 0 < n)
    (hnL : n < L) : takePages s page n = markPages (cutHead s page L p nx n) page n := by
  obtain ⟨hmod, hv, hvp, hvn, hslab, hprev, hnext, hp, hnx, hpn⟩ := h
  unfold Apart at hp hnx hpn
  have h1 : s.Valid (slabOf page) := by apply hv <;> unfold slabOf <;> omega
  have h2 : s.Valid (prevOf page) := by apply hv <;> unfold prevOf <;> omega
  have h3 : s.Valid (nextOf page) := by apply hv <;> unfold nextOf <;> omega
  have h4 : s.Valid (slabOf (page + 24 * n)) := by apply hv <;> unfold slabOf <;> omega
  have h5 : s.Valid (prevOf (page + 24 * n)) := by apply hv <;> unfold prevOf <;> omega
  have h6 : s.Valid (nextOf (page + 24 * n)) := by apply hv <;> unfold nextOf <;> omega
  have h7 : s.Valid (prevOf (page + 24 * (L - 1))) := by apply hv <;> unfold prevOf <;> omega
  simp only [takePages, Pool.load_ok, Pool.store_ok, Pool.set_valid, ok_bind, hslab, if_pos hnL,
    pageSize, h1, h2, h3, h4, h5, h6, h7]
  simp (disch := (simp only [slabOf, nextOf, prevOf]; omega)) only [Pool.set_other, hslab, hnext,
    hprev]
  simp only [Pool.load_ok, Pool.store_ok, Pool.set_valid, ok_bind, hvp, h3]
  simp (disch := (simp only [slabOf, nextOf, prevOf]; omega)) only [Pool.set_other, hnext]
  simp only [Pool.store_ok, Pool.set_valid, ok_bind, hvn]
  rfl

/-- A shorter request leaves the rest of the run in the place of its head. -/
theorem takePages_cut {s : Pool} {page L p nx n : ℕ} (h : Linked s page L p nx) (hn : 0 < n)
    (hnL : n < L) (hfree : n ≤ s.pfree) (hlt : s.pfree < 2 ^ 32) :
    ∃ s', takePages s page n = Except.ok (page, s') ∧ Taken s s' page n ∧
      s'.word (slabOf (page + 24 * n)) = L - n ∧
      s'.word (nextOf (page + 24 * n)) = nx ∧
      s'.word (prevOf (page + 24 * n)) = p ∧
      s'.word (nextOf p) = page + 24 * n ∧
      s'.word (prevOf nx) = page + 24 * n ∧
      (2 ≤ L - n → s'.word (prevOf (page + 24 * (L - 1))) = page + 24 * n) ∧
      (∀ j, n ≤ j → j < L → s'.word (prevOf (page + 24 * j)) = s.word (prevOf (page + 24 * j)) ∨
        s'.word (prevOf (page + 24 * j)) = page + 24 * n ∨ s'.word (prevOf (page + 24 * j)) = p) ∧
      ∀ a, a < page ∨ page + 24 * L ≤ a → a ≠ nextOf p → a ≠ prevOf nx → s'.word a = s.word a := by
  have hcut := cutHead_cut h hnL
  have hsame : SameHeader s (cutHead s page L p nx n) :=
    (SameHeader.set ..).store.store.store.store.store
  have hpfree : (cutHead s page L p nx n).pfree = s.pfree := by
    simp only [cutHead, Pool.set_pfree]
  have hvalid (a : ℕ) : (cutHead s page L p nx n).Valid a ↔ s.Valid a := by
    simp only [cutHead, Pool.set_valid]
  obtain ⟨s', hrun, htaken, hother⟩ := mark_spec (cutHead s page L p nx n) page n hn
    (by rwa [hpfree]) (by rwa [hpfree]) h.mod
    (fun a h1 h2 h3 => (hvalid a).mpr (h.valid a h1 (by omega) h3))
  have hrun' := (takePages_cutHead h hn hnL).trans hrun
  obtain ⟨-, -, -, -, -, -, -, hp, hnx, -⟩ := h
  unfold Apart at hp hnx
  refine ⟨s', hrun',
    ⟨hsame.trans htaken.same, htaken.slab, htaken.prev, htaken.next, htaken.busy, ?_, ?_⟩,
    ?_, ?_, ?_, ?_, ?_, ?_, ?_, ?_⟩
  · intro j hpos hj
    rw [htaken.inner j hpos hj]
    exact hcut.keep _ (by unfold prevOf; omega) (by unfold prevOf nextOf; omega)
      (by unfold prevOf; omega)
  · rw [htaken.pfree, hpfree]
  · rw [hother _ (by unfold slabOf; omega), hcut.slab]
  · rw [hother _ (by unfold nextOf; omega), hcut.next]
  · rw [hother _ (by unfold prevOf; omega), hcut.prev]
  · rw [hother _ (by unfold nextOf; omega), hcut.first]
  · rw [hother _ (by unfold prevOf; omega), hcut.back]
  · intro hlen
    rw [hother _ (by unfold prevOf; omega), hcut.tail hlen]
  · intro j hlow hhigh
    rw [hother _ (by unfold prevOf; omega)]
    exact hcut.inner j hlow hhigh
  · intro a ha hne hne'
    rw [hother _ (by omega)]
    exact hcut.keep a (by omega) hne hne'

/-- A request for the whole run unlinks its head. -/
theorem takePages_whole {s : Pool} {page L p nx : ℕ} (h : Linked s page L p nx) (hL : 0 < L)
    (hfree : L ≤ s.pfree) (hlt : s.pfree < 2 ^ 32) :
    ∃ s', takePages s page L = Except.ok (page, s') ∧ Taken s s' page L ∧
      s'.word (nextOf p) = nx ∧ s'.word (prevOf nx) = p ∧
      ∀ a, a < page ∨ page + 24 * L ≤ a → a ≠ nextOf p → a ≠ prevOf nx → s'.word a = s.word a := by
  obtain ⟨hmod, hv, hvp, hvn, hslab, hprev, hnext, hp, hnx, hpn⟩ := h
  unfold Apart at hp hnx hpn
  have h1 : s.Valid (slabOf page) := by apply hv <;> unfold slabOf <;> omega
  have h2 : s.Valid (prevOf page) := by apply hv <;> unfold prevOf <;> omega
  have h3 : s.Valid (nextOf page) := by apply hv <;> unfold nextOf <;> omega
  let s1 := (s.set (nextOf p) nx).set (prevOf nx) p
  obtain ⟨s', hrun, htaken, hother⟩ := mark_spec s1 page L hL hfree hlt hmod hv
  refine ⟨s', ?_, ⟨htaken.same, htaken.slab, htaken.prev, htaken.next, htaken.busy, ?_,
    htaken.pfree⟩, ?_, ?_, ?_⟩
  · rw [← hrun]
    simp only [takePages, Pool.load_ok, Pool.store_ok, Pool.set_valid, ok_bind, hslab,
      if_neg (Nat.lt_irrefl L), hprev, hnext, hvp, h1, h2, h3]
    simp (disch := (simp only [slabOf, nextOf, prevOf]; omega)) only [Pool.set_other, hnext, hprev]
    simp only [Pool.store_ok, Pool.set_valid, ok_bind, hvn]
    rfl
  · intro j hpos hj
    rw [htaken.inner j hpos hj]
    simp only [s1, nextOf, prevOf]
    simp (disch := omega) only [Pool.set_other]
  · rw [hother _ (by unfold nextOf; omega)]
    simp only [s1, nextOf, prevOf]
    simp (disch := omega) only [Pool.set_other, Pool.set_same]
  · rw [hother _ (by unfold prevOf; omega)]
    exact Pool.set_same
  · intro a ha hne hne'
    rw [hother _ (by omega)]
    simp only [s1]
    rw [Pool.set_other hne', Pool.set_other hne]

theorem page_eq (s : Pool) (i : ℕ) : s.page i = s.pages + 24 * i := rfl

theorem page_add (s : Pool) (i n : ℕ) : s.page (i + n) = s.page i + 24 * n := by
  rw [page_eq, page_eq]
  ring

namespace FreeRuns

variable {s s' : Pool} {frees a b : List Run} {r : Run}

/-- Two different runs of the free list do not overlap. -/
theorem runs_apart (h : FreeRuns s frees) {r r' : Run} (hr : r ∈ frees) (hr' : r' ∈ frees)
    (hne : r ≠ r') : r.start + r.len ≤ r'.start ∨ r'.start + r'.len ≤ r.start :=
  h.separate.forall hr hr' hne

theorem nodup_runs (h : FreeRuns s frees) : frees.Nodup := by
  refine h.separate.imp_of_mem (fun {r r'} hr _ hsep heq => ?_)
  have hpos := h.len_pos r hr
  subst heq
  unfold Run.Separate Run.stop at hsep
  omega

/-- The header and the heads are pairwise different. -/
theorem nodup (h : FreeRuns s frees) : (s.free :: heads s frees).Nodup := by
  have hlow := h.free_lt_pages
  refine List.nodup_cons.mpr ⟨?_, ?_⟩
  · intro hmem
    obtain ⟨r, -, hr⟩ := List.mem_map.mp hmem
    rw [page_eq] at hr
    omega
  · refine List.Nodup.map_on ?_ h.nodup_runs
    intro r hr r' hr' heq
    have hpos := h.len_pos _ hr
    have hpos' := h.len_pos _ hr'
    by_contra hne
    have := h.runs_apart hr hr' hne
    rw [page_eq, page_eq] at heq
    omega

/-- A node of the ring is the header or the head of a run. -/
theorem node_cases {x : ℕ} (hx : x ∈ s.free :: heads s frees) :
    x = s.free ∨ ∃ r ∈ frees, x = s.page r.start := by
  rcases List.mem_cons.mp hx with hx | hx
  · exact Or.inl hx
  · obtain ⟨r, hr, hrx⟩ := List.mem_map.mp hx
    exact Or.inr ⟨r, hr, hrx.symm⟩

theorem valid_node (h : FreeRuns s frees) {x : ℕ} (hx : x ∈ s.free :: heads s frees) :
    s.Valid (slabOf x) ∧ s.Valid (prevOf x) ∧ s.Valid (nextOf x) := by
  rcases node_cases hx with rfl | ⟨r, hr, rfl⟩
  · exact h.valid_free
  · have hpos := h.len_pos _ hr
    have hmod := h.aligned
    refine ⟨h.mapped r hr _ ?_ ?_ ?_, h.mapped r hr _ ?_ ?_ ?_, h.mapped r hr _ ?_ ?_ ?_⟩
    all_goals simp only [slabOf, prevOf, nextOf, page_eq]; omega

/-- Other nodes lie apart from the descriptors of a run. -/
theorem node_apart (h : FreeRuns s frees) {r : Run} (hr : r ∈ frees) {x : ℕ}
    (hx : x ∈ s.free :: heads s frees) (hne : x ≠ s.page r.start) :
    Apart x (s.page r.start) (s.page r.start + 24 * r.len) := by
  have hlow := h.free_lt_pages
  unfold Apart
  rcases node_cases hx with rfl | ⟨r', hr', rfl⟩
  · rw [page_eq]
    omega
  · have hne' : r' ≠ r := fun heq => hne (by rw [heq])
    have hpos' := h.len_pos _ hr'
    have := h.runs_apart hr' hr hne'
    rw [page_eq, page_eq]
    omega

/-- Two nodes are equal or apart. -/
theorem nodes_apart (h : FreeRuns s frees) {x y : ℕ}
    (hx : x ∈ s.free :: heads s frees) (hy : y ∈ s.free :: heads s frees) :
    x = y ∨ Apart x y (y + 24) := by
  by_cases heq : x = y
  · exact Or.inl heq
  · right
    rcases node_cases hy with rfl | ⟨r, hr, rfl⟩
    · rcases node_cases hx with rfl | ⟨r', hr', rfl⟩
      · exact absurd rfl heq
      · have hlow := h.free_lt_pages
        unfold Apart
        rw [page_eq]
        omega
    · have hpos := h.len_pos _ hr
      have := h.node_apart hr hx heq
      unfold Apart at *
      omega

/-- A node is no interior page of a run. -/
theorem node_interior (h : FreeRuns s frees) {r : Run} (hr : r ∈ frees) {x : ℕ}
    (hx : x ∈ s.free :: heads s frees) :
    Apart x (s.page r.start + 24) (s.page r.start + 24 * r.len) := by
  by_cases heq : x = s.page r.start
  · exact Or.inl (by rw [heq])
  · have hpos := h.len_pos _ hr
    have := h.node_apart hr hx heq
    unfold Apart at *
    omega

theorem node_page_apart (h : FreeRuns s frees) (i : ℕ) {x : ℕ}
    (hx : x ∈ s.free :: heads s frees) : x = s.page i ∨ Apart x (s.page i) (s.page i + 24) := by
  have hlow := h.free_lt_pages
  unfold Apart
  rcases node_cases hx with rfl | ⟨r, hr, rfl⟩
  · rw [page_eq]
    omega
  · rw [page_eq, page_eq]
    omega

/-- The nodes of the ring are aligned addresses. -/
theorem node_mod (h : FreeRuns s frees) {x : ℕ} (hx : x ∈ s.free :: heads s frees) :
    x % 4 = 0 := by
  have hmod := h.aligned
  rcases node_cases hx with rfl | ⟨r, hr, rfl⟩
  · have hfree := h.valid_free.1.2.2
    unfold slabOf at hfree
    omega
  · rw [page_eq]
    omega

theorem node_freeWord (h : FreeRuns s frees) {x a : ℕ}
    (hx : x ∈ s.free :: heads s frees) (hlow : x ≤ a) (hhigh : a < x + 24) :
    FreeWord s frees a := by
  rcases node_cases hx with rfl | ⟨r, hr, rfl⟩
  · exact Or.inl ⟨hlow, hhigh⟩
  · have hpos := h.len_pos _ hr
    exact Or.inr ⟨r, hr, hlow, by omega⟩

theorem heads_split (s : Pool) (a b : List Run) (r : Run) :
    heads s (a ++ r :: b) = heads s a ++ s.page r.start :: heads s b := by
  simp [heads]

theorem heads_append (s : Pool) (a b : List Run) : heads s (a ++ b) = heads s a ++ heads s b :=
  List.map_append ..

theorem prevWord_mem (h : FreeRuns s (a ++ r :: b)) :
    prevWord s (s.page r.start) ∈ s.free :: heads s a := by
  have hchain := h.chain
  rw [heads_split] at hchain
  rw [hchain.prev_mem]
  exact List.getLast_mem _

theorem nextWord_mem (h : FreeRuns s (a ++ r :: b)) :
    nextWord s (s.page r.start) ∈ s.free :: heads s b := by
  have hchain := h.chain
  rw [heads_split] at hchain
  rw [hchain.next_mem]
  cases heads s b with
  | nil => exact List.mem_cons_self ..
  | cons y l => simp

/-- The other nodes of a ring around one head. -/
theorem others_mem (h : FreeRuns s (a ++ r :: b)) {x : ℕ}
    (hx : x ∈ s.free :: (heads s a ++ heads s b)) :
    x ∈ s.free :: heads s (a ++ r :: b) ∧ x ≠ s.page r.start := by
  have hnd := h.nodup
  rw [heads_split] at hnd ⊢
  have hperm : (s.page r.start :: s.free :: (heads s a ++ heads s b)).Perm
      (s.free :: (heads s a ++ s.page r.start :: heads s b)) := by
    refine List.Perm.trans (List.Perm.swap ..) (List.Perm.cons _ ?_)
    exact List.perm_middle.symm
  refine ⟨hperm.subset (List.mem_cons_of_mem _ hx), ?_⟩
  rintro rfl
  exact (List.nodup_cons.mp (hperm.nodup_iff.mpr hnd)).1 hx

theorem prevWord_node (h : FreeRuns s (a ++ r :: b)) :
    prevWord s (s.page r.start) ∈ s.free :: heads s (a ++ r :: b) ∧
      prevWord s (s.page r.start) ≠ s.page r.start := by
  apply h.others_mem
  rcases List.mem_cons.mp h.prevWord_mem with hx | hx
  · exact List.mem_cons.mpr (Or.inl hx)
  · exact List.mem_cons_of_mem _ (List.mem_append_left _ hx)

theorem nextWord_node (h : FreeRuns s (a ++ r :: b)) :
    nextWord s (s.page r.start) ∈ s.free :: heads s (a ++ r :: b) ∧
      nextWord s (s.page r.start) ≠ s.page r.start := by
  apply h.others_mem
  rcases List.mem_cons.mp h.nextWord_mem with hx | hx
  · exact List.mem_cons.mpr (Or.inl hx)
  · exact List.mem_cons_of_mem _ (List.mem_append_right _ hx)

/-- The links around the head of a listed run. -/
theorem linked (h : FreeRuns s (a ++ r :: b)) :
    Linked s (s.page r.start) r.len (prevWord s (s.page r.start))
      (nextWord s (s.page r.start)) := by
  have hr : r ∈ a ++ r :: b := by simp
  obtain ⟨hp, hp'⟩ := h.prevWord_node
  obtain ⟨hnx, hnx'⟩ := h.nextWord_node
  have hmod := h.aligned
  exact {
    mod := by
      rw [page_eq]
      omega
    valid := h.mapped r hr
    valid_prev := (h.valid_node hp).2.2
    valid_next := (h.valid_node hnx).2.1
    slab := h.slab r hr
    prev := rfl
    next := rfl
    apart_prev := h.node_apart hr hp hp'
    apart_next := h.node_apart hr hnx hnx'
    apart := h.nodes_apart hp hnx }

/-- The runs around one run of the list do not overlap it. -/
theorem other_run (h : FreeRuns s (a ++ r :: b)) {r' : Run} (hr' : r' ∈ a ++ b) :
    r' ∈ a ++ r :: b ∧ r.Separate r' := by
  refine ⟨?_, (List.pairwise_cons.mp ((List.pairwise_middle Run.Separate.symm).mp h.separate)).1
    r' hr'⟩
  rcases List.mem_append.mp hr' with hr' | hr' <;> simp [hr']

/-- The words that change when the run `r` is cut or unlinked. -/
def KeepsOthers (s s' : Pool) (r : Run) : Prop :=
  ∀ x, x < s.page r.start ∨ s.page r.start + 24 * r.len ≤ x →
    x ≠ nextOf (prevWord s (s.page r.start)) → x ≠ prevOf (nextWord s (s.page r.start)) →
    s'.word x = s.word x

section

variable {s' : Pool} (h : FreeRuns s (a ++ r :: b)) (hkeep : KeepsOthers s s' r)
include h hkeep

theorem keeps_frame {x : ℕ} (hx : ¬ FreeWord s (a ++ r :: b) x) : s'.word x = s.word x := by
  have hr : r ∈ a ++ r :: b := by simp
  apply hkeep
  · by_contra hin
    exact hx (Or.inr ⟨r, hr, by omega⟩)
  · rintro rfl
    exact hx (h.node_freeWord h.prevWord_node.1 (by unfold nextOf; omega) (by unfold nextOf; omega))
  · rintro rfl
    exact hx (h.node_freeWord h.nextWord_node.1 (by unfold prevOf; omega) (by unfold prevOf; omega))

theorem keeps_next {z : ℕ} (hz : z ∈ s.free :: (heads s a ++ heads s b))
    (hne : z ≠ prevWord s (s.page r.start)) : nextWord s' z = nextWord s z := by
  obtain ⟨hz, hz'⟩ := h.others_mem hz
  have hout := h.node_apart (show r ∈ a ++ r :: b by simp) hz hz'
  have hprev := h.nodes_apart hz h.prevWord_node.1
  have hnext := h.nodes_apart hz h.nextWord_node.1
  unfold Apart at *
  apply hkeep <;> unfold nextOf <;> (try unfold prevOf) <;> omega

theorem keeps_prev {z : ℕ} (hz : z ∈ heads s a ++ heads s b)
    (hne : z ≠ nextWord s (s.page r.start)) : prevWord s' z = prevWord s z := by
  obtain ⟨hz, hz'⟩ := h.others_mem (List.mem_cons_of_mem _ hz)
  have hout := h.node_apart (show r ∈ a ++ r :: b by simp) hz hz'
  have hprev := h.nodes_apart hz h.prevWord_node.1
  have hnext := h.nodes_apart hz h.nextWord_node.1
  unfold Apart at *
  apply hkeep <;> unfold prevOf <;> (try unfold nextOf) <;> omega

theorem keeps_slab {r' : Run} (hr' : r' ∈ a ++ b) :
    s'.word (slabOf (s.page r'.start)) = r'.len := by
  have hmem : r' ∈ a ++ r :: b := by
    rcases List.mem_append.mp hr' with hr' | hr' <;> simp [hr']
  have hz : s.page r'.start ∈ s.free :: (heads s a ++ heads s b) := by
    rw [← heads_append]
    exact List.mem_cons_of_mem _ (List.mem_map_of_mem hr')
  obtain ⟨hz, hz'⟩ := h.others_mem hz
  have hout := h.node_apart (show r ∈ a ++ r :: b by simp) hz hz'
  have hprev := h.nodes_apart hz h.prevWord_node.1
  have hnext := h.nodes_apart hz h.nextWord_node.1
  rw [← h.slab r' hmem]
  unfold Apart at *
  apply hkeep <;> unfold slabOf <;> (try unfold prevOf) <;> (try unfold nextOf) <;> omega

/-- The back links of the other free pages are kept, but for the head that
follows the edited one. -/
theorem keeps_back {r' : Run} {i : ℕ} (hr' : r' ∈ a ++ b) (hi : r'.Covers i)
    (hne : s.page i ≠ nextWord s (s.page r.start)) :
    s'.word (prevOf (s.page i)) = s.word (prevOf (s.page i)) := by
  obtain ⟨hmem, hsep⟩ := h.other_run hr'
  have hprev := h.node_page_apart i h.prevWord_node.1
  simp only [Apart, page_eq, Run.Covers, Run.Separate, Run.stop] at *
  apply hkeep <;> unfold prevOf <;> (try unfold nextOf) <;> (try simp only [page_eq]) <;> omega

end

/-- Taking a part of a free run: the rest takes its place in the list. -/
theorem cut_spec {n : ℕ} (h : FreeRuns s (a ++ r :: b)) (hn : 0 < n) (hnr : n < r.len) :
    ∃ s', takePages s (s.page r.start) n = Except.ok (s.page r.start, s') ∧
      Taken s s' (s.page r.start) n ∧ FreeRuns s' (a ++ ⟨r.start + n, r.len - n⟩ :: b) ∧
      KeepsOthers s s' r ∧ s'.word (prevOf (nextWord s (s.page r.start))) = s.page (r.start + n) ∧
      (2 ≤ r.len - n → s'.word (prevOf (s.page (r.stop - 1))) = s.page (r.start + n)) ∧
      ∀ i, r.start + n ≤ i → i < r.stop →
        s'.word (prevOf (s.page i)) = s.word (prevOf (s.page i)) ∨
          s'.word (prevOf (s.page i)) = s.page (r.start + n) ∨
          s'.word (prevOf (s.page i)) = prevWord s (s.page r.start) := by
  have hr : r ∈ a ++ r :: b := by simp
  have hpfree : r.len ≤ s.pfree := h.pfree ▸ len_le_total hr
  obtain ⟨s', hrun, htaken, hslab, hnext, hprev, hpred, hsucc, htail, hrest, hkeep⟩ :=
    takePages_cut h.linked hn hnr (by omega) h.pfree_lt
  have hkeep : KeepsOthers s s' r := hkeep
  have hsame := htaken.same
  rw [← page_add] at hslab hnext hprev hpred hsucc htail
  have hnew (r' : Run) (hr' : r' ∈ a ++ ⟨r.start + n, r.len - n⟩ :: b) :
      r' = ⟨r.start + n, r.len - n⟩ ∨ r' ∈ a ++ b := by
    rcases List.mem_append.mp hr' with hr' | hr'
    · exact Or.inr (List.mem_append_left _ hr')
    · rcases List.mem_cons.mp hr' with rfl | hr'
      · exact Or.inl rfl
      · exact Or.inr (List.mem_append_right _ hr')
  refine ⟨s', hrun, htaken, ?_, hkeep, hsucc, ?_, ?_⟩
  · refine {
      valid_free := by
        rw [hsame.free, hsame.valid, hsame.valid, hsame.valid]
        exact h.valid_free
      free_lt_pages := by
        rw [hsame.free, hsame.pages]
        exact h.free_lt_pages
      aligned := hsame.pages ▸ h.aligned
      mapped := ?_
      len_pos := ?_
      separate := ?_
      chain := ?_
      slab := ?_
      pfree := ?_
      pfree_lt := by
        have hlt := h.pfree_lt
        rw [htaken.pfree]
        omega }
    · intro r' hr' x hlow hhigh hmod
      rw [hsame.page] at hlow hhigh
      rw [hsame.valid]
      rcases hnew r' hr' with rfl | hr'
      · rw [page_eq] at hlow hhigh
        dsimp only at hlow hhigh
        exact h.mapped r hr x (by rw [page_eq]; omega) (by rw [page_eq]; omega) hmod
      · exact h.mapped r' (h.other_run hr').1 x hlow hhigh hmod
    · intro r' hr'
      rcases hnew r' hr' with rfl | hr'
      · exact Nat.sub_pos_of_lt hnr
      · exact h.len_pos r' (h.other_run hr').1
    · refine (List.pairwise_middle Run.Separate.symm).mpr (List.pairwise_cons.mpr ⟨?_, ?_⟩)
      · intro r' hr'
        have hsep := (h.other_run hr').2
        unfold Run.Separate Run.stop at *
        dsimp only
        omega
      · exact (List.pairwise_cons.mp
          ((List.pairwise_middle Run.Separate.symm).mp h.separate)).2
    · have hchain := h.chain
      have hnd := h.nodup
      rw [heads_split] at hchain hnd
      rw [hsame.free, heads_split, heads, heads, hsame.page]
      exact hchain.replace hnd hpred hprev hnext (fun _ => hsucc)
        (fun z hz hne => h.keeps_next hkeep hz hne) (fun z hz hne => h.keeps_prev hkeep hz hne)
    · intro r' hr'
      rw [hsame.page]
      rcases hnew r' hr' with rfl | hr'
      · exact hslab
      · exact h.keeps_slab hkeep hr'
    · rw [htaken.pfree, h.pfree]
      simp only [total_append, total_cons]
      omega
  · intro hlen
    have hlast := htail hlen
    rwa [← page_add, show r.start + (r.len - 1) = r.stop - 1 by unfold Run.stop; omega] at hlast
  · intro i hlow hhigh
    have hword := hrest (i - r.start) (by omega) (by unfold Run.stop at hhigh; omega)
    rwa [← page_add, show r.start + (i - r.start) = i by omega, ← page_add] at hword

/-- Taking a whole free run. -/
theorem whole_spec (h : FreeRuns s (a ++ r :: b)) :
    ∃ s', takePages s (s.page r.start) r.len = Except.ok (s.page r.start, s') ∧
      Taken s s' (s.page r.start) r.len ∧ FreeRuns s' (a ++ b) ∧ KeepsOthers s s' r ∧
      s'.word (prevOf (nextWord s (s.page r.start))) = prevWord s (s.page r.start) := by
  have hr : r ∈ a ++ r :: b := by simp
  have hpfree : r.len ≤ s.pfree := h.pfree ▸ len_le_total hr
  obtain ⟨s', hrun, htaken, hpred, hsucc, hkeep⟩ :=
    takePages_whole h.linked (h.len_pos _ hr) hpfree h.pfree_lt
  have hkeep : KeepsOthers s s' r := hkeep
  have hsame := htaken.same
  refine ⟨s', hrun, htaken, ?_, hkeep, hsucc⟩
  exact {
    valid_free := by
      rw [hsame.free, hsame.valid, hsame.valid, hsame.valid]
      exact h.valid_free
    free_lt_pages := by
      rw [hsame.free, hsame.pages]
      exact h.free_lt_pages
    aligned := hsame.pages ▸ h.aligned
    mapped := by
      intro r' hr' x hlow hhigh hmod
      rw [hsame.page] at hlow hhigh
      rw [hsame.valid]
      exact h.mapped r' (h.other_run hr').1 x hlow hhigh hmod
    len_pos := fun r' hr' => h.len_pos r' (h.other_run hr').1
    separate := (List.pairwise_cons.mp
      ((List.pairwise_middle Run.Separate.symm).mp h.separate)).2
    chain := by
      have hchain := h.chain
      have hnd := h.nodup
      rw [heads_split] at hchain hnd
      rw [hsame.free, heads_append, heads, heads, hsame.page]
      exact hchain.remove hnd hpred (fun _ => hsucc)
        (fun z hz hne => h.keeps_next hkeep hz hne) (fun z hz hne => h.keeps_prev hkeep hz hne)
    slab := by
      intro r' hr'
      rw [hsame.page]
      exact h.keeps_slab hkeep hr'
    pfree := by
      rw [htaken.pfree, h.pfree]
      simp only [total_append, total_cons]
      omega
    pfree_lt := by
      have hlt := h.pfree_lt
      rw [htaken.pfree]
      omega }

/-- The walk along the free list: it stops at the first run that is long
enough, or at the header. -/
theorem allocPagesFrom_cases (n : ℕ) (rest : List Run) (fuel page : ℕ)
    (hpage : page = (heads s rest).headD s.free)
    (hne : ∀ r ∈ rest, s.page r.start ≠ s.free)
    (hv : ∀ r ∈ rest, s.Valid (slabOf (s.page r.start)) ∧ s.Valid (nextOf (s.page r.start)))
    (hslab : ∀ r ∈ rest, s.word (slabOf (s.page r.start)) = r.len)
    (hnext : ∀ a r b, rest = a ++ r :: b →
      s.word (nextOf (s.page r.start)) = (heads s b).headD s.free) :
    (allocPagesFrom fuel s page n = outOfFuel ∧ fuel ≤ rest.length) ∨
      ((∀ r ∈ rest, r.len < n) ∧ allocPagesFrom fuel s page n = Except.ok (0, s)) ∨
      ∃ a r b, rest = a ++ r :: b ∧ (∀ r' ∈ a, r'.len < n) ∧ n ≤ r.len ∧
        allocPagesFrom fuel s page n = takePages s (s.page r.start) n := by
  induction rest generalizing fuel page with
  | nil =>
    cases fuel with
    | zero => exact Or.inl ⟨rfl, le_refl _⟩
    | succ fuel => exact Or.inr (Or.inl ⟨by simp, if_pos hpage⟩)
  | cons r rest ih =>
    cases fuel with
    | zero => exact Or.inl ⟨rfl, Nat.zero_le _⟩
    | succ fuel =>
      have hpage : page = s.page r.start := hpage
      subst hpage
      obtain ⟨hv0, hv16⟩ := hv r (List.mem_cons_self ..)
      have hstep : allocPagesFrom (fuel + 1) s (s.page r.start) n =
          if n ≤ r.len then takePages s (s.page r.start) n
          else allocPagesFrom fuel s ((heads s rest).headD s.free) n := by
        rw [allocPagesFrom, if_neg (hne r (List.mem_cons_self ..)), Pool.load_ok hv0, ok_bind,
          hslab r (List.mem_cons_self ..), Pool.load_ok hv16, ok_bind, hnext [] r rest rfl]
      rw [hstep]
      by_cases hfits : n ≤ r.len
      · rw [if_pos hfits]
        exact Or.inr (Or.inr ⟨[], r, rest, rfl, by simp, hfits, rfl⟩)
      · rw [if_neg hfits]
        have htail := ih fuel ((heads s rest).headD s.free) rfl
          (fun r' hr' => hne r' (List.mem_cons_of_mem _ hr'))
          (fun r' hr' => hv r' (List.mem_cons_of_mem _ hr'))
          (fun r' hr' => hslab r' (List.mem_cons_of_mem _ hr'))
          (fun a r' b heq => hnext (r :: a) r' b (by rw [heq, List.cons_append]))
        rcases htail with ⟨hrun, hle⟩ | ⟨hall, hrun⟩ | ⟨a, r', b, rfl, hshort, hlen, hrun⟩
        · exact Or.inl ⟨hrun, Nat.succ_le_succ hle⟩
        · exact Or.inr (Or.inl ⟨List.forall_mem_cons.mpr ⟨by omega, hall⟩, hrun⟩)
        · exact Or.inr (Or.inr ⟨r :: a, r', b, rfl,
            List.forall_mem_cons.mpr ⟨by omega, hshort⟩, hlen, hrun⟩)

theorem slabAllocPages_cases (h : FreeRuns s frees) (fuel n : ℕ) :
    (slabAllocPages fuel s n = outOfFuel ∧ fuel ≤ frees.length) ∨
      ((∀ r ∈ frees, r.len < n) ∧ slabAllocPages fuel s n = Except.ok (0, s)) ∨
      ∃ a r b, frees = a ++ r :: b ∧ (∀ r' ∈ a, r'.len < n) ∧ n ≤ r.len ∧
        slabAllocPages fuel s n = takePages s (s.page r.start) n := by
  have hmem (r : Run) (hr : r ∈ frees) : s.page r.start ∈ s.free :: heads s frees :=
    List.mem_cons_of_mem _ (List.mem_map_of_mem hr)
  have hfirst := h.chain.head
  unfold slabAllocPages
  rw [Pool.load_ok h.valid_free.2.2, ok_bind]
  apply allocPagesFrom_cases n frees fuel _ hfirst
  · intro r hr heq
    have hlow := h.free_lt_pages
    rw [page_eq] at heq
    omega
  · intro r hr
    obtain ⟨h0, -, h16⟩ := h.valid_node (hmem r hr)
    exact ⟨h0, h16⟩
  · exact h.slab
  · intro a r b heq
    have hchain := h.chain
    rw [heq, heads_split] at hchain
    exact hchain.next_mem

end FreeRuns

namespace FreeList

variable {P : PageSize} {N : ℕ} {s : Pool} {frees live a b : List Run} {r : Run}

/-- A run of the free list lies inside the descriptors. -/
theorem stop_le (h : FreeList P N s frees live) {r : Run} (hr : r ∈ frees) :
    r.start + r.len ≤ N := h.tiles.stop_le (List.mem_append_left _ hr)

theorem len_pos (h : FreeList P N s frees live) {r : Run} (hr : r ∈ frees) : 0 < r.len :=
  h.tiles.len_pos r (List.mem_append_left _ hr)

theorem separate (h : FreeList P N s frees live) : frees.Pairwise Run.Separate := by
  refine (List.Nodup.of_append_left h.tiles.nodup).pairwise_of_forall_ne ?_
  intro r hr r' hr' hne
  have hpos := h.len_pos hr
  have hpos' := h.len_pos hr'
  unfold Run.Separate
  by_contra hover
  apply hne
  apply h.tiles.eq_of_covers (List.mem_append_left _ hr) (List.mem_append_left _ hr')
    (i := max r.start r'.start)
  · unfold Run.Covers
    unfold Run.stop at *
    omega
  · unfold Run.Covers
    unfold Run.stop at *
    omega

theorem runs (h : FreeList P N s frees live) : FreeRuns s frees := by
  have hmod := h.layout.addr_mod
  have hpages := h.layout.pages_eq
  have hlast := h.layout.last_eq
  have hstart := h.layout.last_le
  exact {
    valid_free := h.layout.valid_free
    free_lt_pages := by
      rw [Pool.free, freeOffset]
      omega
    aligned := by omega
    mapped := by
      intro r hr x hx hx' hx8
      have hle := h.stop_le hr
      rw [page_eq] at hx hx'
      exact h.layout.valid (by omega) (by omega) hx8
    len_pos := fun r hr => h.len_pos hr
    separate := h.separate
    chain := h.chain
    slab := h.slab
    pfree := h.pfree
    pfree_lt := by
      have htotal := h.tiles.total_eq
      have hlt := h.layout.count_lt
      rw [total_append] at htotal
      rw [h.pfree]
      omega }

theorem cut_tiles {n : ℕ} (h : FreeList P N s (a ++ r :: b) live) (hn : 0 < n) (hnr : n < r.len) :
    Tiles N ((a ++ ⟨r.start + n, r.len - n⟩ :: b) ++ ⟨r.start, n⟩ :: live) := by
  have hperm : ((a ++ r :: b) ++ live).Perm (r :: (a ++ b ++ live)) := by
    rw [List.append_assoc, List.cons_append, List.append_assoc]
    exact List.perm_middle
  refine ((h.tiles.perm hperm).split hn hnr).perm ?_
  refine List.Perm.trans ?_ List.perm_middle.symm
  refine List.Perm.cons _ ?_
  rw [List.append_assoc a, List.append_assoc a, List.cons_append]
  exact List.perm_middle.symm

theorem whole_tiles (h : FreeList P N s (a ++ r :: b) live) :
    Tiles N ((a ++ b) ++ r :: live) := by
  refine h.tiles.perm ?_
  refine List.Perm.trans ?_ List.perm_middle.symm
  rw [List.append_assoc, List.cons_append, List.append_assoc]
  exact List.perm_middle

/-- A free run and a run in use do not end at the same page. -/
theorem stop_ne_stop {frees : List Run} {r' : Run} (ht : Tiles N (frees ++ live)) (hr : r ∈ frees)
    (hr' : r' ∈ live) : r.stop ≠ r'.stop := by
  intro heq
  have hpos := ht.len_pos r (List.mem_append_left _ hr)
  have hpos' := ht.len_pos r' (List.mem_append_right _ hr')
  have hsame : r = r' := by
    apply ht.eq_of_covers (List.mem_append_left _ hr) (List.mem_append_right _ hr')
      (i := r.stop - 1)
    · unfold Run.Covers
      unfold Run.stop at *
      omega
    · unfold Run.Covers
      unfold Run.stop at *
      omega
  subst hsame
  exact List.disjoint_of_nodup_append ht.nodup hr hr'

/-- The taken pages have the type of plain pages. -/
theorem taken_tags {s' : Pool} {n : ℕ} (h : FreeList P N s frees live) (hr : r ∈ frees)
    (ht : Taken s s' (s.page r.start) n) (hn : n ≤ r.len) :
    ∀ j < n, s'.word (prevOf (s.page (r.start + j))) % 4 = 0 := by
  intro j hj
  rcases Nat.eq_zero_or_pos j with rfl | hpos
  · rw [Nat.add_zero, ht.prev]
  · rw [page_add, ht.inner j hpos hj, ← page_add]
    exact h.tags r hr _ (by unfold Run.Covers Run.stop; omega)

/-- The back links of the other free runs, where one run is edited. -/
theorem keeps_tail {s' : Pool} (h : FreeList P N s (a ++ r :: b) live)
    (hkeep : FreeRuns.KeepsOthers s s' r) {r' : Run} (hr' : r' ∈ a ++ b) (hlen : 2 ≤ r'.len)
    (hstop : r'.stop < N) : s'.word (prevOf (s.page (r'.stop - 1))) = s.page r'.start := by
  obtain ⟨hmem, -⟩ := h.runs.other_run hr'
  have hnext := h.runs.node_interior hmem h.runs.nextWord_node.1
  rw [h.runs.keeps_back hkeep hr' (by unfold Run.Covers; unfold Run.stop; omega),
    h.tail r' hmem hlen hstop]
  unfold Apart Run.stop at *
  simp only [page_eq] at *
  omega

theorem keeps_tags {s' : Pool} (h : FreeList P N s (a ++ r :: b) live)
    (hkeep : FreeRuns.KeepsOthers s s' r)
    (hback : s'.word (prevOf (nextWord s (s.page r.start))) % 4 = 0) {r' : Run} {i : ℕ}
    (hr' : r' ∈ a ++ b) (hi : r'.Covers i) : s'.word (prevOf (s.page i)) % 4 = 0 := by
  by_cases hnext : s.page i = nextWord s (s.page r.start)
  · rw [hnext]
    exact hback
  · rw [h.runs.keeps_back hkeep hr' hi hnext]
    exact h.tags r' (h.runs.other_run hr').1 i hi

/-- Taking a part of a free run. -/
theorem cut_spec {n : ℕ} (h : FreeList P N s (a ++ r :: b) live) (hn : 0 < n) (hnr : n < r.len) :
    ∃ s', takePages s (s.page r.start) n = Except.ok (s.page r.start, s') ∧
      FreeList P N s' (a ++ ⟨r.start + n, r.len - n⟩ :: b) (⟨r.start, n⟩ :: live) ∧
      Allocated s s' (a ++ r :: b) r.start n := by
  have hr : r ∈ a ++ r :: b := by simp
  obtain ⟨s', hrun, htaken, hruns, hkeep, hsucc, htail, hrest⟩ := h.runs.cut_spec hn hnr
  have hsame := htaken.same
  have htiles := h.cut_tiles hn hnr
  have hrestMod : s.page (r.start + n) % 4 = 0 := by
    have hmod := h.runs.aligned
    rw [page_eq]
    omega
  have hback : s'.word (prevOf (nextWord s (s.page r.start))) % 4 = 0 := by
    rw [hsucc]
    exact hrestMod
  refine ⟨s', hrun, ?_, htaken, h.taken_tags hr htaken (by omega),
    fun x hx => h.runs.keeps_frame hkeep hx⟩
  refine {
    layout := h.layout.congr hsame
    chain := hruns.chain
    slab := hruns.slab
    tail := ?_
    tiles := htiles
    apart := ?_
    pfree := hruns.pfree
    tags := ?_ }
  · intro r' hr' hlen hstop
    rw [hsame.page]
    rcases List.mem_append.mp hr' with hr' | hr'
    · exact h.keeps_tail hkeep (List.mem_append_left _ hr') hlen hstop
    · rcases List.mem_cons.mp hr' with rfl | hr'
      · have hlast := htail hlen
        rwa [show r.stop - 1 = r.start + n + (r.len - n) - 1 by unfold Run.stop; omega] at hlast
      · exact h.keeps_tail hkeep (List.mem_append_right _ hr') hlen hstop
  · intro r1 hr1 r2 hr2 heq
    by_cases hcase : r2 = ⟨r.start + n, r.len - n⟩
    · exact stop_ne_stop htiles hr1 (List.mem_cons_self ..) (by rw [heq, hcase]; rfl)
    · have hr2 : r2 ∈ a ++ r :: b := by
        rcases List.mem_append.mp hr2 with hr2 | hr2
        · simp [hr2]
        · rcases List.mem_cons.mp hr2 with rfl | hr2
          · exact absurd rfl hcase
          · simp [hr2]
      rcases List.mem_append.mp hr1 with hr1 | hr1
      · exact h.apart r1 (by simp [hr1]) r2 hr2 heq
      · rcases List.mem_cons.mp hr1 with rfl | hr1
        · apply h.apart r hr r2 hr2
          rw [← heq]
          unfold Run.stop
          dsimp only
          omega
        · exact h.apart r1 (by simp [hr1]) r2 hr2 heq
  · intro r' hr' i hi
    rw [hsame.page]
    rcases List.mem_append.mp hr' with hr' | hr'
    · exact h.keeps_tags hkeep hback (List.mem_append_left _ hr') hi
    · rcases List.mem_cons.mp hr' with rfl | hr'
      · rw [Run.covers_mk] at hi
        rcases hrest i hi.1 (by unfold Run.stop; omega) with hword | hword | hword
        · rw [hword]
          exact h.tags r hr i (by unfold Run.Covers Run.stop; omega)
        · rw [hword]
          exact hrestMod
        · rw [hword]
          exact h.runs.node_mod h.runs.prevWord_node.1
      · exact h.keeps_tags hkeep hback (List.mem_append_right _ hr') hi

/-- Taking a whole free run. -/
theorem whole_spec (h : FreeList P N s (a ++ r :: b) live) :
    ∃ s', takePages s (s.page r.start) r.len = Except.ok (s.page r.start, s') ∧
      FreeList P N s' (a ++ b) (r :: live) ∧ Allocated s s' (a ++ r :: b) r.start r.len := by
  have hr : r ∈ a ++ r :: b := by simp
  obtain ⟨s', hrun, htaken, hruns, hkeep, hsucc⟩ := h.runs.whole_spec
  have hsame := htaken.same
  have hmem (r' : Run) (hr' : r' ∈ a ++ b) : r' ∈ a ++ r :: b := (h.runs.other_run hr').1
  refine ⟨s', hrun, ?_, htaken, h.taken_tags hr htaken (le_refl _),
    fun x hx => h.runs.keeps_frame hkeep hx⟩
  refine {
    layout := h.layout.congr hsame
    chain := hruns.chain
    slab := hruns.slab
    tail := ?_
    tiles := h.whole_tiles
    apart := fun r1 hr1 r2 hr2 => h.apart r1 (hmem r1 hr1) r2 (hmem r2 hr2)
    pfree := hruns.pfree
    tags := ?_ }
  · intro r' hr' hlen hstop
    rw [hsame.page]
    exact h.keeps_tail hkeep hr' hlen hstop
  · intro r' hr' i hi
    rw [hsame.page]
    refine h.keeps_tags hkeep ?_ hr' hi
    rw [hsucc]
    exact h.runs.node_mod h.runs.prevWord_node.1

theorem page_ne_zero (h : FreeList P N s frees live) (i : ℕ) : s.page i ≠ 0 := by
  have hlow := h.layout.addr_pos
  have hpages := h.layout.pages_eq
  rw [page_eq]
  omega

/-- A call that allocates pages runs out of steps, finds no run that is long
enough, or takes the first pages of a free run. -/
theorem slabAllocPages_outcome (h : FreeList P N s frees live) {n : ℕ} (hn : 0 < n) (fuel : ℕ) :
    (slabAllocPages fuel s n = outOfFuel ∧ fuel ≤ frees.length) ∨
      ((∀ r ∈ frees, r.len < n) ∧ slabAllocPages fuel s n = Except.ok (0, s)) ∨
      ∃ i frees' s', slabAllocPages fuel s n = Except.ok (s.page i, s') ∧
        (∃ r ∈ frees, i = r.start ∧ n ≤ r.len) ∧
        FreeList P N s' frees' (⟨i, n⟩ :: live) ∧ Allocated s s' frees i n := by
  rcases h.runs.slabAllocPages_cases fuel n with hcase | hcase | ⟨a, r, b, rfl, -, hlen, hcase⟩
  · exact Or.inl hcase
  · exact Or.inr (Or.inl hcase)
  · right
    right
    rw [hcase]
    rcases Nat.lt_or_ge n r.len with hlt | hge
    · obtain ⟨s', hrun, hfree, halloc⟩ := h.cut_spec hn hlt
      exact ⟨r.start, _, s', hrun, ⟨r, by simp, rfl, hlen⟩, hfree, halloc⟩
    · obtain rfl : n = r.len := Nat.le_antisymm hlen hge
      obtain ⟨s', hrun, hfree, halloc⟩ := h.whole_spec
      exact ⟨r.start, _, s', hrun, ⟨r, by simp, rfl, hlen⟩, hfree, halloc⟩

theorem slabAllocPages_spec (h : FreeList P N s frees live) {fuel n : ℕ} (hn : 0 < n)
    {page : ℕ} {s' : Pool} (hrun : slabAllocPages fuel s n = Except.ok (page, s')) :
    (page = 0 ∧ s' = s ∧ ∀ r ∈ frees, r.len < n) ∨
      ∃ i frees', page = s.page i ∧ (∃ r ∈ frees, i = r.start ∧ n ≤ r.len) ∧
        FreeList P N s' frees' (⟨i, n⟩ :: live) ∧ Allocated s s' frees i n := by
  rcases h.slabAllocPages_outcome hn fuel with
    ⟨hcase, -⟩ | ⟨hall, hcase⟩ | ⟨i, frees', s1, hcase, hr, hfree, halloc⟩
  · rw [hcase] at hrun
    cases hrun
  · rw [hcase] at hrun
    cases hrun
    exact Or.inl ⟨rfl, rfl, hall⟩
  · rw [hcase] at hrun
    cases hrun
    exact Or.inr ⟨i, frees', rfl, hr, hfree, halloc⟩

/-- With one step for each run of the list, the call returns. -/
theorem slabAllocPages_returns (h : FreeList P N s frees live) {fuel n : ℕ} (hn : 0 < n)
    (hfuel : frees.length < fuel) : ∃ page s', slabAllocPages fuel s n = Except.ok (page, s') := by
  rcases h.slabAllocPages_outcome hn fuel with
    ⟨-, hle⟩ | ⟨-, hcase⟩ | ⟨i, frees', s', hcase, -, -, -⟩
  · omega
  · exact ⟨0, s, hcase⟩
  · exact ⟨_, s', hcase⟩

/-- No descriptor of a page in use belongs to the free list. -/
theorem live_not_freeWord (h : FreeList P N s frees live) {i x : ℕ} (hr : r ∈ live)
    (hi : r.Covers i) (hlow : s.page i ≤ x) (hhigh : x < s.page i + 24) :
    ¬ FreeWord s frees x := by
  have hfree := h.runs.free_lt_pages
  rintro (hx | ⟨r', hr', hx⟩)
  · rw [page_eq] at hlow
    omega
  · have hi' : r'.Covers i := by
      rw [page_eq] at *
      unfold Run.Covers Run.stop
      omega
    have heq := h.tiles.eq_of_covers (List.mem_append_left _ hr') (List.mem_append_right _ hr) hi' hi
    subst heq
    exact List.disjoint_of_nodup_append h.tiles.nodup hr' hr

end FreeList

/-- The free list of a new pool is one run of all pages. -/
theorem created_freeList {P : PageSize} {M : Mapping P} {size : ℕ} {s : Pool}
    (h : Created P M size s) (hfit : Fits P size) :
    FreeList P (pageCount P M size) s [⟨0, pageCount P M size⟩] [] where
  layout := h.layout hfit
  chain := ⟨h.free_next, h.head_prev, h.head_next⟩
  slab r hr := by
    rw [List.mem_singleton] at hr
    subst hr
    exact h.head_slab
  tail r hr _ hstop := by
    rw [List.mem_singleton] at hr
    subst hr
    simp [Run.stop] at hstop
  tiles := Tiles.single (h.layout hfit).count_pos
  apart r hr r' hr' := by
    have hpos := (h.layout hfit).count_pos
    rw [List.mem_singleton] at hr hr'
    subst hr hr'
    unfold Run.stop
    dsimp only
    omega
  pfree := by simp [h.pfree]
  tags r hr i hi := by
    have hmod := (h.layout hfit).addr_mod
    have hle := (pageCount_bounds P M hfit).2.1
    rw [List.mem_singleton] at hr
    subst hr
    rw [Run.covers_mk] at hi
    rcases Nat.eq_zero_or_pos i with rfl | hpos
    · rw [h.head_prev, Pool.free, freeOffset]
      omega
    · rw [h.zero]
      · simp only [page_eq, prevOf]
        omega
      · simp only [page_eq, prevOf]
        omega

end HCore.SlabFreeList
