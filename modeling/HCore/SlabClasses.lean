import HCore.SlabAlloc
import HCore.SlabFreeList

/-!
What an allocation of the slab pool does when it does not search a partly
used page: it takes a run of pages, or it takes one page, makes it the only
page of an empty slot list and hands out the first chunk behind the chunks of
the bitmap. A page is addressed in units of half a page, so the descriptor
with index `i` stands for the bytes from `pageAddr i` on.
-/

namespace HCore.SlabClasses

open Words Machine Base SlabPool SlabPages SlabAlloc SlabLayout SlabFreeList Runs Chains

/-- The bytes that one descriptor stands for. -/
def unit (P : PageSize) : ℕ := 2 ^ (P.log - 1)

def pageAddr (P : PageSize) (s : Pool) (i : ℕ) : ℕ := s.start + i * unit P

theorem bytes_eq (P : PageSize) : P.bytes = 2 * unit P := P.bytes_eq_double

theorem unit_ge (P : PageSize) : 2048 ≤ unit P := by
  have h := bytes_ge P
  rw [bytes_eq] at h
  omega

section

variable {P : PageSize} {N : ℕ} {s s' : Pool} {frees live : List Run}

theorem getPageAddr_page (P : PageSize) (s : Pool) (i : ℕ) :
    s.getPageAddr (s.page i) P.geometry.pagesizeShift = Except.ok (pageAddr P s i) := by
  have hindex : s.pageIndex (s.page i) = Except.ok i := by
    unfold Pool.pageIndex
    rw [if_pos ⟨by rw [page_eq]; omega, by rw [page_eq, pageSize]; omega⟩]
    simp only [pure_eq_ok, page_eq, pageSize, Except.ok.injEq]
    omega
  unfold Pool.getPageAddr
  rw [hindex, ok_bind, pure_eq_ok, P.geometry_eq]
  simp only [pageAddr, unit, Nat.shiftLeft_eq, Except.ok.injEq]
  omega

/-- A page lies between `start` and the end of the pool. -/
theorem pageAddr_room (hl : Layout P N s) {i : ℕ} (n : ℕ) (hi : i + n ≤ N) :
    s.start ≤ pageAddr P s i ∧ pageAddr P s i + n * unit P ≤ s.endAddr := by
  have hroom := hl.room
  have hmul : (i + n) * unit P ≤ N * unit P := Nat.mul_le_mul_right _ hi
  rw [bytes_eq, Nat.mul_left_comm] at hroom
  rw [Nat.add_mul] at hmul
  unfold pageAddr
  omega

theorem pageAddr_mono (P : PageSize) (s : Pool) {i j n : ℕ} (h : i + n ≤ j) :
    pageAddr P s i + n * unit P ≤ pageAddr P s j := by
  have hmul := Nat.mul_le_mul_right (unit P) h
  rw [Nat.add_mul] at hmul
  unfold pageAddr
  omega

theorem pageAddr_apart (P : PageSize) (s : Pool) {i j : ℕ} (hne : j ≠ i) :
    pageAddr P s j + unit P ≤ pageAddr P s i ∨ pageAddr P s i + unit P ≤ pageAddr P s j := by
  rcases Nat.lt_or_ge j i with hlt | hge
  · have hmono := pageAddr_mono P s (show j + 1 ≤ i from hlt)
    omega
  · have hmono := pageAddr_mono P s (show i + 1 ≤ j by omega)
    omega

/-- The free list only depends on its own words. -/
theorem freeList_congr (h : FreeList P N s frees live) (hsame : SameHeader s s')
    (hpfree : s'.pfree = s.pfree) (hkeep : ∀ x, FreeWord s frees x → s'.word x = s.word x) :
    FreeList P N s' frees live := by
  have hnode {x : ℕ} (hx : x ∈ s.free :: heads s frees) {y : ℕ} (hlow : x ≤ y)
      (hhigh : y < x + 24) : s'.word y = s.word y := hkeep y (h.runs.node_freeWord hx hlow hhigh)
  have hhead {r : Run} (hr : r ∈ frees) : s.page r.start ∈ s.free :: heads s frees :=
    List.mem_cons_of_mem _ (List.mem_map_of_mem hr)
  refine {
    layout := h.layout.congr hsame
    chain := ?_
    slab := ?_
    tail := ?_
    tiles := h.tiles
    apart := h.apart
    pfree := hpfree.trans h.pfree
    tags := ?_ }
  · have hheads : heads s' frees = heads s frees := by
      unfold heads
      rw [hsame.page]
    rw [hsame.free, hheads]
    refine h.chain.congr ?_ ?_
    · intro x hx
      exact hnode hx (by unfold nextOf; omega) (by unfold nextOf; omega)
    · intro x hx
      exact hnode (List.mem_cons_of_mem _ hx) (by unfold prevOf; omega) (by unfold prevOf; omega)
  · intro r hr
    rw [hsame.page, hnode (hhead hr) (by unfold slabOf; omega) (by unfold slabOf; omega)]
    exact h.slab r hr
  · intro r hr hlen hstop
    rw [hsame.page, ← h.tail r hr hlen hstop]
    apply hkeep
    refine Or.inr ⟨r, hr, ?_, ?_⟩
    · simp only [page_eq, prevOf, Run.stop]
      omega
    · simp only [page_eq, prevOf, Run.stop]
      omega
  · intro r hr i hi
    rw [hsame.page, ← h.tags r hr i hi]
    congr 1
    apply hkeep
    unfold Run.Covers Run.stop at hi
    refine Or.inr ⟨r, hr, ?_, ?_⟩
    · simp only [page_eq, prevOf]
      omega
    · simp only [page_eq, prevOf]
      omega

theorem classShift_spec (hshift : s.minShift = 3) (hmin : s.minSize = 8) {size : ℕ}
    (hsize : size ≤ unit P) :
    3 ≤ classShift s size ∧ classShift s size ≤ P.log - 1 ∧ size ≤ 2 ^ classShift s size := by
  have hlog := P.log_ge
  have hlog' := P.log_le
  unfold classShift
  rw [hmin, hshift]
  by_cases hsmall : 8 < size
  · rw [if_pos hsmall]
    have hbound : unit P ≤ 2 ^ 26 := Nat.pow_le_pow_right (by omega) (by omega)
    have hhalf : halvings 64 (size - 1) = Nat.log 2 (size - 1) :=
      halvings_eq_log _ _ (by omega)
    have hpow := Nat.lt_pow_succ_log_self (b := 2) (by omega) (size - 1)
    have hlow : 3 ≤ Nat.log 2 (size - 1) := Nat.le_log_of_pow_le (by omega) (by omega)
    have hhigh : Nat.log 2 (size - 1) < P.log - 1 :=
      Nat.log_lt_of_lt_pow (by omega) (by unfold unit at hsize; omega)
    rw [hhalf, Nat.add_comm 1]
    exact ⟨by omega, by omega, by omega⟩
  · rw [if_neg hsmall]
    exact ⟨le_refl _, by omega, by omega⟩

/-- Filling maps writes the words it names and no others. -/
theorem fillMaps_spec (n bitmap i v : ℕ) (s : Pool)
    (hv : ∀ j < n, s.Valid (bitmap + 8 * (i + j))) :
    ∃ s', fillMaps n bitmap i v s = Except.ok s' ∧ SameHeader s s' ∧ s'.pfree = s.pfree ∧
      (∀ j < n, s'.word (bitmap + 8 * (i + j)) = v) ∧
      ∀ x, x < bitmap + 8 * i ∨ bitmap + 8 * (i + n) ≤ x → s'.word x = s.word x := by
  induction n generalizing i s with
  | zero => exact ⟨s, rfl, SameHeader.refl s, rfl, by simp, fun _ _ => rfl⟩
  | succ n ih =>
    have h0 : s.Valid (bitmap + 8 * i) := hv 0 (by omega)
    have hs1 : SameHeader s (s.set (bitmap + 8 * i) v) := SameHeader.set ..
    obtain ⟨s', hrun, hsame, hpfree, hfill, hkeep⟩ := ih (i + 1) (s.set (bitmap + 8 * i) v)
      (fun j hj => hs1.valid.mpr (by
        have := hv (j + 1) (by omega)
        rwa [show i + (j + 1) = i + 1 + j by omega] at this))
    refine ⟨s', ?_, hs1.trans hsame, hpfree, ?_, ?_⟩
    · rw [fillMaps, Pool.store_ok h0, ok_bind]
      exact hrun
    · intro j hj
      cases j with
      | zero =>
        rw [hkeep _ (by omega)]
        exact Pool.set_same
      | succ j =>
        have := hfill j (by omega)
        rwa [show i + 1 + j = i + (j + 1) by omega] at this
    · intro x hx
      rw [hkeep x (by omega)]
      exact Pool.set_other (by omega)

/-- The chunks of a page as its size class counts them. -/
def chunks (P : PageSize) (shift : ℕ) : ℕ := P.bytes >>> shift

theorem chunks_eq (P : PageSize) {shift : ℕ} (h : shift ≤ P.log) :
    chunks P shift = 2 ^ (P.log - shift) := by
  rw [chunks, Nat.shiftRight_eq_div_pow, PageSize.bytes, Nat.pow_div h (by omega)]

theorem bitmapChunks_eq (P : PageSize) (shift : ℕ) :
    bitmapChunks P.geometry shift = max 1 (chunks P shift / (2 ^ shift * 8)) := by
  unfold bitmapChunks chunks
  rw [geometry_pagesize, Nat.one_shiftLeft]
  dsimp only
  generalize P.bytes >>> shift / (2 ^ shift * 8) = q
  split <;> omega

/-- The map of a small page fits its own chunks, and the first chunk behind
them ends within half a page. -/
theorem bitmap_room (P : PageSize) {shift : ℕ} (hlow : 3 ≤ shift) (hhigh : shift < P.log - 7) :
    chunks P shift / 64 * 8 ≤ bitmapChunks P.geometry shift * 2 ^ shift ∧
      bitmapChunks P.geometry shift ≤ chunks P shift / 64 ∧
      2 ≤ chunks P shift / 64 ∧ chunks P shift % 64 = 0 ∧
      (bitmapChunks P.geometry shift + 1) * 2 ^ shift ≤ unit P := by
  have hlog := P.log_ge
  obtain ⟨e, he⟩ : ∃ e, P.log = shift + 8 + e := ⟨P.log - shift - 8, by omega⟩
  have hchunks : chunks P shift = 64 * (4 * 2 ^ e) := by
    rw [chunks_eq P (by omega), he, show shift + 8 + e - shift = 8 + e by omega, pow_add]
    ring
  have hmaps : chunks P shift / 64 = 4 * 2 ^ e := by omega
  have hpos : 0 < 2 ^ e := Nat.two_pow_pos e
  have hunit : unit P = 128 * 2 ^ e * 2 ^ shift := by
    rw [unit, he, show shift + 8 + e - 1 = 7 + e + shift by omega, pow_add, pow_add]
    ring
  have height : 8 ≤ 2 ^ shift := by
    have h : 2 ^ 3 ≤ 2 ^ shift := Nat.pow_le_pow_right (by omega) hlow
    omega
  rw [bitmapChunks_eq, hmaps]
  have hdiv : chunks P shift / (2 ^ shift * 8) ≤ 4 * 2 ^ e := by
    rw [hchunks]
    apply Nat.div_le_of_le_mul
    calc
      64 * (4 * 2 ^ e) ≤ (2 ^ shift * 8) * (4 * 2 ^ e) := Nat.mul_le_mul_right _ (by omega)
      _ = 2 ^ shift * 8 * (4 * 2 ^ e) := rfl
  have hle : max 1 (chunks P shift / (2 ^ shift * 8)) ≤ 4 * 2 ^ e := by omega
  refine ⟨?_, hle, by omega, by omega, ?_⟩
  · by_cases hcase : shift ≤ e + 5
    · have hexact : chunks P shift = 2 ^ (e + 5 - shift) * (2 ^ shift * 8) := by
        rw [← mul_assoc, ← pow_add, Nat.sub_add_cancel hcase, hchunks, pow_add]
        ring
      have hquot : chunks P shift / (2 ^ shift * 8) = 2 ^ (e + 5 - shift) := by
        rw [hexact, Nat.mul_div_cancel _ (by omega)]
      calc
        4 * 2 ^ e * 8 = 2 ^ (e + 5 - shift) * 2 ^ shift := by
          rw [← pow_add, Nat.sub_add_cancel hcase, pow_add]
          ring
        _ ≤ max 1 (chunks P shift / (2 ^ shift * 8)) * 2 ^ shift := by
          rw [hquot]
          exact Nat.mul_le_mul_right _ (le_max_right ..)
    · have hpow : 2 ^ (e + 5) ≤ 2 ^ shift := Nat.pow_le_pow_right (by omega) (by omega)
      have hmax := Nat.mul_le_mul_right (2 ^ shift)
        (le_max_left 1 (chunks P shift / (2 ^ shift * 8)))
      rw [pow_add] at hpow
      omega
  · rw [hunit]
    exact Nat.mul_le_mul_right _ (by omega)

/-- The type bits of the pages of a class. -/
def classType (P : PageSize) (shift : ℕ) : ℕ :=
  if shift < P.log - 7 then slabSmall else if shift = P.log - 7 then slabExact else slabBig

theorem classType_lt (P : PageSize) (shift : ℕ) : classType P shift < 2 ^ 2 := by
  unfold classType
  split
  · decide
  · split <;> decide

/-- The descriptor word of a page with its first chunk in use. -/
def firstSlab (P : PageSize) (shift : ℕ) : ℕ :=
  if shift < P.log - 7 then shift else if shift = P.log - 7 then 1
  else (1 <<< slabMapShift) ||| shift

/-- The offset of the first chunk that is handed out. -/
def firstOffset (P : PageSize) (shift : ℕ) : ℕ :=
  if shift < P.log - 7 then bitmapChunks P.geometry shift * 2 ^ shift else 0

/-- The words that make a page the only page of a slot list. -/
structure LinkedPage (s s' : Pool) (i k slab type : ℕ) : Prop where
  same : SameHeader s s'
  slot_next : s'.word (nextOf (s.slot k)) = s.page i
  slab : s'.word (slabOf (s.page i)) = slab
  next : s'.word (nextOf (s.page i)) = s.slot k
  prev : s'.word (prevOf (s.page i)) = s.slot k ||| type

theorem slot_lt_pages (hl : Layout P N s) {k : ℕ} (hk : k < slotCount P) :
    s.free + 24 ≤ s.slot k ∧ s.slot k + 24 ≤ s.pages := by
  have hpages := hl.pages_eq
  simp only [Pool.slot, Pool.getSlots, Pool.free, freeOffset, poolSize, pageSize]
  omega

theorem slot_dvd (hl : Layout P N s) (k : ℕ) : 2 ^ 2 ∣ s.slot k := by
  have hmod := hl.addr_mod
  simp only [Pool.slot, Pool.getSlots, poolSize, pageSize]
  omega

/-- A slot head is read back from a tagged link. -/
theorem slot_link (hl : Layout P N s) (k shift : ℕ) :
    andNot (s.slot k ||| classType P shift) slabPageMask = s.slot k :=
  andNot_tag (slot_dvd hl k) (classType_lt P shift)

theorem linkNewPage_spec (hl : Layout P N s) {i k : ℕ} (hi : i < N) (hk : k < slotCount P)
    (slab type : ℕ) :
    ∃ s', linkNewPage s (s.page i) k slab type = Except.ok s' ∧
      LinkedPage s s' i k slab type ∧ s'.pfree = s.pfree ∧
      ∀ x, x < s.page i ∨ s.page i + 24 ≤ x → x ≠ nextOf (s.slot k) → s'.word x = s.word x := by
  obtain ⟨h0, h8, h16⟩ := hl.valid_page hi
  obtain ⟨-, -, hslot⟩ := hl.valid_slot hk
  obtain ⟨-, hlow⟩ := slot_lt_pages hl hk
  have hpage : s.page i = s.pages + 24 * i := rfl
  let s' := (((s.set (slabOf (s.page i)) slab).set (nextOf (s.page i)) (s.slot k)).set
    (prevOf (s.page i)) (s.slot k ||| type)).set (nextOf (s.slot k)) (s.page i)
  refine ⟨s', ?_, ⟨⟨rfl, rfl, rfl⟩, ?_, ?_, ?_, ?_⟩, rfl, ?_⟩
  · simp only [linkNewPage, Pool.setPagePrev, Pool.store_ok, Pool.set_valid, Pool.set_slot, h0, h8,
      h16, hslot, ok_bind, s']
  · exact Pool.set_same
  · simp only [slabOf, nextOf, prevOf, s']
    simp (disch := omega) only [Pool.set_other, Pool.set_same]
  · simp only [nextOf, prevOf, s']
    simp (disch := omega) only [Pool.set_other, Pool.set_same]
  · simp only [nextOf, prevOf, s']
    simp (disch := omega) only [Pool.set_other, Pool.set_same]
  · intro x hx hne
    simp only [slabOf, nextOf, prevOf, s'] at *
    simp (disch := omega) only [Pool.set_other]

theorem valid_data (hl : Layout P N s) {i x : ℕ} (hi : i < N)
    (hx : 8 * x + 8 ≤ unit P) : s.Valid (pageAddr P s i + 8 * x) := by
  obtain ⟨hlow, hhigh⟩ := pageAddr_room hl 1 (show i + 1 ≤ N by omega)
  have hlast := hl.last_le
  have hlast' := hl.last_eq
  have hpages := hl.pages_eq
  have hlo := hl.lo
  have hhi := hl.hi
  have hstart : 8 ∣ s.start := (eight_dvd_bytes P).trans hl.start_dvd
  have hunit : 8 ∣ unit P := by
    have hlog := P.log_ge
    exact pow_dvd_pow 2 (show 3 ≤ P.log - 1 by omega)
  have hmul : 8 ∣ i * unit P := Dvd.dvd.mul_left hunit i
  refine ⟨by omega, by omega, ?_⟩
  unfold pageAddr
  omega

/-- The maps of a new small page: the chunks of the bitmap and the first
chunk behind them are in use. -/
def FirstMaps (P : PageSize) (s : Pool) (i shift : ℕ) : Prop :=
  ∀ j < chunks P shift, (s.word (pageAddr P s i + 8 * (j / 64))).testBit (j % 64) =
    decide (j ≤ bitmapChunks P.geometry shift)

theorem testBit_busy {j : ℕ} (h : j < 64) : slabBusy.testBit j = true := by
  have hbusy : slabBusy = 2 ^ 64 - 1 := rfl
  rw [hbusy, Nat.testBit_two_pow_sub_one]
  exact decide_eq_true h

/-- The map with its first `n + 1` bits set, word by word. -/
def firstMapWord (n w : ℕ) : ℕ :=
  if w < (n + 1) / 64 then slabBusy
  else if w = (n + 1) / 64 then 1 <<< ((n + 1) % 64) - 1 else 0

theorem testBit_firstMapWord (n j : ℕ) :
    (firstMapWord n (j / 64)).testBit (j % 64) = decide (j ≤ n) := by
  unfold firstMapWord
  by_cases hlow : j / 64 < (n + 1) / 64
  · rw [if_pos hlow, testBit_busy (Nat.mod_lt _ (by omega))]
    exact (decide_eq_true (by omega)).symm
  · rw [if_neg hlow]
    by_cases heq : j / 64 = (n + 1) / 64
    · rw [if_pos heq, Nat.one_shiftLeft, Nat.testBit_two_pow_sub_one]
      exact decide_eq_decide.mpr (by omega)
    · rw [if_neg heq, Nat.zero_testBit]
      exact (decide_eq_false (by omega)).symm

/-- The three steps that write the maps of a new small page. -/
theorem writeMaps_spec (s : Pool) (bitmap n mapN : ℕ) (hn : (n + 1) / 64 < mapN)
    (hv : ∀ j < mapN, s.Valid (bitmap + 8 * j)) :
    ∃ s1 s3, fillMaps ((n + 1) / (8 * 8)) bitmap 0 slabBusy s = Except.ok s1 ∧
      s1.store (bitmap + 8 * ((n + 1) / (8 * 8))) (1 <<< ((n + 1) % (8 * 8)) - 1) =
        Except.ok (s1.set (bitmap + 8 * ((n + 1) / (8 * 8))) (1 <<< ((n + 1) % (8 * 8)) - 1)) ∧
      fillMaps (mapN - ((n + 1) / (8 * 8) + 1)) bitmap ((n + 1) / (8 * 8) + 1) 0
        (s1.set (bitmap + 8 * ((n + 1) / (8 * 8))) (1 <<< ((n + 1) % (8 * 8)) - 1)) =
        Except.ok s3 ∧ SameHeader s s3 ∧ s3.pfree = s.pfree ∧
      (∀ w < mapN, s3.word (bitmap + 8 * w) = firstMapWord n w) ∧
      ∀ x, x < bitmap ∨ bitmap + 8 * mapN ≤ x → s3.word x = s.word x := by
  obtain ⟨s1, hrun1, hsame1, hpfree1, hfill1, hkeep1⟩ :=
    fillMaps_spec ((n + 1) / (8 * 8)) bitmap 0 slabBusy s (fun j hj => hv _ (by omega))
  let s2 := s1.set (bitmap + 8 * ((n + 1) / (8 * 8))) (1 <<< ((n + 1) % (8 * 8)) - 1)
  have hsame2 : SameHeader s s2 := hsame1.trans (SameHeader.set ..)
  obtain ⟨s3, hrun3, hsame3, hpfree3, hfill3, hkeep3⟩ :=
    fillMaps_spec (mapN - ((n + 1) / (8 * 8) + 1)) bitmap ((n + 1) / (8 * 8) + 1) 0 s2
      (fun j hj => hsame2.valid.mpr (hv _ (by omega)))
  refine ⟨s1, s3, hrun1, Pool.store_ok (hsame1.valid.mpr (hv _ (by omega))), hrun3,
    hsame2.trans hsame3, hpfree3.trans hpfree1, ?_, ?_⟩
  · intro w hw
    unfold firstMapWord
    by_cases hlow : w < (n + 1) / 64
    · have hw' := hfill1 w (by omega)
      rw [if_pos hlow, hkeep3 _ (by omega), ← hw', Nat.zero_add]
      exact Pool.set_other (by omega)
    · rw [if_neg hlow]
      by_cases heq : w = (n + 1) / 64
      · rw [if_pos heq, hkeep3 _ (by omega), heq]
        exact Pool.set_same
      · have hw' := hfill3 (w - ((n + 1) / (8 * 8) + 1)) (by omega)
        rw [if_neg heq, ← hw']
        congr 2
        omega
  · intro x hx
    rw [hkeep3 x (by omega)]
    exact (Pool.set_other (by omega)).trans (hkeep1 x (by omega))

/-- A new page of small chunks. -/
theorem newSmall_spec (hl : Layout P N s) {i shift : ℕ} (hi : i < N) (hlow : 3 ≤ shift)
    (hhigh : shift < P.log - 7) :
    ∃ s', newSmall P.geometry s (s.page i) shift (shift - 3) =
        Except.ok (pageAddr P s i + bitmapChunks P.geometry shift * 2 ^ shift, s') ∧
      LinkedPage s s' i (shift - 3) shift slabSmall ∧ s'.pfree = s.pfree ∧
      FirstMaps P s' i shift ∧
      ∀ x, (x < s.page i ∨ s.page i + 24 ≤ x) → x ≠ nextOf (s.slot (shift - 3)) →
        (x < pageAddr P s i ∨ pageAddr P s i + unit P ≤ x) → s'.word x = s.word x := by
  obtain ⟨hmapRoom, hle, htwo, hmod, hroom⟩ := bitmap_room P hlow hhigh
  have hunit : 8 * (chunks P shift / 64) ≤ unit P := by
    rw [Nat.add_mul] at hroom
    omega
  have hk : shift - 3 < slotCount P := by
    unfold slotCount
    omega
  obtain ⟨s1, s3, hrun1, hrun2, hrun3, hsame3, hpfree3, hmaps, hkeep3⟩ :=
    writeMaps_spec s (pageAddr P s i) (bitmapChunks P.geometry shift) (chunks P shift / 64)
      (by omega) (fun j hj => valid_data hl hi (by omega))
  obtain ⟨s4, hrun4, hlinked, hpfree4, hkeep4⟩ :=
    linkNewPage_spec (hl.congr hsame3) hi hk shift slabSmall
  have hpage : s3.page i = s.page i := by rw [hsame3.page]
  have hslot : s3.slot = s.slot := hsame3.slot
  have hsame4 := hsame3.trans hlinked.same
  have haddr4 : pageAddr P s4 i = pageAddr P s i := by
    unfold pageAddr
    rw [hsame4.start]
  rw [hpage] at hrun4 hkeep4
  rw [hslot] at hkeep4
  have hdata := hl.last_le
  have hdata' := hl.last_eq
  have hdesc : s.page i = s.pages + 24 * i := rfl
  obtain ⟨-, hslotHigh⟩ := slot_lt_pages hl hk
  have haddr := (pageAddr_room hl 1 (show i + 1 ≤ N by omega)).1
  refine ⟨s4, ?_, ?_, hpfree4.trans hpfree3, ?_, ?_⟩
  · unfold newSmall
    rw [getPageAddr_page, ok_bind]
    dsimp only
    refine bind_of_ok hrun1 ?_
    refine bind_of_ok hrun2 ?_
    rw [geometry_pagesize]
    refine bind_of_ok hrun3 ?_
    refine bind_of_ok hrun4 ?_
    rw [← hsame4.page, getPageAddr_page, ok_bind, haddr4, Nat.shiftLeft_eq]
    rfl
  · refine ⟨hsame4, ?_, ?_, ?_, ?_⟩
    · rw [← hslot, hlinked.slot_next, hpage]
    · rw [← hpage, hlinked.slab]
    · rw [← hpage, hlinked.next, hslot]
    · rw [← hpage, hlinked.prev, hslot]
  · intro j hj
    rw [haddr4, hkeep4 _ (by omega) (by unfold nextOf; omega), hmaps _ (by omega)]
    exact testBit_firstMapWord _ _
  · intro x hx hne hout
    rw [hkeep4 x hx hne, hkeep3 x (by omega)]

/-- Where a new page of a class leaves the pool. -/
structure NewPage (P : PageSize) (s s' : Pool) (frees : List Run) (i shift : ℕ) : Prop where
  linked : LinkedPage s s' i (shift - 3) (firstSlab P shift) (classType P shift)
  maps : shift < P.log - 7 → FirstMaps P s' i shift
  frame : ∀ x, ¬ FreeWord s frees x → x ≠ nextOf (s.slot (shift - 3)) →
    (x < pageAddr P s i ∨ pageAddr P s i + unit P ≤ x) → s'.word x = s.word x

/-- The branches that make a page the first of a class. -/
theorem newChunk_spec (hl : Layout P N s) {i shift : ℕ} (hi : i < N) (hlow : 3 ≤ shift)
    (hk : shift - 3 < slotCount P) :
    ∃ s', (if shift < P.geometry.slabExactShift then
          newSmall P.geometry s (s.page i) shift (shift - 3)
        else if shift = P.geometry.slabExactShift then
          newExact P.geometry s (s.page i) (shift - 3)
        else newBig P.geometry s (s.page i) shift (shift - 3)) =
        Except.ok (pageAddr P s i + firstOffset P shift, s') ∧
      LinkedPage s s' i (shift - 3) (firstSlab P shift) (classType P shift) ∧
      s'.pfree = s.pfree ∧ (shift < P.log - 7 → FirstMaps P s' i shift) ∧
      ∀ x, (x < s.page i ∨ s.page i + 24 ≤ x) → x ≠ nextOf (s.slot (shift - 3)) →
        (x < pageAddr P s i ∨ pageAddr P s i + unit P ≤ x) → s'.word x = s.word x := by
  have hexact : P.geometry.slabExactShift = P.log - 7 := by rw [P.geometry_eq]
  rw [hexact]
  unfold firstOffset firstSlab classType
  have hother (slab type : ℕ) :
      ∃ s', (linkNewPage s (s.page i) (shift - 3) slab type >>= fun t =>
          t.getPageAddr (s.page i) P.geometry.pagesizeShift >>= fun p => pure (p, t)) =
          Except.ok (pageAddr P s i + 0, s') ∧
        LinkedPage s s' i (shift - 3) slab type ∧ s'.pfree = s.pfree ∧
        ∀ x, (x < s.page i ∨ s.page i + 24 ≤ x) → x ≠ nextOf (s.slot (shift - 3)) →
          s'.word x = s.word x := by
    obtain ⟨s', hrun, hlinked, hrest⟩ := linkNewPage_spec hl hi hk slab type
    refine ⟨s', ?_, hlinked, hrest⟩
    refine bind_of_ok hrun ?_
    rw [← hlinked.same.page, getPageAddr_page, ok_bind, Nat.add_zero, pageAddr,
      hlinked.same.start]
    rfl
  by_cases hsmall : shift < P.log - 7
  · simp only [if_pos hsmall]
    obtain ⟨s', hrun, hlinked, hpfree, hmaps, hkeep⟩ := newSmall_spec hl hi hlow hsmall
    exact ⟨s', hrun, hlinked, hpfree, fun _ => hmaps, hkeep⟩
  · simp only [if_neg hsmall]
    by_cases heq : shift = P.log - 7
    · simp only [if_pos heq]
      obtain ⟨s', hrun, hlinked, hpfree, hkeep⟩ := hother 1 slabExact
      exact ⟨s', hrun, hlinked, hpfree, fun h => absurd h hsmall,
        fun x hx hne _ => hkeep x hx hne⟩
    · simp only [if_neg heq]
      obtain ⟨s', hrun, hlinked, hpfree, hkeep⟩ := hother ((1 <<< slabMapShift) ||| shift) slabBig
      exact ⟨s', hrun, hlinked, hpfree, fun h => absurd h hsmall,
        fun x hx hne _ => hkeep x hx hne⟩

theorem data_not_freeWord (h : FreeList P N s frees live) {x : ℕ} (hx : s.start ≤ x) :
    ¬ FreeWord s frees x := by
  have hlast := h.layout.last_le
  have hlast' := h.layout.last_eq
  have hlow := h.runs.free_lt_pages
  rintro (hx' | ⟨r, hr, hx'⟩)
  · omega
  · have hin := h.stop_le hr
    rw [page_eq] at hx'
    omega

theorem slot_not_freeWord (h : FreeList P N s frees live) {k x : ℕ} (hk : k < slotCount P)
    (hlow : s.slot k ≤ x) (hhigh : x < s.slot k + 24) : ¬ FreeWord s frees x := by
  obtain ⟨hslot, hslot'⟩ := slot_lt_pages h.layout hk
  rintro (hx' | ⟨r, hr, hx'⟩)
  · omega
  · rw [page_eq] at hx'
    omega

/-- The new page as a run in use. -/
theorem newPage_of_linked {s1 : Pool} {frees' : List Run} {i shift : ℕ}
    (h : FreeList P N s frees live) (hfree : FreeList P N s1 frees' (⟨i, 1⟩ :: live))
    (halloc : Allocated s s1 frees i 1) (hr : ∃ r ∈ frees, i = r.start)
    (hk : shift - 3 < slotCount P)
    (hlinked : LinkedPage s1 s' i (shift - 3) (firstSlab P shift) (classType P shift))
    (hpfree : s'.pfree = s1.pfree) (hmaps : shift < P.log - 7 → FirstMaps P s' i shift)
    (hkeep : ∀ x, (x < s1.page i ∨ s1.page i + 24 ≤ x) → x ≠ nextOf (s1.slot (shift - 3)) →
      (x < pageAddr P s1 i ∨ pageAddr P s1 i + unit P ≤ x) → s'.word x = s1.word x) :
    FreeList P N s' frees' (⟨i, 1⟩ :: live) ∧ NewPage P s s' frees i shift := by
  have hsame := halloc.taken.same
  have hpage : s1.page = s.page := hsame.page
  have hslot : s1.slot = s.slot := hsame.slot
  have haddr : pageAddr P s1 i = pageAddr P s i := by
    unfold pageAddr
    rw [hsame.start]
  have hcover : (⟨i, 1⟩ : Run).Covers i := Run.covers_start Nat.one_pos
  obtain ⟨r, hr, rfl⟩ := hr
  have hpos := h.len_pos hr
  constructor
  · refine freeList_congr hfree hlinked.same hpfree ?_
    intro x hx
    apply hkeep
    · by_contra hin
      exact hfree.live_not_freeWord (List.mem_cons_self ..) hcover (by omega) (by omega) hx
    · rintro rfl
      exact slot_not_freeWord hfree hk (by unfold nextOf; omega) (by unfold nextOf; omega) hx
    · by_contra hin
      refine data_not_freeWord hfree ?_ hx
      unfold pageAddr at hin
      omega
  · constructor
    · obtain ⟨hsame2, hfirst, hslab, hnext, hprev⟩ := hlinked
      rw [hpage] at hfirst hslab hnext hprev
      rw [hslot] at hfirst hnext hprev
      exact ⟨hsame.trans hsame2, hfirst, hslab, hnext, hprev⟩
    · exact hmaps
    · intro x hx hne hout
      rw [hkeep x ?_ (hslot ▸ hne) (haddr ▸ hout), halloc.frame x hx]
      by_contra hin
      rw [hpage] at hin
      exact hx (Or.inr ⟨r, hr, by omega, by omega⟩)

/-- A page that was in use is not the new one. -/
theorem ne_new_page {frees' : List Run} {i j n : ℕ} {r : Run}
    (h : FreeList P N s' frees' (⟨i, n⟩ :: live)) (hn : 0 < n) (hr : r ∈ live) (hj : r.Covers j) :
    j ≠ i := by
  rintro rfl
  exact (h.tiles.perm List.perm_middle).not_covers_tail (Run.covers_start hn)
    (List.mem_append_right _ hr) hj

namespace NewPage

variable {i shift : ℕ} (hnew : NewPage P s s' frees i shift) (h : FreeList P N s frees live)

include hnew h

/-- The other slot heads are kept. -/
theorem slot_kept {k : ℕ} (hk : k < slotCount P) (hne : k ≠ shift - 3) :
    s'.word (nextOf (s.slot k)) = s.word (nextOf (s.slot k)) := by
  obtain ⟨-, hslot⟩ := slot_lt_pages h.layout hk
  have hlast := h.layout.last_le
  have hlast' := h.layout.last_eq
  have hstart : s.start ≤ pageAddr P s i := Nat.le_add_right ..
  apply hnew.frame _ (slot_not_freeWord h hk (by unfold nextOf; omega) (by unfold nextOf; omega))
  · simp only [nextOf, Pool.slot, pageSize]
    omega
  · unfold nextOf
    omega

/-- The descriptors of the pages in use are kept. -/
theorem desc_kept (hk : shift - 3 < slotCount P) {r : Run} (hr : r ∈ live) {j x : ℕ}
    (hj : r.Covers j) (hlow : s.page j ≤ x) (hhigh : x < s.page j + 24) :
    s'.word x = s.word x := by
  have hin := h.tiles.lt_of_covers (List.mem_append_right _ hr) hj
  obtain ⟨-, hslot⟩ := slot_lt_pages h.layout hk
  have hlast := h.layout.last_le
  have hlast' := h.layout.last_eq
  have hpage : s.page j = s.pages + 24 * j := rfl
  have hstart : s.start ≤ pageAddr P s i := Nat.le_add_right ..
  apply hnew.frame x (h.live_not_freeWord hr hj hlow hhigh)
  · unfold nextOf
    omega
  · omega

/-- The bytes of the other pages are kept. -/
theorem data_kept (hk : shift - 3 < slotCount P) {j x : ℕ} (hne : j ≠ i)
    (hlow : pageAddr P s j ≤ x) (hhigh : x < pageAddr P s j + unit P) : s'.word x = s.word x := by
  obtain ⟨-, hslot⟩ := slot_lt_pages h.layout hk
  have hlast := h.layout.last_le
  have hlast' := h.layout.last_eq
  have hstart : s.start ≤ pageAddr P s j := Nat.le_add_right ..
  apply hnew.frame x (data_not_freeWord h (by omega))
  · unfold nextOf
    omega
  · have hapart := pageAddr_apart P s hne
    omega

end NewPage

/-- A page for a class: nothing happens without a free page, and otherwise
the first chunk of a new page is handed out. -/
theorem newClass_cases (h : FreeList P N s frees live) {shift : ℕ} (hlow : 3 ≤ shift)
    (hk : shift - 3 < slotCount P) (fuel : ℕ) :
    (newClass P.geometry fuel s shift (shift - 3) = outOfFuel ∧ fuel ≤ frees.length) ∨
      (frees = [] ∧ newClass P.geometry fuel s shift (shift - 3) = Except.ok (0, s)) ∨
      ∃ i frees' s', (∃ r ∈ frees, i = r.start) ∧
        newClass P.geometry fuel s shift (shift - 3) =
          Except.ok (pageAddr P s i + firstOffset P shift, s') ∧
        FreeList P N s' frees' (⟨i, 1⟩ :: live) ∧ NewPage P s s' frees i shift := by
  unfold newClass
  rcases h.slabAllocPages_outcome Nat.one_pos fuel with
    ⟨hcase, hle⟩ | ⟨hall, hcase⟩ | ⟨i, frees', s1, hcase, ⟨r, hr, rfl, -⟩, hfree, halloc⟩
  · exact Or.inl ⟨by rw [hcase]; rfl, hle⟩
  · refine Or.inr (Or.inl ⟨?_, ?_⟩)
    · rw [List.eq_nil_iff_forall_not_mem]
      intro r hr
      have hpos := h.len_pos hr
      have hlt := hall r hr
      omega
    · rw [hcase]
      rfl
  · right
    right
    have hin := h.stop_le hr
    have hpos := h.len_pos hr
    have hsame := halloc.taken.same
    obtain ⟨s', hrun, hlinked, hpfree, hmaps, hkeep⟩ :=
      newChunk_spec hfree.layout (show r.start < N by omega) hlow hk
    refine ⟨r.start, frees', s', ⟨r, hr, rfl⟩, ?_,
      newPage_of_linked h hfree halloc ⟨r, hr, rfl⟩ hk hlinked hpfree hmaps hkeep⟩
    rw [hcase, ok_bind]
    dsimp only
    rw [if_pos (h.page_ne_zero _), ← hsame.page, hrun, pageAddr, hsame.start]
    rfl

/-- A request for whole pages. -/
theorem allocPages_cases (h : FreeList P N s frees live) {size : ℕ} (hsize : unit P < size)
    (hn : 0 < requestPages P.geometry size) (fuel : ℕ) :
    (slabAllocLocked P.geometry fuel s size = outOfFuel ∧ fuel ≤ frees.length) ∨
      slabAllocLocked P.geometry fuel s size = Except.ok (0, s) ∨
      ∃ i frees' s', (∃ r ∈ frees, i = r.start) ∧
        slabAllocLocked P.geometry fuel s size = Except.ok (pageAddr P s i, s') ∧
        FreeList P N s' frees' (⟨i, requestPages P.geometry size⟩ :: live) ∧
        Allocated s s' frees i (requestPages P.geometry size) := by
  have hmax : P.geometry.slabMaxSize < size := by
    rw [P.geometry_eq]
    exact hsize
  unfold slabAllocLocked
  rw [if_pos hmax]
  rcases h.slabAllocPages_outcome hn fuel with
    ⟨hcase, hle⟩ | ⟨-, hcase⟩ | ⟨i, frees', s', hcase, ⟨r, hr, rfl, -⟩, hfree, halloc⟩
  · exact Or.inl ⟨by rw [hcase]; rfl, hle⟩
  · refine Or.inr (Or.inl ?_)
    rw [hcase]
    rfl
  · right
    right
    have hsame := halloc.taken.same
    refine ⟨r.start, frees', s', ⟨r, hr, rfl⟩, ?_, hfree, halloc⟩
    rw [hcase, ok_bind]
    dsimp only
    rw [if_pos (h.page_ne_zero _), ← hsame.page, getPageAddr_page, pageAddr, hsame.start]
    rfl

/-- A class whose slot list is empty is served from a new page. -/
theorem slabAllocLocked_fresh (hl : Layout P N s) {fuel size : ℕ} (hsize : size ≤ unit P)
    (hk : classShift s size - 3 < slotCount P)
    (hempty : s.word (nextOf (s.slot (classShift s size - 3))) = s.slot (classShift s size - 3)) :
    slabAllocLocked P.geometry fuel s size =
      newClass P.geometry fuel s (classShift s size) (classShift s size - 3) := by
  obtain ⟨-, -, h16⟩ := hl.valid_slot hk
  have hmax : ¬ P.geometry.slabMaxSize < size := by
    rw [P.geometry_eq]
    exact Nat.not_lt.mpr hsize
  unfold slabAllocLocked
  rw [if_neg hmax]
  dsimp only
  rw [hl.minShift, Pool.load_ok h16, ok_bind, hempty, Pool.load_ok h16, ok_bind, hempty,
    if_neg (by simp), pure_eq_ok, ok_bind]

/-- The first chunk of a class ends within its page. -/
theorem firstOffset_room {shift : ℕ} (hlow : 3 ≤ shift) (hk : shift - 3 < slotCount P) :
    firstOffset P shift + 2 ^ shift ≤ unit P := by
  unfold slotCount at hk
  unfold firstOffset
  by_cases hsmall : shift < P.log - 7
  · obtain ⟨-, -, -, -, hroom⟩ := bitmap_room P hlow hsmall
    rw [if_pos hsmall]
    rw [Nat.add_mul, Nat.one_mul] at hroom
    exact hroom
  · rw [if_neg hsmall, Nat.zero_add]
    exact Nat.pow_le_pow_right (by omega) (by omega)

end

end HCore.SlabClasses
