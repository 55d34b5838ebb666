import HCore.SlabSlots
import HCore.SlabMaps

/-!
Termination of allocation. Every loop of an allocation is bounded by its own
counter, but for the walk along the free list, which is as long as the list,
and the scan of a page of exact chunks, which does not advance its mask. The
other scans of a partly used page end, and the page is still where the slot
list expects it afterwards, or it has left the list.
-/

namespace HCore.SlabTermination

open Words Machine Base SlabPool SlabPages SlabAlloc SlabLayout SlabFreeList SlabClasses SlabRuns
  SlabSlots SlabMaps Runs

/-- A slot list that holds exactly the page `i`. -/
structure Holds (P : PageSize) (s : Pool) (runs : List Run) (k i : ℕ) : Prop where
  run : ⟨i, 1⟩ ∈ runs
  slot_next : s.word (nextOf (s.slot k)) = s.page i
  next : s.word (nextOf (s.page i)) = s.slot k
  prev : s.word (prevOf (s.page i)) = s.slot k ||| classType P (k + 3)

/-- Every slot list is empty or holds one page. -/
structure ListInv (P : PageSize) (N : ℕ) (s : Pool) (frees runs : List Run) : Prop where
  list : FreeList P N s frees runs
  slot : ∀ k < slotCount P, s.word (nextOf (s.slot k)) = s.slot k ∨ ∃ i, Holds P s runs k i

/-- The class has a slot head, and it is not the exact class, or a big class
whose chunk count is too large a shift, with a partly used page. -/
def Scannable (P : PageSize) (s : Pool) (size : ℕ) : Prop :=
  classShift s size - s.minShift < slotCount P ∧
    (s.word (nextOf (s.slot (classShift s size - s.minShift))) =
        s.slot (classShift s size - s.minShift) ∨
      classShift s size < P.geometry.slabExactShift ∨
      (P.geometry.slabExactShift < classShift s size ∧ chunks P (classShift s size) < 64))

instance (P : PageSize) (s : Pool) (size : ℕ) : Decidable (Scannable P s size) :=
  inferInstanceAs (Decidable (_ ∧ _))

/-- The calls that return. -/
def Returning (P : PageSize) (st : State) : Call → Prop
  | .alloc size => (unit P < size → requestPages P.geometry size ≠ 0) ∧
      (size ≤ unit P → Scannable P st.pool size)
  | .free _ => False

section

variable {P : PageSize} {N : ℕ} {s s' : Pool} {frees runs : List Run} {k i : ℕ}

/-- The scan of a small page finds no bit, or writes one map and may then
take the page out of its list, when every map is busy. -/
theorem scanSmall_cases (n page bitmap shift mapN i : ℕ) (hn : i + n = mapN)
    (hv : ∀ j < mapN, s.Valid (bitmap + 8 * j)) :
    (scanSmall n page bitmap shift mapN i s = Except.ok none ∧
        ∀ w, i ≤ w → w < mapN → FullWord (s.word (bitmap + 8 * w))) ∨
      ∃ j < mapN, ∃ v p, ¬ FullWord (s.word (bitmap + 8 * j)) ∧ bitmap ≤ p ∧
        (scanSmall n page bitmap shift mapN i s =
            Except.ok (some (p, s.set (bitmap + 8 * j) v)) ∨
          (scanSmall n page bitmap shift mapN i s =
              ((s.set (bitmap + 8 * j) v).removeFullPage page slabSmall >>= fun t =>
                Except.ok (some (p, t))) ∧
            ∀ w, i ≤ w → w < mapN →
              FullWord ((s.set (bitmap + 8 * j) v).word (bitmap + 8 * w)))) := by
  induction n generalizing i with
  | zero => exact Or.inl ⟨rfl, fun w hw hw' => by omega⟩
  | succ n ih =>
    have h0 : s.Valid (bitmap + 8 * i) := hv i (by omega)
    rw [scanSmall, Pool.load_ok h0, ok_bind]
    rcases wordSearch_cases (s.word (bitmap + 8 * i)) with ⟨hsearch, hfull⟩ | ⟨b, hb, hsearch, hclear⟩
    · rw [hsearch]
      dsimp only
      rcases ih (i + 1) (by omega) with ⟨hnone, hall⟩ | ⟨j, hj, v, p, hfree, hp, hrun⟩
      · refine Or.inl ⟨hnone, fun w hw hw' => ?_⟩
        rcases Nat.eq_or_lt_of_le hw with rfl | hw
        · exact hfull
        · exact hall w hw hw'
      · refine Or.inr ⟨j, hj, v, p, hfree, hp, hrun.imp_right (fun hrun => ⟨hrun.1, ?_⟩)⟩
        intro w hw hw'
        rcases Nat.eq_or_lt_of_le hw with rfl | hw
        · have hne : i ≠ j := by
            rintro rfl
            exact hfree hfull
          rw [Pool.set_other (by omega)]
          exact hfull
        · exact hrun.2 w hw hw'
    · have hfree : ¬ FullWord (s.word (bitmap + 8 * i)) := by
        intro hfull
        rw [hfull b hb] at hclear
        cases hclear
      rw [hsearch]
      dsimp only
      rw [Pool.store_ok h0, ok_bind]
      refine Or.inr ⟨i, by omega, s.word (bitmap + 8 * i) ||| 2 ^ b,
        bitmap + (i * 8 * 8 + i) <<< shift, hfree, Nat.le_add_right .., ?_⟩
      by_cases hbusy : s.word (bitmap + 8 * i) ||| 2 ^ b = slabBusy
      · obtain ⟨full, hrun, hfull⟩ := allBusy_ok (s := s.set (bitmap + 8 * i) slabBusy)
          (mapN - (i + 1)) bitmap (i + 1) (fun j hj => hv _ (by omega))
        rw [hbusy, if_pos rfl, hrun, ok_bind]
        cases full with
        | false => exact Or.inl rfl
        | true =>
          refine Or.inr ⟨rfl, fun w hw hw' => ?_⟩
          rcases Nat.eq_or_lt_of_le hw with rfl | hw
          · rw [Pool.set_same]
            exact fullWord_busy
          · have hword := hfull rfl (w - (i + 1)) (by omega)
            rw [Nat.add_sub_cancel' hw] at hword
            rw [hword]
            exact fullWord_busy
      · rw [if_neg hbusy]
        exact Or.inl rfl

/-- The words around the page of a slot. -/
def Outside (P : PageSize) (s : Pool) (k i x : ℕ) : Prop :=
  (x < s.slot k ∨ s.slot k + 24 ≤ x) ∧ (x < s.page i ∨ s.page i + 24 ≤ x) ∧
    (x < pageAddr P s i ∨ pageAddr P s i + unit P ≤ x)

/-- What a scan does to the page of a slot: the page stays or leaves the
list, and nothing outside it changes. -/
structure Scanned (P : PageSize) (s s' : Pool) (runs : List Run) (k i : ℕ) : Prop where
  same : SameHeader s s'
  pfree : s'.pfree = s.pfree
  slot : s'.word (nextOf (s'.slot k)) = s'.slot k ∨ Holds P s' runs k i
  keep : ∀ x, Outside P s k i x → s'.word x = s.word x

/-- Every bit of the map of the page is set. -/
def MapFull (P : PageSize) (s : Pool) (i shift : ℕ) : Prop :=
  if shift < P.log - 7 then
    ∀ w < chunks P shift / 64, FullWord (s.word (pageAddr P s i + 8 * w))
  else ∀ j < chunks P shift, (s.word (slabOf (s.page i))).testBit (j + slabMapShift) = true

/-- A page of 32 big chunks with an odd descriptor word: its next chunk takes
it out of the list. -/
def Drops (P : PageSize) (s : Pool) (i shift : ℕ) : Prop :=
  P.log - 7 < shift ∧ chunks P shift = 32 ∧ s.word (slabOf (s.page i)) % 2 = 1

/-- A chunk from the page of a slot. -/
structure Granted (P : PageSize) (s s' : Pool) (runs : List Run) (k i p : ℕ) : Prop
    extends Scanned P s s' runs k i where
  block : p ≠ 0
  partly : ¬ MapFull P s i (k + 3)
  type : s'.word (prevOf (s.page i)) % 4 = classType P (k + 3)
  low : s'.word (slabOf (s.page i)) % 2 ^ slabMapShift =
    s.word (slabOf (s.page i)) % 2 ^ slabMapShift
  stays : Holds P s' runs k i ∨ MapFull P s' i (k + 3) ∨ Drops P s i (k + 3)
  drops : Drops P s i (k + 3) → s'.word (nextOf (s.slot k)) = s.slot k

/-- The only page of a slot has left its list. -/
structure Removed (s s' : Pool) (k i type : ℕ) : Prop where
  same : SameHeader s s'
  pfree : s'.pfree = s.pfree
  slot_next : s'.word (nextOf (s.slot k)) = s.slot k
  prev : s'.word (prevOf (s.page i)) = type
  keep : ∀ x, (x < s.slot k ∨ s.slot k + 24 ≤ x) → x ≠ nextOf (s.page i) →
    x ≠ prevOf (s.page i) → s'.word x = s.word x

/-- The pages of two slots are different. -/
theorem Holds.ne {j k' : ℕ} (h : Holds P s runs k i) (h' : Holds P s runs k' j) (hne : k' ≠ k) :
    j ≠ i := by
  rintro rfl
  have heq := h.next.symm.trans h'.next
  simp only [Pool.slot, pageSize] at heq
  omega

theorem Holds.keep {runs' : List Run} (h : Holds P s runs k i) (hsame : SameHeader s s')
    (hruns : ∀ r ∈ runs, r ∈ runs')
    (hslot : s'.word (nextOf (s.slot k)) = s.word (nextOf (s.slot k)))
    (hdesc : ∀ x, s.page i ≤ x → x < s.page i + 24 → s'.word x = s.word x) :
    Holds P s' runs' k i := by
  refine ⟨hruns _ h.run, ?_, ?_, ?_⟩
  · rw [hsame.slot, hsame.page, hslot]
    exact h.slot_next
  · rw [hsame.slot, hsame.page, hdesc _ (by unfold nextOf; omega) (by unfold nextOf; omega)]
    exact h.next
  · rw [hsame.slot, hsame.page, hdesc _ (by unfold prevOf; omega) (by unfold prevOf; omega)]
    exact h.prev

/-- The words around a page leave the other slot heads alone. -/
theorem outside_slot {k' : ℕ} (hl : Layout P N s) (hk' : k' < slotCount P) (hne : k' ≠ k) (i : ℕ) :
    Outside P s k i (nextOf (s.slot k')) := by
  obtain ⟨-, hslot⟩ := slot_lt_pages hl hk'
  have hlast := hl.last_le
  have hlast' := hl.last_eq
  have hpage : s.page i = s.pages + 24 * i := rfl
  have hstart : s.start ≤ pageAddr P s i := Nat.le_add_right ..
  have hapart : s.slot k' + 24 ≤ s.slot k ∨ s.slot k + 24 ≤ s.slot k' := by
    simp only [Pool.slot, pageSize]
    omega
  unfold nextOf
  exact ⟨by omega, by omega, by omega⟩

/-- They leave the other descriptors alone. -/
theorem outside_desc {j x : ℕ} (hl : Layout P N s) (hk : k < slotCount P) (hj : j < N)
    (hij : j ≠ i) (hlow : s.page j ≤ x) (hhigh : x < s.page j + 24) : Outside P s k i x := by
  obtain ⟨-, hslot⟩ := slot_lt_pages hl hk
  have hlast := hl.last_le
  have hlast' := hl.last_eq
  have hpi : s.page i = s.pages + 24 * i := rfl
  have hpj : s.page j = s.pages + 24 * j := rfl
  have hstart : s.start ≤ pageAddr P s i := Nat.le_add_right ..
  exact ⟨by omega, by omega, by omega⟩

theorem Holds.congr {j k' : ℕ} (hl : Layout P N s) (hj : j < N) (hk : k < slotCount P)
    (hk' : k' < slotCount P) (h : Holds P s runs k' j) (hsame : SameHeader s s')
    (hkeep : ∀ x, Outside P s k i x → s'.word x = s.word x) (hne : k' ≠ k) (hij : j ≠ i) :
    Holds P s' runs k' j :=
  h.keep hsame (fun _ hr => hr) (hkeep _ (outside_slot hl hk' hne i))
    (fun x hlow hhigh => hkeep x (outside_desc hl hk hj hij hlow hhigh))

/-- The lists survive a scan. -/
theorem ListInv.scanned (h : ListInv P N s frees runs) (hk : k < slotCount P)
    (hi : Holds P s runs k i) (hscan : Scanned P s s' runs k i) : ListInv P N s' frees runs := by
  have hl := h.list.layout
  have hcover : (⟨i, 1⟩ : Run).Covers i := Run.covers_start Nat.one_pos
  have hrun {j k' : ℕ} (hj : Holds P s runs k' j) : j < N :=
    h.list.tiles.lt_of_covers (List.mem_append_right _ hj.run) (Run.covers_start Nat.one_pos)
  obtain ⟨hfree, hslot⟩ := slot_lt_pages hl hk
  have hlast := hl.last_le
  have hlast' := hl.last_eq
  refine ⟨?_, ?_⟩
  · refine freeList_congr h.list hscan.same hscan.pfree ?_
    intro x hx
    apply hscan.keep
    refine ⟨?_, ?_, ?_⟩
    · by_contra hin
      exact slot_not_freeWord h.list hk (by omega) (by omega) hx
    · by_contra hin
      exact h.list.live_not_freeWord hi.run hcover (by omega) (by omega) hx
    · by_contra hin
      refine data_not_freeWord h.list ?_ hx
      unfold pageAddr at hin
      omega
  · intro k' hk'
    by_cases hne : k' = k
    · subst hne
      rcases hscan.slot with hempty | hholds
      · exact Or.inl hempty
      · exact Or.inr ⟨i, hholds⟩
    · rcases h.slot k' hk' with hempty | ⟨j, hj⟩
      · left
        rw [hscan.same.slot, hscan.keep _ (outside_slot hl hk' hne i), hempty]
      · exact Or.inr ⟨j, hj.congr hl (hrun hj) hk hk' hscan.same hscan.keep hne
          (hi.ne hj hne)⟩

/-- Taking the only page of a slot out of its list. -/
theorem removeFullPage_spec (hl : Layout P N s) (hk : k < slotCount P) (hi : i < N)
    (h : Holds P s runs k i) (type : ℕ) :
    ∃ s', s.removeFullPage (s.page i) type = Except.ok s' ∧ Removed s s' k i type := by
  obtain ⟨-, h8, h16⟩ := hl.valid_page hi
  obtain ⟨-, hs8, hs16⟩ := hl.valid_slot hk
  obtain ⟨-, hslot⟩ := slot_lt_pages hl hk
  have hpage : s.page i = s.pages + 24 * i := rfl
  have hprev : andNot (s.word (prevOf (s.page i))) slabPageMask = s.slot k := by
    rw [h.prev]
    exact slot_link hl k (k + 3)
  let s' := (((s.set (nextOf (s.slot k)) (s.slot k)).set (prevOf (s.slot k))
    (s.word (prevOf (s.page i)))).set (nextOf (s.page i)) 0).set (prevOf (s.page i)) (0 ||| type)
  refine ⟨s', ?_, ⟨⟨rfl, rfl, rfl⟩, rfl, ?_, ?_, ?_⟩⟩
  · simp only [Pool.removeFullPage, Pool.setPagePrev, Pool.getPagePrev_ok, Pool.load_ok,
      Pool.store_ok, Pool.set_valid, ok_bind, hprev, h.next, h8, h16, hs16]
    simp (disch := (simp only [slabOf, nextOf, prevOf]; omega)) only [Pool.set_other, h.next]
    simp only [Pool.store_ok, Pool.set_valid, ok_bind, h8, h16, hs8, s']
  · simp only [nextOf, prevOf, s']
    simp (disch := omega) only [Pool.set_other, Pool.set_same]
  · exact Pool.set_same.trans (Nat.zero_or _)
  · intro x hx hx' hx''
    simp only [nextOf, prevOf, s'] at *
    simp (disch := omega) only [Pool.set_other]

/-- A scan that wrote one word of the page and may then have removed it. -/
theorem scanned_of_write (hl : Layout P N s) (hk : k < slotCount P) (hi : i < N)
    (h : Holds P s runs k i) {a v : ℕ} (ha : a = slabOf (s.page i) ∨
      (pageAddr P s i ≤ a ∧ a < pageAddr P s i + unit P)) (type : ℕ) :
    (Scanned P s (s.set a v) runs k i ∧ Holds P (s.set a v) runs k i) ∧
      ∃ t, (s.set a v).removeFullPage (s.page i) type = Except.ok t ∧
        Scanned P s t runs k i ∧ Removed (s.set a v) t k i type := by
  obtain ⟨-, hslot⟩ := slot_lt_pages hl hk
  have hlast := hl.last_le
  have hlast' := hl.last_eq
  have hpage : s.page i = s.pages + 24 * i := rfl
  have hstart : s.start ≤ pageAddr P s i := Nat.le_add_right ..
  have hsame : SameHeader s (s.set a v) := SameHeader.set ..
  have hholds : Holds P (s.set a v) runs k i := by
    refine ⟨h.run, ?_, ?_, ?_⟩
    · rw [hsame.slot, hsame.page, Pool.set_other (by unfold nextOf; unfold slabOf at ha; omega)]
      exact h.slot_next
    · rw [hsame.slot, hsame.page, Pool.set_other (by unfold nextOf; unfold slabOf at ha; omega)]
      exact h.next
    · rw [hsame.slot, hsame.page, Pool.set_other (by unfold prevOf; unfold slabOf at ha; omega)]
      exact h.prev
  have hkeep (x : ℕ) (hx : Outside P s k i x) : (s.set a v).word x = s.word x := by
    obtain ⟨hx1, hx2, hx3⟩ := hx
    apply Pool.set_other
    unfold slabOf at ha
    omega
  refine ⟨⟨⟨hsame, rfl, Or.inr hholds, hkeep⟩, hholds⟩, ?_⟩
  obtain ⟨t, hrun, hremoved⟩ := removeFullPage_spec (hl.congr hsame) hk hi hholds type
  refine ⟨t, hrun, ⟨hsame.trans hremoved.same, hremoved.pfree, ?_, ?_⟩, hremoved⟩
  · left
    rw [hremoved.same.slot]
    exact hremoved.slot_next
  · intro x hx
    obtain ⟨hx1, hx2, hx3⟩ := hx
    rw [hremoved.keep x hx1 (by simp only [nextOf, Pool.set_page]; omega)
      (by simp only [prevOf, Pool.set_page]; omega)]
    exact hkeep x ⟨hx1, hx2, hx3⟩

theorem pageAddr_ne (hl : Layout P N s) (i : ℕ) {p : ℕ} (hp : pageAddr P s i ≤ p) : p ≠ 0 := by
  have hne := pageAddr_ne_zero hl i
  omega

theorem MapFull.keep {shift : ℕ} (h : MapFull P s i shift) (hsame : SameHeader s s')
    (hslab : s'.word (slabOf (s.page i)) = s.word (slabOf (s.page i)))
    (hdata : ∀ x, pageAddr P s i ≤ x → x < pageAddr P s i + unit P → s'.word x = s.word x) :
    MapFull P s' i shift := by
  unfold MapFull at *
  split at h
  · next hsmall =>
    have hchunks : chunks P shift ≤ 2 * unit P := by
      rw [chunks, Nat.shiftRight_eq_div_pow, ← bytes_eq]
      exact Nat.div_le_self ..
    rw [if_pos hsmall, pageAddr, hsame.start, ← pageAddr]
    intro w hw
    rw [hdata _ (Nat.le_add_right ..) (by omega)]
    exact h w hw
  · next hsmall =>
    rw [if_neg hsmall, hsame.page, hslab]
    exact h

/-- The two ways in which a scan ends that has set a bit. -/
theorem granted_of_write (hl : Layout P N s) (hk : k < slotCount P) (hi : i < N)
    (h : Holds P s runs k i) {a v p : ℕ} (ha : a = slabOf (s.page i) ∨
      (pageAddr P s i ≤ a ∧ a < pageAddr P s i + unit P)) (hp : p ≠ 0)
    (hpartly : ¬ MapFull P s i (k + 3))
    (hlow : (s.set a v).word (slabOf (s.page i)) % 2 ^ slabMapShift =
      s.word (slabOf (s.page i)) % 2 ^ slabMapShift) :
    (¬ Drops P s i (k + 3) → Granted P s (s.set a v) runs k i p) ∧
      ∃ t, (s.set a v).removeFullPage (s.page i) (classType P (k + 3)) = Except.ok t ∧
        t.page = s.page ∧ t.start = s.start ∧
        (MapFull P (s.set a v) i (k + 3) ∨ Drops P s i (k + 3) → Granted P s t runs k i p) := by
  obtain ⟨-, hslot⟩ := slot_lt_pages hl hk
  have hlast := hl.last_le
  have hlast' := hl.last_eq
  have hpage : s.page i = s.pages + 24 * i := rfl
  have hstart : s.start ≤ pageAddr P s i := Nat.le_add_right ..
  obtain ⟨⟨hscan, hholds⟩, t, hremove, hscan', hremoved⟩ :=
    scanned_of_write (v := v) hl hk hi h ha (classType P (k + 3))
  have hprev : t.word (prevOf (s.page i)) = classType P (k + 3) := hremoved.prev
  have hkeep : ∀ x, (x < s.slot k ∨ s.slot k + 24 ≤ x) → x ≠ nextOf (s.page i) →
    x ≠ prevOf (s.page i) → t.word x = (s.set a v).word x := hremoved.keep
  have hslab : t.word (slabOf (s.page i)) = (s.set a v).word (slabOf (s.page i)) := by
    apply hkeep
    · exact Or.inr (by unfold slabOf; omega)
    · simp only [slabOf, nextOf]
      omega
    · simp only [slabOf, prevOf]
      omega
  constructor
  · intro hdrop
    refine ⟨hscan, hp, hpartly, ?_, hlow, Or.inl hholds, fun hd => absurd hd hdrop⟩
    have htag := hholds.prev
    rw [Pool.set_slot, Pool.set_page] at htag
    rw [htag]
    exact slot_tag hl k (k + 3)
  · refine ⟨t, hremove, hscan'.same.page, hscan'.same.start, fun hwhy => ?_⟩
    refine ⟨hscan', hp, hpartly, ?_, ?_, Or.inr (hwhy.imp_left fun hfull => ?_), fun _ => ?_⟩
    · rw [hprev]
      exact Nat.mod_eq_of_lt (classType_lt P (k + 3))
    · rw [hslab]
      exact hlow
    · refine hfull.keep hremoved.same hslab (fun x hx _ => ?_)
      have hx : pageAddr P s i ≤ x := hx
      apply hkeep
      · exact Or.inr (by omega)
      · unfold nextOf
        omega
      · unfold prevOf
        omega
    · exact hremoved.slot_next

/-- A page of small chunks hands out a chunk while its map has a clear bit. -/
theorem scanSmall_returns (hl : Layout P N s) (hk : k < slotCount P) (hi : i < N)
    (h : Holds P s runs k i) (hsmall : k + 3 < P.log - 7) :
    (scanSmall (chunks P (k + 3) / 64) (s.page i) (pageAddr P s i) (k + 3)
        (chunks P (k + 3) / 64) 0 s = Except.ok none ∧ MapFull P s i (k + 3)) ∨
      ∃ p t, scanSmall (chunks P (k + 3) / 64) (s.page i) (pageAddr P s i) (k + 3)
          (chunks P (k + 3) / 64) 0 s = Except.ok (some (p, t)) ∧
        Granted P s t runs k i p := by
  obtain ⟨hmap, hle, htwo, hmod, hroom⟩ := bitmap_room P (Nat.le_add_left 3 k) hsmall
  have hunit : 8 * (chunks P (k + 3) / 64) ≤ unit P := by
    rw [Nat.add_mul] at hroom
    omega
  have hclass : classType P (k + 3) = slabSmall := if_pos hsmall
  have hnodrop : ¬ Drops P s i (k + 3) := fun hd => absurd hd.1 (by omega)
  rcases scanSmall_cases (s := s) (chunks P (k + 3) / 64) (s.page i) (pageAddr P s i) (k + 3)
      (chunks P (k + 3) / 64) 0 (Nat.zero_add _) (fun j hj => valid_data hl hi (by omega)) with
    ⟨hnone, hall⟩ | ⟨j, hj, v, p, hfree, hp, hrun⟩
  · exact Or.inl ⟨hnone, (if_pos hsmall).mpr fun w hw => hall w (Nat.zero_le w) hw⟩
  · right
    have hpartly : ¬ MapFull P s i (k + 3) := by
      unfold MapFull
      rw [if_pos hsmall]
      exact fun hall => hfree (hall j hj)
    have hlast := hl.last_le
    have hlast' := hl.last_eq
    have hpage : s.page i = s.pages + 24 * i := rfl
    have hstart : s.start ≤ pageAddr P s i := Nat.le_add_right ..
    have hslab : (s.set (pageAddr P s i + 8 * j) v).word (slabOf (s.page i)) =
        s.word (slabOf (s.page i)) := Pool.set_other (by unfold slabOf; omega)
    obtain ⟨hkept, t, hremove, -, -, hremoved⟩ := granted_of_write (p := p) (v := v) hl hk hi h
      (Or.inr ⟨Nat.le_add_right .., show pageAddr P s i + 8 * j < _ by omega⟩)
      (pageAddr_ne hl i hp) hpartly (by rw [hslab])
    rcases hrun with hrun | ⟨hrun, hall⟩
    · exact ⟨p, _, hrun, hkept hnodrop⟩
    · rw [hclass] at hremove
      refine ⟨p, t, by rw [hrun, hremove, ok_bind], hremoved (Or.inl ?_)⟩
      unfold MapFull
      rw [if_pos hsmall]
      exact fun w hw => hall w (Nat.zero_le w) hw

/-- The count of a class with fewer than 64 chunks fits the upper half of a
descriptor word. -/
theorem chunks_le (hk : k < slotCount P) (h : chunks P (k + 3) < 64) : chunks P (k + 3) ≤ 32 := by
  have hlog := P.log_ge
  unfold slotCount at hk
  rw [chunks_eq P (by omega)] at h ⊢
  have hexp : P.log - (k + 3) ≤ 5 := by
    by_contra hlt
    have hpow : 2 ^ 6 ≤ 2 ^ (P.log - (k + 3)) := Nat.pow_le_pow_right (by omega) (by omega)
    omega
  exact Nat.pow_le_pow_right (n := 2) (by omega) hexp

theorem shiftLeft_mask {c : ℕ} (hc : c ≤ 32) : shiftLeft64 1 c = Except.ok (2 ^ c) ∧
    shiftLeft64 (2 ^ c - 1) slabMapShift = Except.ok (bigMask c) := by
  have hpow : 2 ^ c ≤ 2 ^ 32 := Nat.pow_le_pow_right (by omega) hc
  have hpos : 0 < 2 ^ c := Nat.two_pow_pos c
  constructor
  · rw [shiftLeft64, if_pos (by omega), Nat.one_shiftLeft, Nat.mod_eq_of_lt (by omega)]
    rfl
  · rw [shiftLeft64, if_pos (by decide), ← bigMask, Nat.mod_eq_of_lt]
    · rfl
    · rw [bigMask, Nat.shiftLeft_eq, slabMapShift]
      omega

/-- A page of big chunks hands out a chunk while its map has a clear bit and
its mask is defined. -/
theorem scanBig_returns (hl : Layout P N s) (hk : k < slotCount P) (hi : i < N)
    (h : Holds P s runs k i) (hbig : P.log - 7 < k + 3) (hchunks : chunks P (k + 3) < 64) :
    (scanBig P.geometry s (s.page i) (k + 3) = Except.ok none ∧ MapFull P s i (k + 3)) ∨
      ∃ p t, scanBig P.geometry s (s.page i) (k + 3) = Except.ok (some (p, t)) ∧
        Granted P s t runs k i p := by
  obtain ⟨h0, -, -⟩ := hl.valid_page hi
  have hc := chunks_le hk hchunks
  have hcount : P.geometry.pagesize >>> (k + 3) = chunks P (k + 3) := by
    rw [geometry_pagesize, chunks]
  have hclass : classType P (k + 3) = slabBig := by
    rw [classType, if_neg (by omega), if_neg (by omega)]
  have haddr (t : Pool) (hpage : t.page = s.page) (hstart : t.start = s.start) :
      t.getPageAddr (s.page i) P.geometry.pagesizeShift = Except.ok (pageAddr P s i) := by
    rw [← hpage, getPageAddr_page, pageAddr, hstart, ← pageAddr]
  have hfull (t : Pool) : MapFull P t i (k + 3) ↔ ∀ j < chunks P (k + 3),
      (t.word (slabOf (t.page i))).testBit (j + slabMapShift) = true := by
    unfold MapFull
    rw [if_neg (by omega)]
  obtain ⟨hmask, hmask'⟩ := shiftLeft_mask hc
  unfold scanBig
  rw [hcount, hmask, ok_bind, hmask', ok_bind, Pool.load_ok h0, ok_bind]
  have hfirst : 1 <<< slabMapShift = 2 ^ (0 + slabMapShift) % 2 ^ 64 := by decide
  rw [hfirst]
  rcases firstClearBig_cases (s.word (slabOf (s.page i))) (chunks P (k + 3)) 0 64 hc (by omega)
    (Nat.zero_le _) with ⟨hnone, hall⟩ | ⟨j, -, hj, hsome, hclear⟩
  · rw [hnone]
    exact Or.inl ⟨rfl, (hfull s).mpr fun j hj => hall j (Nat.zero_le j) hj⟩
  · right
    have hpartly : ¬ MapFull P s i (k + 3) := by
      intro hall
      rw [(hfull s).mp hall j hj] at hclear
      cases hclear
    have hlow : (s.set (slabOf (s.page i)) (s.word (slabOf (s.page i)) |||
        2 ^ (j + slabMapShift))).word (slabOf (s.page i)) % 2 ^ slabMapShift =
          s.word (slabOf (s.page i)) % 2 ^ slabMapShift := by
      rw [Pool.set_same, Nat.or_mod_two_pow, Nat.pow_add, Nat.mul_mod_left, Nat.or_zero]
    obtain ⟨hkept, t, hremove, hpage, hstart, hremoved⟩ := granted_of_write hl hk hi h
      (Or.inl rfl) (pageAddr_ne_zero hl i) hpartly hlow
    have hdrops := dropsPage_iff (s.word (slabOf (s.page i))) (chunks P (k + 3)) j hc
    rw [hclass] at hremove
    rw [hsome]
    dsimp only
    rw [Pool.store_ok h0, ok_bind, if_congr hdrops rfl rfl]
    by_cases hd : chunks P (k + 3) = 32 ∧ s.word (slabOf (s.page i)) % 2 = 1
    · rw [if_pos hd, hremove, ok_bind, haddr t hpage hstart]
      exact ⟨_, _, rfl, hremoved (Or.inr ⟨hbig, hd⟩)⟩
    · rw [if_neg hd, pure_eq_ok, ok_bind, haddr (s.set _ _) rfl rfl]
      exact ⟨_, _, rfl, hkept (fun hdrop => hd hdrop.2)⟩

/-- A class with a page in its list that is not the exact class. -/
theorem scanClass_returns (hl : Layout P N s) (hk : k < slotCount P) (hi : i < N)
    (h : Holds P s runs k i) (fuel : ℕ)
    (hclass : k + 3 < P.geometry.slabExactShift ∨
      (P.geometry.slabExactShift < k + 3 ∧ chunks P (k + 3) < 64)) :
    (scanClass P.geometry fuel s (s.page i) (k + 3) = Except.ok none ∧ MapFull P s i (k + 3)) ∨
      ∃ p t, scanClass P.geometry fuel s (s.page i) (k + 3) = Except.ok (some (p, t)) ∧
        Granted P s t runs k i p := by
  have hexact : P.geometry.slabExactShift = P.log - 7 := by rw [P.geometry_eq]
  unfold scanClass
  rcases hclass with hsmall | ⟨hbig, hchunks⟩
  · rw [if_pos hsmall, getPageAddr_page, ok_bind]
    dsimp only
    rw [geometry_pagesize]
    exact scanSmall_returns hl hk hi h (hexact ▸ hsmall)
  · rw [if_neg (by omega), if_neg (by omega)]
    exact scanBig_returns hl hk hi h (hexact ▸ hbig) hchunks

theorem ListInv.pages (h : ListInv P N s frees runs) {frees' : List Run} {n : ℕ}
    (hfree : FreeList P N s' frees' (⟨i, n⟩ :: runs)) (halloc : Allocated s s' frees i n) :
    ListInv P N s' frees' (⟨i, n⟩ :: runs) := by
  have hsame := halloc.taken.same
  have hslot {k : ℕ} (hk : k < slotCount P) :
      s'.word (nextOf (s.slot k)) = s.word (nextOf (s.slot k)) :=
    halloc.frame _ (slot_not_freeWord h.list hk (by unfold nextOf; omega)
      (by unfold nextOf; omega))
  refine ⟨hfree, ?_⟩
  intro k hk
  rcases h.slot k hk with hempty | ⟨j, hj⟩
  · left
    rw [hsame.slot, hslot hk, hempty]
  · right
    have hcover : (⟨j, 1⟩ : Run).Covers j := Run.covers_start Nat.one_pos
    exact ⟨j, hj.keep hsame (fun _ hr => List.mem_cons_of_mem _ hr) (hslot hk)
      (fun x hlow hhigh => halloc.frame x (h.list.live_not_freeWord hj.run hcover hlow hhigh))⟩

/-- A new page is the page of its slot. -/
theorem Holds.of_linked {slab : ℕ} (h : LinkedPage s s' i k slab (classType P (k + 3))) :
    Holds P s' (⟨i, 1⟩ :: runs) k i := by
  refine ⟨List.mem_cons_self .., ?_, ?_, ?_⟩
  · rw [h.same.slot, h.same.page]
    exact h.slot_next
  · rw [h.same.slot, h.same.page]
    exact h.next
  · rw [h.same.slot, h.same.page]
    exact h.prev

/-- A new page of a class replaces what its slot list held. -/
theorem ListInv.chunk (h : ListInv P N s frees runs) {frees' : List Run} (hk : k < slotCount P)
    (hfree : FreeList P N s' frees' (⟨i, 1⟩ :: runs)) (hnew : NewPage P s s' frees i (k + 3)) :
    ListInv P N s' frees' (⟨i, 1⟩ :: runs) := by
  have hsame := hnew.linked.same
  have hlink := hnew.linked
  rw [Nat.add_sub_cancel] at hlink
  refine ⟨hfree, ?_⟩
  intro k' hk'
  by_cases hne : k' = k
  · subst hne
    exact Or.inr ⟨i, Holds.of_linked hlink⟩
  · have hword := hnew.slot_kept h.list hk' hne
    rcases h.slot k' hk' with hempty | ⟨j, hj⟩
    · left
      rw [hsame.slot, hword, hempty]
    · right
      exact ⟨j, hj.keep hsame (fun _ hr => List.mem_cons_of_mem _ hr) hword
        (fun x hlow hhigh =>
          hnew.desc_kept h.list hk hj.run (Run.covers_start Nat.one_pos) hlow hhigh)⟩

/-- A request for a chunk is served by the page in the list of its class, or
by a new page when the list is empty or its page is full. -/
theorem alloc_route (h : ListInv P N s frees runs) {size : ℕ} (hsize : size ≤ unit P)
    (hguard : Scannable P s size) (fuel : ℕ) :
    (slabAllocLocked P.geometry fuel s size =
        newClass P.geometry fuel s (classShift s size) (classShift s size - 3) ∧
      (s.word (nextOf (s.slot (classShift s size - 3))) = s.slot (classShift s size - 3) ∨
        ∃ i, Holds P s runs (classShift s size - 3) i ∧ MapFull P s i (classShift s size))) ∨
      ∃ i p t, Holds P s runs (classShift s size - 3) i ∧
        scanClass P.geometry fuel s (s.page i) (classShift s size) = Except.ok (some (p, t)) ∧
        Granted P s t runs (classShift s size - 3) i p ∧
        slabAllocLocked P.geometry fuel s size = Except.ok (p, t) := by
  have hl := h.list.layout
  obtain ⟨hk, hcond⟩ := hguard
  rw [hl.minShift] at hk hcond
  obtain ⟨hlow, -, -⟩ := classShift_spec hl.minShift hl.minSize hsize
  have hshift : classShift s size - 3 + 3 = classShift s size := by omega
  rcases h.slot _ hk with hempty | ⟨i, hi⟩
  · exact Or.inl ⟨slabAllocLocked_fresh hl hsize hk hempty, Or.inl hempty⟩
  · have hcover : (⟨i, 1⟩ : Run).Covers i := Run.covers_start Nat.one_pos
    have hin := h.list.tiles.lt_of_covers (List.mem_append_right _ hi.run) hcover
    obtain ⟨-, hslot⟩ := slot_lt_pages hl hk
    obtain ⟨-, -, h16⟩ := hl.valid_slot hk
    obtain ⟨-, -, h16'⟩ := hl.valid_page hin
    have hne : s.slot (classShift s size - 3) ≠ s.page i := by
      rw [page_eq]
      omega
    have hmax : ¬ P.geometry.slabMaxSize < size := by
      rw [P.geometry_eq]
      exact Nat.not_lt.mpr hsize
    rw [hi.slot_next, hshift.symm] at hcond
    rcases hcond with hempty | hscan
    · exact absurd hempty.symm (by rwa [hshift])
    · have hstart : slabAllocLocked P.geometry fuel s size =
          (scanClass P.geometry fuel s (s.page i) (classShift s size) >>= fun found =>
            found.elim (newClass P.geometry fuel s (classShift s size) (classShift s size - 3))
              pure) := by
        unfold slabAllocLocked
        rw [if_neg hmax]
        dsimp only
        rw [hl.minShift, Pool.load_ok h16, ok_bind, hi.slot_next, Pool.load_ok h16', ok_bind,
          hi.next]
        refine (if_pos hne).trans (congrArg
          (scanClass P.geometry fuel s (s.page i) (classShift s size) >>= ·) (funext fun found => ?_))
        cases found with
        | none => rfl
        | some r => rfl
      rcases scanClass_returns hl hk hin hi fuel hscan with ⟨hrun, hfull⟩ | ⟨p, t, hrun, hgranted⟩
      · rw [hshift] at hrun hfull
        rw [hstart, hrun, ok_bind]
        exact Or.inl ⟨rfl, Or.inr ⟨i, hi, hfull⟩⟩
      · rw [hshift] at hrun
        rw [hstart, hrun, ok_bind]
        exact Or.inr ⟨i, p, t, hi, hrun, hgranted, rfl⟩

/-- An allocation that the condition admits: it returns and keeps the lists,
given one step for each free run. -/
theorem alloc_cases (h : ListInv P N s frees runs) {size : ℕ} {live : List Block}
    (hguard : Returning P ⟨s, live⟩ (.alloc size)) (fuel : ℕ) :
    (slabAllocLocked P.geometry fuel s size = outOfFuel ∧ fuel ≤ frees.length) ∨
      ∃ p s' frees' runs', slabAllocLocked P.geometry fuel s size = Except.ok (p, s') ∧
        ListInv P N s' frees' runs' := by
  have hl := h.list.layout
  obtain ⟨hpages, hclass⟩ := hguard
  by_cases hsize : unit P < size
  · rcases allocPages_cases h.list hsize (Nat.pos_of_ne_zero (hpages hsize)) fuel with
      hcase | hcase | ⟨i, frees', s', hr, hcase, hfree, halloc⟩
    · exact Or.inl hcase
    · exact Or.inr ⟨0, s, _, _, hcase, h⟩
    · exact Or.inr ⟨_, s', frees', _, hcase, h.pages hfree halloc⟩
  · have hsize := Nat.not_lt.mp hsize
    have hscannable := hclass hsize
    have hk := hscannable.1
    dsimp only at hk
    rw [hl.minShift] at hk
    obtain ⟨hlow, -, -⟩ := classShift_spec hl.minShift hl.minSize hsize
    rcases alloc_route h hsize hscannable fuel with ⟨hroute, -⟩ | ⟨i, p, t, hi, -, hgranted, hroute⟩
    · rw [hroute]
      rcases newClass_cases h.list hlow hk fuel with
        hcase | ⟨-, hcase⟩ | ⟨i, frees', s', -, hcase, hfree, hnew⟩
      · exact Or.inl hcase
      · exact Or.inr ⟨0, s, _, _, hcase, h⟩
      · rw [← show classShift s size - 3 + 3 = classShift s size by omega] at hnew
        exact Or.inr ⟨_, s', frees', _, hcase, h.chunk hk hfree hnew⟩
    · exact Or.inr ⟨p, t, _, _, hroute, h.scanned hk hi hgranted.toScanned⟩

end

/-- One admitted call keeps the lists. -/
theorem step_inv {P : PageSize} {N : ℕ} {st st' : State} {c : Call} {frees runs : List Run}
    (h : ListInv P N st.pool frees runs) (hguard : Returning P st c) (hstep : Step P st c st') :
    ∃ frees' runs', ListInv P N st'.pool frees' runs' := by
  cases hstep with
  | allocBlock hsize hrun hp =>
    rcases alloc_cases h hguard _ with ⟨hcase, -⟩ | ⟨p, s', f, r, hcase, hinv⟩
    · rw [hcase] at hrun
      cases hrun
    · rw [hcase] at hrun
      cases hrun
      exact ⟨f, r, hinv⟩
  | allocNone hsize hrun =>
    rcases alloc_cases h hguard _ with ⟨hcase, -⟩ | ⟨p, s', f, r, hcase, hinv⟩
    · rw [hcase] at hrun
      cases hrun
    · rw [hcase] at hrun
      cases hrun
      exact ⟨f, r, hinv⟩
  | free hb hrun => exact hguard.elim

theorem reaches_inv {P : PageSize} {M : Mapping P} {size : ℕ} (hfit : Fits P size) {st : State}
    (hrun : Reaches P M size (Returning P) st) :
    ∃ frees runs, ListInv P (pageCount P M size) st.pool frees runs := by
  refine hrun.invariant
    (I := fun st => ∃ frees runs, ListInv P (pageCount P M size) st.pool frees runs) ?_ ?_
  · intro s hcreated
    exact ⟨_, _, created_freeList hcreated hfit, fun k hk => Or.inl (hcreated.slot_next k hk)⟩
  · rintro st st' c ⟨frees, runs, ih⟩ hc hstep
    exact step_inv ih hc hstep

/-- In every state that admitted calls reach, every admitted request returns. -/
theorem alloc_returns (P : PageSize) (M : Mapping P) (size : ℕ) (hfit : Fits P size) (st : State)
    (hrun : Reaches P M size (Returning P) st) (request : ℕ)
    (hguard : Returning P st (.alloc request)) :
    ∃ fuel p s', slabAllocLocked P.geometry fuel st.pool request = Except.ok (p, s') := by
  obtain ⟨frees, runs, hinv⟩ := reaches_inv hfit hrun
  rcases alloc_cases hinv hguard (frees.length + 1) with ⟨-, hle⟩ | ⟨p, s', -, -, hcase, -⟩
  · omega
  · exact ⟨_, p, s', hcase⟩

/-- A page of small chunks with one block is scanned. -/
theorem alloc_returns_partial :
    Fits smallPages 1 ∧ ∃ st, Reaches smallPages clearMapping 1 (Returning smallPages) st ∧
      st.live = [⟨69696, 8⟩] ∧ Returning smallPages st (.alloc 8) ∧
      ∃ fuel p s', slabAllocLocked smallPages.geometry fuel st.pool 8 = Except.ok (p, s') := by
  have hfit : Fits smallPages 1 := by decide
  have htrace : (do
      let s0 ← createShpool smallPages clearMapping 1
      let r1 ← slabAllocLocked smallPages.geometry 9 s0 8
      pure (decide (Scannable smallPages s0 8), r1.1, decide (Scannable smallPages r1.2 8))) =
        (Except.ok (true, 69696, true) : Exec _) := by decide +kernel
  obtain ⟨s0, h0, htrace⟩ := bind_eq_ok.mp htrace
  obtain ⟨⟨p1, s1⟩, h1, htrace⟩ := bind_eq_ok.mp htrace
  simp only [pure_eq_ok, Except.ok.injEq, Prod.mk.injEq, decide_eq_true_eq] at htrace
  obtain ⟨hscan, rfl, hscan'⟩ := htrace
  have hrun0 : Reaches smallPages clearMapping 1 (Returning smallPages) ⟨s0, []⟩ := Reaches.init h0
  have hrun1 := hrun0.call (c := .alloc 8)
    ⟨fun h => absurd h (by decide), fun _ => hscan⟩
    (Step.allocBlock (by omega) h1 (by omega))
  have hguard : Returning smallPages ⟨s1, [⟨69696, 8⟩]⟩ (.alloc 8) :=
    ⟨fun h => absurd h (by decide), fun _ => hscan'⟩
  exact ⟨hfit, _, hrun1, rfl, hguard,
    alloc_returns smallPages clearMapping 1 hfit _ hrun1 8 hguard⟩

/-- The mask of the scan never moves. -/
theorem scanExact_spins (fuel page : ℕ) (s : Pool) (hv : s.Valid (slabOf page))
    (hbit : s.word (slabOf page) &&& 1 ≠ 0) : scanExact fuel page s = outOfFuel := by
  induction fuel with
  | zero => rfl
  | succ fuel ih => rw [scanExact, Pool.load_ok hv, ok_bind, if_pos hbit, ih]

/-- The second block of 32 bytes, in a page of exact chunks, is searched for
ever. -/
theorem second_exact_spins :
    ∃ st, Reaches smallPages clearMapping 1 (fun _ _ => True) st ∧
      ∀ fuel, slabAllocLocked smallPages.geometry fuel st.pool 32 = outOfFuel := by
  have htrace : (do
      let s0 ← createShpool smallPages clearMapping 1
      let r1 ← slabAllocLocked smallPages.geometry 9 s0 32
      let s := r1.2
      pure ((r1.1, classShift s 32, s.minShift),
        (decide (s.Valid (nextOf (s.slot 2))), s.word (nextOf (s.slot 2))),
        (decide (s.Valid (nextOf 65824)), s.word (nextOf 65824)),
        (decide (s.Valid (slabOf 65824)), s.word (slabOf 65824)))) =
        (Except.ok ((69632, 5, 3), (true, 65824), (true, 65680), (true, 1)) : Exec _) := by
    decide +kernel
  obtain ⟨s0, h0, htrace⟩ := bind_eq_ok.mp htrace
  obtain ⟨⟨p1, s1⟩, h1, htrace⟩ := bind_eq_ok.mp htrace
  simp only [pure_eq_ok, Except.ok.injEq, Prod.mk.injEq, decide_eq_true_eq] at htrace
  obtain ⟨⟨rfl, hshift, hmin⟩, ⟨hv1, hnext1⟩, ⟨hv2, hnext2⟩, ⟨hv3, hslab⟩⟩ := htrace
  have hrun0 : Reaches smallPages clearMapping 1 (fun _ _ => True) ⟨s0, []⟩ := Reaches.init h0
  have hrun1 := hrun0.call (c := .alloc 32) trivial
    (Step.allocBlock (by omega) h1 (by omega))
  refine ⟨_, hrun1, ?_⟩
  intro fuel
  have hspin := scanExact_spins fuel 65824 s1 hv3 (by rw [hslab]; decide)
  dsimp only
  unfold slabAllocLocked
  rw [if_neg (by decide)]
  dsimp only
  rw [hshift, hmin, Pool.load_ok hv1, ok_bind, hnext1, Pool.load_ok hv2, ok_bind, hnext2,
    if_pos (by decide), scanClass, if_neg (by decide), if_pos (by decide), hspin]
  rfl

end HCore.SlabTermination
