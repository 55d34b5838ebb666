import HCore.SlabRuns

/-!
Reclamation. Freeing every block in use should return the pool to one free
run of all pages, from which a block of all bytes can be taken again. Both
parts fail in every state: a pointer inside the pool cannot be freed, because
its page index is a shift by the page size, and a block of all bytes asks for
twice the pages that the pool has.
-/

namespace HCore.SlabReclaim

open Words Machine Base SlabPool SlabPages SlabAlloc SlabLayout SlabClasses SlabRuns

/-- The pools that differ in the contents of memory only. -/
def Rewrites (s s' : Pool) : Prop := s' = s.setMem s'.mem

section

variable {s s' t : Pool}

theorem Rewrites.trans (h : Rewrites s s') (h' : Rewrites s' t) : Rewrites s t := by
  unfold Rewrites at *
  rw [h', h]
  rfl

theorem Rewrites.start (h : Rewrites s s') : s'.start = s.start := by
  rw [h]
  rfl

theorem Rewrites.endAddr (h : Rewrites s s') : s'.endAddr = s.endAddr := by
  rw [h]
  rfl

theorem Rewrites.pages (h : Rewrites s s') : s'.pages = s.pages := by
  rw [h]
  rfl

theorem Rewrites.pfree (h : Rewrites s s') : s'.pfree = s.pfree := by
  rw [h]
  rfl

theorem store_rewrites {a v : ℕ} (h : s.store a v = Except.ok s') : Rewrites s s' := by
  obtain ⟨m, -, h⟩ := bind_eq_ok.mp h
  cases h
  rfl

theorem removeFullPage_rewrites {page type : ℕ} (h : s.removeFullPage page type = Except.ok s') :
    Rewrites s s' := by
  obtain ⟨_, -, h⟩ := bind_eq_ok.mp h
  obtain ⟨_, -, h⟩ := bind_eq_ok.mp h
  obtain ⟨_, h1, h⟩ := bind_eq_ok.mp h
  obtain ⟨_, -, h⟩ := bind_eq_ok.mp h
  obtain ⟨_, -, h⟩ := bind_eq_ok.mp h
  obtain ⟨_, h2, h⟩ := bind_eq_ok.mp h
  obtain ⟨_, h3, h⟩ := bind_eq_ok.mp h
  exact (store_rewrites h1).trans ((store_rewrites h2).trans ((store_rewrites h3).trans
    (store_rewrites h)))

theorem markBusy_rewrites {n page p : ℕ} (h : markBusy n page p s = Except.ok s') :
    Rewrites s s' := by
  induction n generalizing p s with
  | zero =>
    cases h
    rfl
  | succ n ih =>
    obtain ⟨_, h1, h⟩ := bind_eq_ok.mp h
    obtain ⟨_, h2, h⟩ := bind_eq_ok.mp h
    obtain ⟨_, h3, h⟩ := bind_eq_ok.mp h
    exact (store_rewrites h1).trans ((store_rewrites h2).trans ((store_rewrites h3).trans (ih h)))

/-- What taking pages does to the header of a pool. -/
structure Takes (s s' : Pool) (n : ℕ) : Prop where
  start : s'.start = s.start
  endAddr : s'.endAddr = s.endAddr
  pages : s'.pages = s.pages
  pfree : s'.pfree = toUInt32 ((s.pfree : ℤ) - n)

theorem Takes.of_rewrites {n : ℕ} (h : Rewrites s s') (h' : Takes s' t n) : Takes s t n :=
  ⟨h'.start.trans h.start, h'.endAddr.trans h.endAddr, h'.pages.trans h.pages, h.pfree ▸ h'.pfree⟩

theorem mark_takes {page n p : ℕ}
    (h : (do
      let s ← s.store (slabOf page) (n ||| slabPageStart)
      let s ← s.store (nextOf page) 0
      let s ← s.setPagePrev page 0 slabPage
      let s := { s with pfree := toUInt32 ((s.pfree : ℤ) - n) }
      let s ← markBusy (toUInt32 ((n : ℤ) - 1)) page (page + pageSize) s
      pure (page, s)) = Except.ok (p, s')) : p = page ∧ Takes s s' n := by
  obtain ⟨s1, h1, h⟩ := bind_eq_ok.mp h
  obtain ⟨s2, h2, h⟩ := bind_eq_ok.mp h
  obtain ⟨s3, h3, h⟩ := bind_eq_ok.mp h
  obtain ⟨s4, h4, h⟩ := bind_eq_ok.mp h
  have hrest := (store_rewrites h1).trans ((store_rewrites h2).trans (store_rewrites h3))
  have hbusy := markBusy_rewrites h4
  cases h
  refine ⟨rfl, Takes.of_rewrites hrest ⟨?_, ?_, ?_, ?_⟩⟩
  · rw [hbusy.start]
  · rw [hbusy.endAddr]
  · rw [hbusy.pages]
  · rw [hbusy.pfree]

/-- Taking pages returns the head and lowers the count of free pages. -/
theorem takePages_takes {page n p : ℕ} (h : takePages s page n = Except.ok (p, s')) :
    p = page ∧ Takes s s' n := by
  obtain ⟨slab, -, h⟩ := bind_eq_ok.mp h
  dsimp only at h
  by_cases hn : n < slab
  · rw [if_pos hn] at h
    obtain ⟨s1, h1, h⟩ := bind_eq_ok.mp h
    obtain ⟨_, -, h⟩ := bind_eq_ok.mp h
    obtain ⟨s2, h2, h⟩ := bind_eq_ok.mp h
    obtain ⟨_, -, h⟩ := bind_eq_ok.mp h
    obtain ⟨s3, h3, h⟩ := bind_eq_ok.mp h
    obtain ⟨_, -, h⟩ := bind_eq_ok.mp h
    obtain ⟨s4, h4, h⟩ := bind_eq_ok.mp h
    obtain ⟨_, -, h⟩ := bind_eq_ok.mp h
    obtain ⟨s5, h5, h⟩ := bind_eq_ok.mp h
    obtain ⟨_, -, h⟩ := bind_eq_ok.mp h
    obtain ⟨s6, h6, h⟩ := bind_eq_ok.mp h
    obtain ⟨hp, htakes⟩ := mark_takes h
    refine ⟨hp, Takes.of_rewrites ?_ htakes⟩
    exact (store_rewrites h1).trans ((store_rewrites h2).trans ((store_rewrites h3).trans
      ((store_rewrites h4).trans ((store_rewrites h5).trans (store_rewrites h6)))))
  · rw [if_neg hn] at h
    obtain ⟨_, -, h⟩ := bind_eq_ok.mp h
    obtain ⟨_, -, h⟩ := bind_eq_ok.mp h
    obtain ⟨s1, h1, h⟩ := bind_eq_ok.mp h
    obtain ⟨_, -, h⟩ := bind_eq_ok.mp h
    obtain ⟨_, -, h⟩ := bind_eq_ok.mp h
    obtain ⟨s2, h2, h⟩ := bind_eq_ok.mp h
    obtain ⟨hp, htakes⟩ := mark_takes h
    exact ⟨hp, Takes.of_rewrites ((store_rewrites h1).trans (store_rewrites h2)) htakes⟩

/-- Page allocation finds nothing and changes nothing, or takes pages. -/
theorem allocPagesFrom_takes {fuel page n p : ℕ}
    (h : allocPagesFrom fuel s page n = Except.ok (p, s')) :
    (p = 0 ∧ s' = s) ∨ Takes s s' n := by
  induction fuel generalizing page with
  | zero => cases h
  | succ fuel ih =>
    rw [allocPagesFrom] at h
    split at h
    · cases h
      exact Or.inl ⟨rfl, rfl⟩
    · obtain ⟨slab, -, h⟩ := bind_eq_ok.mp h
      split at h
      · exact Or.inr (takePages_takes h).2
      · obtain ⟨next, -, h⟩ := bind_eq_ok.mp h
        exact ih h

theorem slabAllocPages_takes {fuel n p : ℕ} (h : slabAllocPages fuel s n = Except.ok (p, s')) :
    (p = 0 ∧ s' = s) ∨ Takes s s' n := by
  obtain ⟨page, -, h⟩ := bind_eq_ok.mp h
  exact allocPagesFrom_takes h

theorem fillMaps_rewrites {n bitmap i v : ℕ} (h : fillMaps n bitmap i v s = Except.ok s') :
    Rewrites s s' := by
  induction n generalizing i s with
  | zero =>
    cases h
    rfl
  | succ n ih =>
    obtain ⟨_, h1, h⟩ := bind_eq_ok.mp h
    exact (store_rewrites h1).trans (ih h)

theorem linkNewPage_rewrites {page slot slab type : ℕ}
    (h : linkNewPage s page slot slab type = Except.ok s') : Rewrites s s' := by
  obtain ⟨_, h1, h⟩ := bind_eq_ok.mp h
  obtain ⟨_, h2, h⟩ := bind_eq_ok.mp h
  obtain ⟨_, h3, h⟩ := bind_eq_ok.mp h
  exact (store_rewrites h1).trans ((store_rewrites h2).trans ((store_rewrites h3).trans
    (store_rewrites h)))

theorem newSmall_rewrites {g : Geometry} {page shift slot p : ℕ}
    (h : newSmall g s page shift slot = Except.ok (p, s')) : Rewrites s s' := by
  obtain ⟨_, -, h⟩ := bind_eq_ok.mp h
  obtain ⟨_, h1, h⟩ := bind_eq_ok.mp h
  obtain ⟨_, h2, h⟩ := bind_eq_ok.mp h
  obtain ⟨_, h3, h⟩ := bind_eq_ok.mp h
  obtain ⟨_, h4, h⟩ := bind_eq_ok.mp h
  obtain ⟨_, -, h⟩ := bind_eq_ok.mp h
  cases h
  exact (fillMaps_rewrites h1).trans ((store_rewrites h2).trans ((fillMaps_rewrites h3).trans
    (linkNewPage_rewrites h4)))

theorem newChunk_rewrites {g : Geometry} {page slab type slot p : ℕ}
    (h : (linkNewPage s page slot slab type >>= fun t =>
      t.getPageAddr page g.pagesizeShift >>= fun p => pure (p, t)) = Except.ok (p, s')) :
    Rewrites s s' := by
  obtain ⟨_, h1, h⟩ := bind_eq_ok.mp h
  obtain ⟨_, -, h⟩ := bind_eq_ok.mp h
  cases h
  exact linkNewPage_rewrites h1

/-- The pools with the same place and size. -/
def Keeps (s s' : Pool) : Prop := s'.start = s.start ∧ s'.endAddr = s.endAddr

theorem Rewrites.keeps (h : Rewrites s s') : Keeps s s' := ⟨h.start, h.endAddr⟩

theorem Keeps.trans (h : Keeps s s') (h' : Keeps s' t) : Keeps s t :=
  ⟨h'.1.trans h.1, h'.2.trans h.2⟩

theorem newClass_keeps {g : Geometry} {fuel shift slot p : ℕ}
    (h : newClass g fuel s shift slot = Except.ok (p, s')) : Keeps s s' := by
  obtain ⟨⟨page, s1⟩, h1, h⟩ := bind_eq_ok.mp h
  have hpages : Keeps s s1 := by
    rcases slabAllocPages_takes h1 with ⟨-, rfl⟩ | htakes
    · exact ⟨rfl, rfl⟩
    · exact ⟨htakes.start, htakes.endAddr⟩
  dsimp only at h
  split at h
  · refine hpages.trans ?_
    split at h
    · exact (newSmall_rewrites h).keeps
    · split at h
      · exact (newChunk_rewrites h).keeps
      · exact (newChunk_rewrites h).keeps
  · cases h
    exact hpages

/-- What the scan of a page of small chunks hands out, by the word of the map. -/
theorem scanSmall_some {n page bitmap shift mapN i : ℕ} {r : ℕ × Pool}
    (h : scanSmall n page bitmap shift mapN i s = Except.ok (some r)) :
    (∃ j < i + n, r.1 = bitmap + (j * 8 * 8 + j) <<< shift) ∧ Rewrites s r.2 := by
  induction n generalizing i with
  | zero => cases h
  | succ n ih =>
    obtain ⟨w, -, h⟩ := bind_eq_ok.mp h
    split at h
    · obtain ⟨⟨j, hj, hp⟩, hrewrites⟩ := ih h
      exact ⟨⟨j, by omega, hp⟩, hrewrites⟩
    · obtain ⟨s1, h1, h⟩ := bind_eq_ok.mp h
      have hstore := store_rewrites h1
      dsimp only at h
      split at h
      · obtain ⟨full, -, h⟩ := bind_eq_ok.mp h
        split at h
        · obtain ⟨s2, h2, h⟩ := bind_eq_ok.mp h
          cases h
          exact ⟨⟨i, by omega, rfl⟩, hstore.trans (removeFullPage_rewrites h2)⟩
        · cases h
          exact ⟨⟨i, by omega, rfl⟩, hstore⟩
      · cases h
        exact ⟨⟨i, by omega, rfl⟩, hstore⟩

theorem scanExact_error {fuel page : ℕ} {r : ℕ × Pool} : scanExact fuel page s ≠ Except.ok r := by
  induction fuel with
  | zero =>
    intro h
    cases h
  | succ fuel ih =>
    intro h
    obtain ⟨slab, -, h⟩ := bind_eq_ok.mp h
    split at h
    · exact ih h
    · obtain ⟨s1, -, h⟩ := bind_eq_ok.mp h
      dsimp only at h
      split at h
      · obtain ⟨s2, -, h⟩ := bind_eq_ok.mp h
        cases h
      · cases h

/-- A chunk of a page of big chunks is given the address of the page. -/
theorem scanBig_some {g : Geometry} {page shift : ℕ} {r : ℕ × Pool}
    (h : scanBig g s page shift = Except.ok (some r)) :
    r.2.getPageAddr page g.pagesizeShift = Except.ok r.1 ∧ Rewrites s r.2 := by
  obtain ⟨_, -, h⟩ := bind_eq_ok.mp h
  obtain ⟨_, -, h⟩ := bind_eq_ok.mp h
  obtain ⟨_, -, h⟩ := bind_eq_ok.mp h
  split at h
  · cases h
  · obtain ⟨s1, h1, h⟩ := bind_eq_ok.mp h
    have hstore := store_rewrites h1
    generalize (if slabMapMask = _ then 1 else 0) = flag at h
    dsimp only at h
    split at h
    · obtain ⟨s2, h2, h⟩ := bind_eq_ok.mp h
      obtain ⟨_, haddr, h⟩ := bind_eq_ok.mp h
      cases h
      exact ⟨haddr, hstore.trans (removeFullPage_rewrites h2)⟩
    · obtain ⟨s2, h2, h⟩ := bind_eq_ok.mp h
      obtain ⟨_, haddr, h⟩ := bind_eq_ok.mp h
      cases h
      cases h2
      exact ⟨haddr, hstore⟩

theorem scanClass_rewrites {g : Geometry} {fuel page shift : ℕ} {r : ℕ × Pool}
    (h : scanClass g fuel s page shift = Except.ok (some r)) : Rewrites s r.2 := by
  unfold scanClass at h
  split at h
  · obtain ⟨_, -, h⟩ := bind_eq_ok.mp h
    exact (scanSmall_some h).2
  · split at h
    · obtain ⟨r', h', -⟩ := bind_eq_ok.mp h
      exact absurd h' scanExact_error
    · exact (scanBig_some h).2

/-- An allocation that returns leaves the pool in its place. -/
theorem slabAllocLocked_keeps {g : Geometry} {fuel size p : ℕ}
    (h : slabAllocLocked g fuel s size = Except.ok (p, s')) : Keeps s s' := by
  unfold slabAllocLocked at h
  split at h
  · obtain ⟨⟨page, s1⟩, h1, h⟩ := bind_eq_ok.mp h
    have hpages : Keeps s s1 := by
      rcases slabAllocPages_takes h1 with ⟨-, rfl⟩ | htakes
      · exact ⟨rfl, rfl⟩
      · exact ⟨htakes.start, htakes.endAddr⟩
    dsimp only at h
    split at h
    · obtain ⟨_, -, h⟩ := bind_eq_ok.mp h
      cases h
      exact hpages
    · cases h
      exact hpages
  · dsimp only at h
    obtain ⟨page, -, h⟩ := bind_eq_ok.mp h
    obtain ⟨next, -, h⟩ := bind_eq_ok.mp h
    rw [ite_bind] at h
    obtain ⟨found, hfound, h⟩ := bind_eq_ok.mp h
    cases found with
    | none => exact newClass_keeps h
    | some r =>
      cases h
      split at hfound
      · exact (scanClass_rewrites hfound).keeps
      · cases hfound

/-- Freeing inside the pool is a shift by at least 4096. -/
theorem slabFreeLocked_inside {P : PageSize} {a : ℕ} (hlow : s.start ≤ a) (hhigh : a ≤ s.endAddr) :
    slabFreeLocked P.geometry s a = undefined := by
  have hbytes := bytes_ge P
  have hshift : shiftRight64 (a - s.start) P.geometry.pagesize = undefined := by
    rw [geometry_pagesize]
    exact if_neg (by omega)
  unfold slabFreeLocked
  rw [if_neg (by omega), hshift]
  rfl

theorem slabFreeLocked_outside {g : Geometry} {a : ℕ} (h : a < s.start ∨ s.endAddr < a) :
    slabFreeLocked g s a = Except.ok s := if_pos h

/-- A release that returns was one of an address outside of the pool. -/
theorem slabFreeLocked_returns {P : PageSize} {a : ℕ}
    (hrun : slabFreeLocked P.geometry s a = Except.ok s') :
    s' = s ∧ ¬ (s.start ≤ a ∧ a ≤ s.endAddr) := by
  by_cases hin : s.start ≤ a ∧ a ≤ s.endAddr
  · rw [slabFreeLocked_inside hin.1 hin.2] at hrun
    cases hrun
  · rw [slabFreeLocked_outside (by omega)] at hrun
    exact ⟨(Except.ok.inj hrun).symm, hin⟩

end

section

variable {P : PageSize} {M : Mapping P} {size : ℕ} {s s' : Pool}

theorem roughCount_room (P : PageSize) (M : Mapping P) (size : ℕ) :
    startAddr P M size + unit P ≤ M.base + mapSize P size := by
  have hroom := rough_room P M size
  have hsize := mapSize_ge P size
  have hbytes := bytes_ge P
  have hslots := slotCount_le P
  have hunit := bytes_eq P
  have hlt := alignPtr_lt P (pagesAddr P M + roughCount P M size * 24)
  have hpages : pagesAddr P M = M.base + 96 + 24 * slotCount P := rfl
  unfold startAddr
  rw [Nat.mul_add] at hroom
  rcases Nat.lt_or_ge (roughCount P M size) 2 with hfew | hmany
  · omega
  · have hmul := Nat.mul_le_mul_right P.bytes hmany
    omega

theorem created_valid (h : Created P M size s) {a : ℕ} (hlow : M.base ≤ a)
    (hhigh : a + 8 ≤ pagesAddr P M + 24) (hmod : a % 8 = 0) : s.Valid a := by
  have hsize := mapSize_ge P size
  have hbytes := bytes_ge P
  have hslots := slotCount_le P
  have hpages : pagesAddr P M = M.base + 96 + 24 * slotCount P := rfl
  refine ⟨?_, ?_, hmod⟩
  · rw [h.lo]
    exact hlow
  · rw [h.hi]
    omega

theorem created_mod (h : Created P M size s) : s.free = M.base + 40 ∧ s.page 0 = pagesAddr P M ∧
    M.base % 8 = 0 := by
  refine ⟨?_, ?_, ?_⟩
  · rw [Pool.free, h.addr, freeOffset]
  · rw [Pool.page, h.pages, Nat.mul_zero, Nat.add_zero]
  · exact Nat.mod_eq_zero_of_dvd ((eight_dvd_bytes P).trans M.base_aligned)

theorem created_page_ne (h : Created P M size s) : s.page 0 ≠ 0 := by
  have hbase := base_ge P M
  have hpages : pagesAddr P M = M.base + 96 + 24 * slotCount P := rfl
  rw [(created_mod h).2.1]
  omega

/-- Page allocation in a new pool takes the first page or nothing. -/
theorem created_allocPages (h : Created P M size s) {fuel n p : ℕ}
    (hrun : slabAllocPages fuel s n = Except.ok (p, s')) :
    (p = 0 ∧ s' = s) ∨ (p = s.page 0 ∧ n ≤ pageCount P M size ∧ Takes s s' n) := by
  obtain ⟨hfree, hpage, hmod⟩ := created_mod h
  have hpages : pagesAddr P M = M.base + 96 + 24 * slotCount P := rfl
  have hv1 : s.Valid (nextOf s.free) := by
    apply created_valid h <;> unfold nextOf <;> omega
  have hv2 : s.Valid (slabOf (s.page 0)) := by
    apply created_valid h <;> unfold slabOf <;> omega
  have hv3 : s.Valid (nextOf (s.page 0)) := by
    apply created_valid h <;> unfold nextOf <;> omega
  unfold slabAllocPages at hrun
  rw [Pool.load_ok hv1, ok_bind, h.free_next] at hrun
  cases fuel with
  | zero => cases hrun
  | succ fuel =>
    rw [allocPagesFrom, if_neg (by omega), Pool.load_ok hv2, ok_bind, h.head_slab] at hrun
    split at hrun
    · next hle =>
      obtain ⟨hp, htakes⟩ := takePages_takes hrun
      exact Or.inr ⟨hp, hle, htakes⟩
    · rw [Pool.load_ok hv3, ok_bind, h.head_next] at hrun
      cases fuel with
      | zero => cases hrun
      | succ fuel =>
        rw [allocPagesFrom, if_pos rfl] at hrun
        cases hrun
        exact Or.inl ⟨rfl, rfl⟩

theorem getPageAddr_first {t : Pool} {p : ℕ} (hpages : t.pages = s.pages) (hstart : t.start = s.start)
    (hrun : t.getPageAddr (s.page 0) P.geometry.pagesizeShift = Except.ok p) : p = s.start := by
  have hpage : s.page 0 = t.page 0 := by rw [Pool.page, Pool.page, hpages]
  rw [hpage, getPageAddr_page] at hrun
  cases hrun
  rw [pageAddr, hstart, Nat.zero_mul, Nat.add_zero]

/-- The first chunk of a class in a new pool lies in its first page. -/
theorem created_newClass (h : Created P M size s) {fuel shift slot p : ℕ} (hlow : 3 ≤ shift)
    (hrun : newClass P.geometry fuel s shift slot = Except.ok (p, s')) :
    (p = 0 ∧ s' = s) ∨
      (1 ≤ pageCount P M size ∧ s.start ≤ p ∧ p ≤ s.start + unit P) := by
  have hexact : P.geometry.slabExactShift = P.log - 7 := by rw [P.geometry_eq]
  obtain ⟨⟨page, s1⟩, h1, hrest⟩ := bind_eq_ok.mp hrun
  rcases created_allocPages h h1 with ⟨hpage, hs⟩ | ⟨hpage, hcount, htakes⟩
  · dsimp only at hrest
    rw [if_neg (not_not.mpr hpage)] at hrest
    cases hrest
    exact Or.inl ⟨rfl, hs⟩
  · subst hpage
    clear hrun
    rename' hrest => hrun
    refine Or.inr ⟨hcount, ?_⟩
    have hother {slab type : ℕ}
        (hrun : (linkNewPage s1 (s.page 0) slot slab type >>= fun t =>
          t.getPageAddr (s.page 0) P.geometry.pagesizeShift >>= fun p => pure (p, t)) =
          Except.ok (p, s')) : p = s.start := by
      obtain ⟨t, h2, hrun⟩ := bind_eq_ok.mp hrun
      obtain ⟨q, h3, hrun⟩ := bind_eq_ok.mp hrun
      have hkeep := linkNewPage_rewrites h2
      cases hrun
      exact getPageAddr_first (hkeep.pages.trans htakes.pages) (hkeep.start.trans htakes.start) h3
    dsimp only at hrun
    rw [if_pos (created_page_ne h)] at hrun
    split at hrun
    · next hsmall =>
      obtain ⟨_, -, hrun⟩ := bind_eq_ok.mp hrun
      obtain ⟨s2, h2, hrun⟩ := bind_eq_ok.mp hrun
      obtain ⟨s3, h3, hrun⟩ := bind_eq_ok.mp hrun
      obtain ⟨s4, h4, hrun⟩ := bind_eq_ok.mp hrun
      obtain ⟨s5, h5, hrun⟩ := bind_eq_ok.mp hrun
      obtain ⟨q, h6, hrun⟩ := bind_eq_ok.mp hrun
      have hkeep := (fillMaps_rewrites h2).trans ((store_rewrites h3).trans
        ((fillMaps_rewrites h4).trans (linkNewPage_rewrites h5)))
      have hq := getPageAddr_first (hkeep.pages.trans htakes.pages)
        (hkeep.start.trans htakes.start) h6
      obtain ⟨-, -, -, -, hroom⟩ := bitmap_room P hlow (hexact ▸ hsmall)
      rw [Nat.add_mul] at hroom
      cases hrun
      rw [hq, Nat.shiftLeft_eq]
      omega
    · split at hrun
      · have hp := hother hrun
        omega
      · have hp := hother hrun
        omega

/-- A chunk is never found on the header of the free list. -/
theorem created_scan (h : Created P M size s) {fuel shift : ℕ} {r : ℕ × Pool}
    (hbig : P.geometry.slabExactShift < shift) :
    scanClass P.geometry fuel s s.free shift ≠ Except.ok (some r) := by
  intro hrun
  have hlow : s.free < s.pages := by
    rw [(created_mod h).1, h.pages, pagesAddr]
    omega
  have hnone {t : Pool} {q : ℕ} (ht : t.pages = s.pages) :
      t.getPageAddr s.free P.geometry.pagesizeShift ≠ Except.ok q := by
    intro hq
    obtain ⟨_, hq, -⟩ := bind_eq_ok.mp hq
    unfold Pool.pageIndex at hq
    rw [if_neg (by omega)] at hq
    cases hq
  unfold scanClass at hrun
  rw [if_neg (by omega), if_neg (by omega)] at hrun
  obtain ⟨_, -, hrun⟩ := bind_eq_ok.mp hrun
  obtain ⟨_, -, hrun⟩ := bind_eq_ok.mp hrun
  obtain ⟨_, -, hrun⟩ := bind_eq_ok.mp hrun
  split at hrun
  · cases hrun
  · obtain ⟨s1, h1, hrun⟩ := bind_eq_ok.mp hrun
    have hkeep := store_rewrites h1
    generalize (if slabMapMask = _ then 1 else 0) = flag at hrun
    dsimp only at hrun
    split at hrun
    · obtain ⟨s2, h2, hrun⟩ := bind_eq_ok.mp hrun
      obtain ⟨_, h3, -⟩ := bind_eq_ok.mp hrun
      exact hnone ((removeFullPage_rewrites h2).pages.trans hkeep.pages) h3
    · obtain ⟨s2, h2, hrun⟩ := bind_eq_ok.mp hrun
      obtain ⟨_, h3, -⟩ := bind_eq_ok.mp hrun
      cases h2
      exact hnone hkeep.pages h3

/-- The slot behind the last slot head is the first page descriptor, whose list
leads to the header of the free list. -/
theorem created_slot (h : Created P M size s) {k page next : ℕ} (hk : k ≤ slotCount P)
    (hpage : page = s.word (nextOf (s.slot k))) (hnext : next = s.word (nextOf page)) :
    next = page ∨ (k = slotCount P ∧ page = s.free) := by
  rcases Nat.lt_or_eq_of_le hk with hlt | heq
  · rw [h.slot_next k hlt] at hpage
    rw [hpage, h.slot_next k hlt] at hnext
    exact Or.inl (hnext.trans hpage.symm)
  · have halias : s.slot k = s.page 0 := by
      simp only [Pool.slot, Pool.getSlots, Pool.page, h.addr, h.pages, pagesAddr, poolSize,
        pageSize, heq]
      omega
    rw [halias, h.head_next] at hpage
    exact Or.inr ⟨heq, hpage⟩

/-- A block from a new pool starts inside it, and the pool has its pages. -/
theorem created_alloc (h : Created P M size s) {fuel request p : ℕ}
    (hrun : slabAllocLocked P.geometry fuel s request = Except.ok (p, s')) :
    (p = 0 ∧ s' = s) ∨ ((s.start ≤ p ∧ p ≤ s.endAddr) ∧
      (unit P < request → requestPages P.geometry request ≤ pageCount P M size ∧
        Takes s s' (requestPages P.geometry request)) ∧
      (request ≤ unit P → 1 ≤ pageCount P M size)) := by
  have hmax : P.geometry.slabMaxSize = unit P := by
    rw [P.geometry_eq]
    rfl
  have hroom := roughCount_room P M size
  rw [← h.start, ← h.endAddr] at hroom
  unfold slabAllocLocked at hrun
  rw [hmax] at hrun
  by_cases hlarge : unit P < request
  · rw [if_pos hlarge] at hrun
    obtain ⟨⟨page, s1⟩, h1, hrest⟩ := bind_eq_ok.mp hrun
    dsimp only at hrest
    rcases created_allocPages h h1 with ⟨hpage, hs⟩ | ⟨hpage, hcount, htakes⟩
    · rw [if_neg (not_not.mpr hpage)] at hrest
      cases hrest
      exact Or.inl ⟨rfl, hs⟩
    · subst hpage
      rw [if_pos (created_page_ne h)] at hrest
      obtain ⟨q, h2, hret⟩ := bind_eq_ok.mp hrest
      have hq := getPageAddr_first htakes.pages htakes.start h2
      cases hret
      exact Or.inr ⟨⟨by omega, by omega⟩, fun _ => ⟨hcount, htakes⟩, by omega⟩
  · have hsize := Nat.not_lt.mp hlarge
    obtain ⟨hlow, hhigh, -⟩ := classShift_spec h.minShift h.minSize hsize
    rw [if_neg hlarge] at hrun
    dsimp only at hrun
    obtain ⟨page, h1, hrun⟩ := bind_eq_ok.mp hrun
    obtain ⟨next, h2, hrun⟩ := bind_eq_ok.mp hrun
    rw [ite_bind] at hrun
    obtain ⟨found, hfound, hrun⟩ := bind_eq_ok.mp hrun
    rw [h.minShift] at h1
    have hslot := created_slot h (by unfold slotCount; omega) (Pool.load_eq_ok h1)
      (Pool.load_eq_ok h2)
    cases found with
    | none =>
      rcases created_newClass h hlow hrun with hnone | ⟨hcount, hstart, hstop⟩
      · exact Or.inl hnone
      · exact Or.inr ⟨⟨hstart, by omega⟩, by omega, fun _ => hcount⟩
    | some r =>
      exfalso
      rcases hslot with hsame | ⟨hk, rfl⟩
      · rw [if_neg (not_not.mpr hsame)] at hfound
        cases hfound
      · have hbig : P.geometry.slabExactShift < classShift s request := by
          have hlog := P.log_ge
          rw [P.geometry_eq]
          dsimp only
          unfold slotCount at hk
          omega
        split at hfound
        · exact created_scan h hbig hfound
        · cases hfound

end

/-- Free the blocks in the order of the list. -/
def freeAll (g : Geometry) : List Block → Pool → Exec Pool
  | [], s => pure s
  | b :: order, s => do
    let s ← slabFreeLocked g s b.addr
    freeAll g order s

/-- One free run of all pages, and no page in the list of a class. -/
structure Restored (P : PageSize) (N : ℕ) (s : Pool) : Prop where
  pfree : s.pfree = N
  first : s.word (nextOf s.free) = s.page 0
  run : s.word (slabOf (s.page 0)) = N
  next : s.word (nextOf (s.page 0)) = s.free
  prev : s.word (prevOf (s.page 0)) = s.free
  slots : ∀ k < slotCount P, s.word (nextOf (s.slot k)) = s.slot k

/-- A block of all bytes can be taken, and it takes all pages. -/
def Regains (P : PageSize) (N : ℕ) (s : Pool) : Prop :=
  ∃ fuel p s', slabAllocLocked P.geometry fuel s (N * P.bytes) = Except.ok (p, s') ∧ p ≠ 0 ∧
    s'.pfree = 0

/-- In every order, freeing the blocks restores the pool. -/
def Reclaims (P : PageSize) (N : ℕ) (st : State) : Prop :=
  ∀ order, order.Perm st.live →
    ∃ s', freeAll P.geometry order st.pool = Except.ok s' ∧ Restored P N s' ∧ Regains P N s'

section

variable {P : PageSize} {M : Mapping P} {size : ℕ} {s : Pool} {st st' : State}

/-- Nothing is held from a new pool, or a block that starts inside it is. -/
def Held (P : PageSize) (M : Mapping P) (size : ℕ) (st : State) : Prop :=
  (st.live = [] ∧ Created P M size st.pool) ∨
    ∃ b ∈ st.live, st.pool.start ≤ b.addr ∧ b.addr ≤ st.pool.endAddr

theorem created_restored (h : Created P M size s) : Restored P (pageCount P M size) s :=
  ⟨h.pfree, h.free_next, h.head_slab, h.head_next, h.head_prev, h.slot_next⟩

/-- A call that returns keeps a held block, since it cannot be freed. -/
theorem step_held {c : Call} (h : Held P M size st) (hstep : Step P st c st') :
    Held P M size st' := by
  cases hstep with
  | allocBlock hsize hrun hp =>
    obtain ⟨hstart, hend⟩ := slabAllocLocked_keeps hrun
    right
    dsimp only
    rw [hstart, hend]
    rcases h with ⟨hlive, hcreated⟩ | ⟨b, hb, hrange⟩
    · rcases created_alloc hcreated hrun with ⟨hzero, -⟩ | ⟨hrange, -⟩
      · exact absurd hzero hp
      · exact ⟨_, List.mem_cons_self, hrange⟩
    · exact ⟨b, List.mem_cons_of_mem _ hb, hrange⟩
  | allocNone hsize hrun =>
    obtain ⟨hstart, hend⟩ := slabAllocLocked_keeps hrun
    rcases h with ⟨hlive, hcreated⟩ | ⟨b, hb, hrange⟩
    · rcases created_alloc hcreated hrun with ⟨-, rfl⟩ | ⟨⟨hlow, -⟩, -⟩
      · exact Or.inl ⟨hlive, hcreated⟩
      · have hbase := base_ge P M
        have halign := le_alignPtr P (pagesAddr P M + roughCount P M size * 24)
        have hstart' := hcreated.start
        rw [startAddr] at hstart'
        have hpages : pagesAddr P M = M.base + 96 + 24 * slotCount P := rfl
        dsimp only at hlow hstart'
        omega
    · refine Or.inr ⟨b, hb, ?_⟩
      dsimp only
      rw [hstart, hend]
      exact hrange
  | @free s s' live b hb hrun =>
    rcases h with ⟨hlive, -⟩ | ⟨b', hb', hlow, hhigh⟩
    · dsimp only at hlive
      rw [hlive] at hb
      cases hb
    · dsimp only at hb' hlow hhigh
      obtain ⟨rfl, hout⟩ := slabFreeLocked_returns hrun
      have hne : b' ≠ b := by
        rintro rfl
        exact hout ⟨hlow, hhigh⟩
      exact Or.inr ⟨b', (List.mem_erase_of_ne hne).mpr hb', hlow, hhigh⟩

theorem reaches_held {guard : State → Call → Prop} (hrun : Reaches P M size guard st) :
    Held P M size st := by
  refine hrun.invariant (I := Held P M size) ?_ ?_
  · intro s hcreated
    exact Or.inl ⟨rfl, hcreated⟩
  · intro st st' c ih _ hstep
    exact step_held ih hstep

/-- Freeing gives a pool of one free run exactly when there is nothing to free. -/
theorem restores_iff_idle {guard : State → Call → Prop} (hrun : Reaches P M size guard st) :
    (∀ order, order.Perm st.live → ∃ s', freeAll P.geometry order st.pool = Except.ok s' ∧
      Restored P (pageCount P M size) s') ↔ st.live = [] := by
  constructor
  · intro h
    rcases reaches_held hrun with ⟨hlive, -⟩ | ⟨b, hb, hlow, hhigh⟩
    · exact hlive
    · obtain ⟨s', hfree, -⟩ := h (b :: st.live.erase b) (List.perm_cons_erase hb).symm
      obtain ⟨_, hfirst, -⟩ := bind_eq_ok.mp hfree
      rw [slabFreeLocked_inside hlow hhigh] at hfirst
      cases hfirst
  · intro hlive order horder
    rw [hlive] at horder
    rcases reaches_held hrun with ⟨-, hcreated⟩ | ⟨b, hb, -⟩
    · rw [horder.eq_nil]
      exact ⟨_, rfl, created_restored hcreated⟩
    · rw [hlive] at hb
      cases hb

theorem pageCount_lt (P : PageSize) (M : Mapping P) (size : ℕ) :
    pageCount P M size < 2 ^ 32 := by
  unfold pageCount
  split
  · exact toUInt32_lt _
  · exact toUInt32_lt _

/-- A page of the pool counts for two in a request. -/
theorem requestPages_all (P : PageSize) (N : ℕ) :
    requestPages P.geometry (N * P.bytes) = toUInt32 ((2 * N : ℕ) : ℤ) := by
  have hunit : 0 < unit P := Nat.two_pow_pos _
  have hhalves : N * P.bytes / unit P = 2 * N := by
    rw [bytes_eq, ← Nat.mul_assoc, Nat.mul_div_cancel _ hunit, Nat.mul_comm]
  have hrest : ¬ N * P.bytes % P.bytes ≠ 0 := not_not.mpr (Nat.mul_mod_left ..)
  unfold requestPages
  rw [geometry_pagesize, if_neg hrest, P.geometry_eq, Nat.add_zero, Nat.shiftRight_eq_div_pow]
  exact congrArg (fun n : ℕ => toUInt32 n) hhalves

/-- A block of all bytes of a new pool asks for twice its pages. -/
theorem created_not_regains (h : Created P M size s) : ¬ Regains P (pageCount P M size) s := by
  intro hregains
  obtain ⟨fuel, p, s', hrun, hp, hzero⟩ := hregains
  have hlt := pageCount_lt P M size
  have hpfree := h.pfree
  have hbytes := bytes_eq P
  have hunit := unit_ge P
  have hpages := requestPages_all P (pageCount P M size)
  rcases created_alloc h hrun with ⟨hnone, -⟩ | ⟨-, hlarge, hsmall⟩
  · exact hp hnone
  · rcases Nat.eq_zero_or_pos (pageCount P M size) with hempty | hpos
    · have hcount := hsmall (by rw [hempty, Nat.zero_mul]; omega)
      omega
    · have hmul := Nat.mul_le_mul_right P.bytes hpos
      obtain ⟨hle, htakes⟩ := hlarge (by omega)
      have hfree := htakes.pfree
      rw [hpages, toUInt32] at hle
      rw [hzero, hpages, hpfree, toUInt32, toUInt32] at hfree
      omega

/-- No pool is reclaimed. -/
theorem never_reclaims (P : PageSize) (M : Mapping P) (size : ℕ) (st : State)
    (hrun : Reaches P M size (fun _ _ => True) st) :
    ¬ Reclaims P (pageCount P M size) st := by
  intro h
  have hidle : st.live = [] := by
    rw [← restores_iff_idle hrun]
    intro order horder
    obtain ⟨s', hfree, hrestored, -⟩ := h order horder
    exact ⟨s', hfree, hrestored⟩
  rcases reaches_held hrun with ⟨-, hcreated⟩ | ⟨b, hb, -⟩
  · obtain ⟨s', hfree, -, hregains⟩ := h [] (by rw [hidle])
    cases hfree
    exact created_not_regains hcreated hregains
  · rw [hidle] at hb
    cases hb

/-- A new pool. -/
theorem never_reclaims_new :
    ∃ s, Reaches smallPages clearMapping 1 (fun _ _ => True) ⟨s, []⟩ ∧
      ¬ Reclaims smallPages (pageCount smallPages clearMapping 1) ⟨s, []⟩ := by
  obtain ⟨s, hs, -⟩ := createShpool_spec smallPages clearMapping 1
  exact ⟨s, Reaches.init hs, never_reclaims _ _ _ _ (Reaches.init hs)⟩

end

/-- The first block of eight bytes, and whether it can be freed. -/
def firstBlock : Exec (ℕ × Bool) := do
  let s0 ← createShpool smallPages clearMapping 1
  let r1 ← slabAllocLocked smallPages.geometry 9 s0 8
  pure (r1.1, slabFreeLocked smallPages.geometry r1.2 r1.1 matches Except.ok _)

/-- The first block of eight bytes cannot be freed. -/
theorem first_block_unfreed :
    ∃ st, Reaches smallPages clearMapping 1 (fun _ _ => True) st ∧
      ¬ Reclaims smallPages (pageCount smallPages clearMapping 1) st := by
  have htrace : firstBlock = Except.ok (69696, false) := by decide +kernel
  unfold firstBlock at htrace
  obtain ⟨s0, h0, htrace⟩ := bind_eq_ok.mp htrace
  obtain ⟨⟨p1, s1⟩, h1, htrace⟩ := bind_eq_ok.mp htrace
  simp only [pure_eq_ok, Except.ok.injEq, Prod.mk.injEq] at htrace
  obtain ⟨rfl, hfail⟩ := htrace
  have hrun0 : Reaches smallPages clearMapping 1 (fun _ _ => True) ⟨s0, []⟩ := Reaches.init h0
  have hrun1 := hrun0.call (c := .alloc 8) trivial
    (Step.allocBlock (by omega) h1 (by omega))
  refine ⟨_, hrun1, ?_⟩
  intro h
  obtain ⟨s', hfree, -⟩ := h [⟨69696, 8⟩] (List.Perm.refl _)
  obtain ⟨s2, hfirst, -⟩ := bind_eq_ok.mp hfree
  rw [hfirst] at hfail
  cases hfail

/-- The pool with nothing but its page descriptors mapped. -/
def onlyDescriptors (s : Pool) : Pool := s.setMem ⟨s.pages, s.last, s.mem.word⟩

/-- Freeing `p` returns without a change, and reads at most the descriptors. -/
def Harmless (P : PageSize) (s : Pool) (p : ℕ) : Prop :=
  slabFreeLocked P.geometry s p = Except.ok s ∧
    slabFreeLocked P.geometry (onlyDescriptors s) p = Except.ok (onlyDescriptors s)

/-- Every reachable pool is where its creation has put it. -/
theorem reaches_place {P : PageSize} {M : Mapping P} {size : ℕ} {st : State}
    {guard : State → Call → Prop} (hrun : Reaches P M size guard st) :
    st.pool.start = startAddr P M size ∧ st.pool.endAddr = M.base + mapSize P size := by
  refine hrun.invariant (I := fun st => st.pool.start = startAddr P M size ∧
    st.pool.endAddr = M.base + mapSize P size) ?_ ?_
  · intro s hcreated
    exact ⟨hcreated.start, hcreated.endAddr⟩
  · intro st st' c ih _ hstep
    cases hstep with
    | allocBlock _ hrun _ =>
      obtain ⟨hstart, hend⟩ := slabAllocLocked_keeps hrun
      exact ⟨hstart.trans ih.1, hend.trans ih.2⟩
    | allocNone _ hrun =>
      obtain ⟨hstart, hend⟩ := slabAllocLocked_keeps hrun
      exact ⟨hstart.trans ih.1, hend.trans ih.2⟩
    | @free s s' live b _ hrun =>
      obtain ⟨rfl, -⟩ := slabFreeLocked_returns hrun
      exact ih

/-- In every reachable state, exactly the pointers before the first page and
behind the end of the mapping are freed without harm. -/
theorem harmless_iff (P : PageSize) (M : Mapping P) (size : ℕ) (st : State)
    (hrun : Reaches P M size (fun _ _ => True) st) (p : ℕ) :
    Harmless P st.pool p ↔ p < startAddr P M size ∨ M.base + mapSize P size < p := by
  obtain ⟨hstart, hend⟩ := reaches_place hrun
  rw [← hstart, ← hend]
  constructor
  · rintro ⟨hfree, -⟩
    by_contra hin
    rw [slabFreeLocked_inside (by omega) (by omega)] at hfree
    cases hfree
  · intro hout
    exact ⟨slabFreeLocked_outside hout, slabFreeLocked_outside hout⟩

/-- A pointer below the pages of a new pool. -/
theorem harmless_below :
    ∃ s, Reaches smallPages clearMapping 1 (fun _ _ => True) ⟨s, []⟩ ∧
      (Harmless smallPages s 8 ↔
        8 < startAddr smallPages clearMapping 1 ∨ 65536 + mapSize smallPages 1 < 8) := by
  obtain ⟨s, hs, -⟩ := createShpool_spec smallPages clearMapping 1
  exact ⟨s, Reaches.init hs, harmless_iff _ _ _ _ (Reaches.init hs) 8⟩

/-- The end of a new pool is taken for a page. -/
theorem end_harms :
    ∃ s, Reaches smallPages clearMapping 1 (fun _ _ => True) ⟨s, []⟩ ∧
      ¬ Harmless smallPages s s.endAddr := by
  obtain ⟨s, hs, hcreated⟩ := createShpool_spec smallPages clearMapping 1
  refine ⟨s, Reaches.init hs, ?_⟩
  rintro ⟨hfree, -⟩
  have hroom : startAddr smallPages clearMapping 1 + unit smallPages ≤
      clearMapping.base + mapSize smallPages 1 := roughCount_room smallPages clearMapping 1
  have hstart := hcreated.start
  have hend := hcreated.endAddr
  rw [slabFreeLocked_inside (by omega) (le_refl _)] at hfree
  cases hfree

end HCore.SlabReclaim
