import HCore.SlabFreeList

/-!
Page allocation is first fit. The walk along the free list stops at the first
run that is long enough; its first pages are taken, and the rest, if any,
stays at the same place of the list. The free list is any list of separate
runs here: neighbours need not have been joined, and nothing is asked of the
pages in use.
-/

namespace HCore.SlabFirstFit

open Machine SlabPool SlabPages SlabLayout SlabFreeList Runs

/-- What is left of a run of which the first `n` pages are taken. -/
def restOf (r : Run) (n : ℕ) : List Run :=
  if n < r.len then [⟨r.start + n, r.len - n⟩] else []

/-- The pool `s'` after the first `n` pages of the free run `r` were taken. -/
structure TakenFrom (s s' : Pool) (a : List Run) (r : Run) (b : List Run) (n : ℕ) : Prop where
  runs : FreeRuns s' (a ++ restOf r n ++ b)
  same : SameHeader s s'
  head : s'.word (slabOf (s.page r.start)) = n ||| slabPageStart
  busy : ∀ j, 1 ≤ j → j < n → s'.word (slabOf (s.page (r.start + j))) = slabPageBusy
  tail : 2 ≤ r.len - n → s'.word (prevOf (s.page (r.stop - 1))) = s.page (r.start + n)
  pfree : s'.pfree + n = s.pfree
  frame : ∀ x, ¬ FreeWord s (a ++ r :: b) x → s'.word x = s.word x

/-- The call finds no run that is long enough and changes nothing, or takes
its pages from the first run that is. -/
def FirstFit (s : Pool) (frees : List Run) (n fuel : ℕ) : Prop :=
  ((∀ r ∈ frees, r.len < n) ∧ slabAllocPages fuel s n = Except.ok (0, s)) ∨
    ∃ a r b s', frees = a ++ r :: b ∧ (∀ r' ∈ a, r'.len < n) ∧ n ≤ r.len ∧
      slabAllocPages fuel s n = Except.ok (s.page r.start, s') ∧ s.page r.start ≠ 0 ∧
      TakenFrom s s' a r b n

section

variable {s : Pool} {a b : List Run} {r : Run} {n : ℕ}

theorem takenFrom_of_taken {s' : Pool} (h : FreeRuns s (a ++ r :: b)) (hnr : n ≤ r.len)
    (htaken : Taken s s' (s.page r.start) n) (hruns : FreeRuns s' (a ++ restOf r n ++ b))
    (hkeep : FreeRuns.KeepsOthers s s' r)
    (htail : 2 ≤ r.len - n → s'.word (prevOf (s.page (r.stop - 1))) = s.page (r.start + n)) :
    TakenFrom s s' a r b n where
  runs := hruns
  same := htaken.same
  head := htaken.slab
  busy := by
    intro j hpos hj
    rw [page_add]
    exact htaken.busy j hpos hj
  tail := htail
  pfree := by
    have hle : r.len ≤ s.pfree := h.pfree ▸ len_le_total (by simp)
    rw [htaken.pfree]
    omega
  frame := fun _ hx => h.keeps_frame hkeep hx

theorem takenFrom_cut (h : FreeRuns s (a ++ r :: b)) (hn : 0 < n) (hnr : n < r.len) :
    ∃ s', takePages s (s.page r.start) n = Except.ok (s.page r.start, s') ∧
      TakenFrom s s' a r b n := by
  obtain ⟨s', hrun, htaken, hruns, hkeep, -, htail, -⟩ := h.cut_spec hn hnr
  refine ⟨s', hrun, takenFrom_of_taken h hnr.le htaken ?_ hkeep htail⟩
  rw [restOf, if_pos hnr, List.append_assoc]
  exact hruns

theorem takenFrom_whole (h : FreeRuns s (a ++ r :: b)) :
    ∃ s', takePages s (s.page r.start) r.len = Except.ok (s.page r.start, s') ∧
      TakenFrom s s' a r b r.len := by
  obtain ⟨s', hrun, htaken, hruns, hkeep, -⟩ := h.whole_spec
  refine ⟨s', hrun, takenFrom_of_taken h le_rfl htaken ?_ hkeep (by omega)⟩
  rw [restOf, if_neg (Nat.lt_irrefl _), List.append_nil]
  exact hruns

end

/-- With a step for each run of the list, the call is exact first fit. -/
theorem slabAllocPages_first_fit (s : Pool) (frees : List Run) (h : FreeRuns s frees) (n : ℕ)
    (hn : 1 ≤ n) (fuel : ℕ) (hfuel : frees.length < fuel) : FirstFit s frees n fuel := by
  have hpages := h.free_lt_pages
  rcases h.slabAllocPages_cases fuel n with ⟨-, hle⟩ | hnone | ⟨a, r, b, rfl, hshort, hlen, hrun⟩
  · omega
  · exact Or.inl hnone
  · right
    have htake : ∃ s', takePages s (s.page r.start) n = Except.ok (s.page r.start, s') ∧
        TakenFrom s s' a r b n := by
      rcases Nat.lt_or_ge n r.len with hlt | hge
      · exact takenFrom_cut h hn hlt
      · obtain rfl : n = r.len := Nat.le_antisymm hlen hge
        exact takenFrom_whole h
    obtain ⟨s', htake, htaken⟩ := htake
    refine ⟨a, r, b, s', rfl, hshort, hlen, hrun.trans htake, ?_, htaken⟩
    rw [page_eq]
    omega

/-- Two pages of a new pool. -/
theorem first_fit_created : ∃ s, createShpool smallPages clearMapping 1 = Except.ok s ∧
    FirstFit s [⟨0, pageCount smallPages clearMapping 1⟩] 2 2 := by
  obtain ⟨s, hrun, hcreated⟩ := createShpool_spec smallPages clearMapping 1
  have hruns := (created_freeList hcreated (by decide)).runs
  exact ⟨s, hrun, slabAllocPages_first_fit s _ hruns 2 (by decide) 2 (by decide)⟩

end HCore.SlabFirstFit
