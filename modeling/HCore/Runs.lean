import Mathlib.Data.List.Count
import Mathlib.Data.List.Perm.Basic
import Mathlib.Algebra.BigOperators.Intervals
import Mathlib.Tactic.SplitIfs

/-!
Runs of consecutive indices and tilings of an initial segment by runs. A
list of nonempty runs tiles `[0, N)` when every index below `N` lies in
exactly one of them and no other index in any. The count formulation does not
depend on the order of the list, so moving a run between two lists is a
permutation.
-/

namespace HCore.Runs

structure Run where
  start : ℕ
  len : ℕ
  deriving DecidableEq, Repr

namespace Run

def stop (r : Run) : ℕ := r.start + r.len

def Covers (r : Run) (i : ℕ) : Prop := r.start ≤ i ∧ i < r.stop

instance (r : Run) (i : ℕ) : Decidable (r.Covers i) := inferInstanceAs (Decidable (_ ∧ _))

/-- The runs have no index in common. -/
def Separate (r r' : Run) : Prop := r.stop ≤ r'.start ∨ r'.stop ≤ r.start

theorem Separate.symm {r r' : Run} (h : r.Separate r') : r'.Separate r := Or.symm h

instance instSymmSeparate : Std.Symm Separate := ⟨fun _ _ => Separate.symm⟩

theorem covers_mk {s l i : ℕ} : (⟨s, l⟩ : Run).Covers i ↔ s ≤ i ∧ i < s + l := Iff.rfl

theorem covers_start {r : Run} (h : 0 < r.len) : r.Covers r.start := by
  unfold Covers stop
  omega

end Run

def coverCount (rs : List Run) (i : ℕ) : ℕ := rs.countP (fun r => decide (r.Covers i))

structure Tiles (N : ℕ) (rs : List Run) : Prop where
  len_pos : ∀ r ∈ rs, 0 < r.len
  count : ∀ i, coverCount rs i = if i < N then 1 else 0

theorem coverCount_cons (r : Run) (rs : List Run) (i : ℕ) :
    coverCount (r :: rs) i = coverCount rs i + if r.Covers i then 1 else 0 := by
  unfold coverCount
  rw [List.countP_cons]
  simp

theorem coverCount_pos {rs : List Run} {r : Run} {i : ℕ} (hr : r ∈ rs) (hi : r.Covers i) :
    0 < coverCount rs i := List.countP_pos_iff.mpr ⟨r, hr, by simpa using hi⟩

namespace Tiles

variable {N : ℕ} {rs rs' : List Run} {r r' : Run} {i : ℕ}

theorem perm (h : Tiles N rs) (hp : rs.Perm rs') : Tiles N rs' where
  len_pos r hr := h.len_pos r (hp.mem_iff.mpr hr)
  count i := by
    rw [← h.count i]
    exact (hp.countP_eq _).symm

theorem lt_of_covers (h : Tiles N rs) (hr : r ∈ rs) (hi : r.Covers i) : i < N := by
  have hpos := coverCount_pos hr hi
  by_contra hn
  rw [h.count, if_neg hn] at hpos
  omega

theorem stop_le (h : Tiles N rs) (hr : r ∈ rs) : r.stop ≤ N := by
  have hlen := h.len_pos r hr
  have hlast : r.Covers (r.stop - 1) := by
    unfold Run.Covers Run.stop
    omega
  have := h.lt_of_covers hr hlast
  omega

theorem exists_covers (h : Tiles N rs) (hi : i < N) : ∃ r ∈ rs, r.Covers i := by
  have hcount := h.count i
  rw [if_pos hi] at hcount
  have hpos : 0 < coverCount rs i := by omega
  obtain ⟨r, hr, hri⟩ := List.countP_pos_iff.mp hpos
  exact ⟨r, hr, by simpa using hri⟩

/-- The head of a tiling shares no index with the rest of it. -/
theorem not_covers_tail (h : Tiles N (r :: rs)) (hi : r.Covers i) (hr' : r' ∈ rs) :
    ¬ r'.Covers i := by
  intro hi'
  have hpos := coverCount_pos hr' hi'
  have hcount := h.count i
  rw [coverCount_cons, if_pos hi] at hcount
  split_ifs at hcount
  all_goals omega

theorem eq_of_covers (h : Tiles N rs) (hr : r ∈ rs) (hr' : r' ∈ rs) (hi : r.Covers i)
    (hi' : r'.Covers i) : r = r' := by
  by_contra hne
  have hp := List.perm_cons_erase hr
  have hmem : r' ∈ rs.erase r := (List.mem_erase_of_ne (Ne.symm hne)).mpr hr'
  exact (h.perm hp).not_covers_tail hi hmem hi'

theorem nodup (h : Tiles N rs) : rs.Nodup := by
  rw [List.nodup_iff_count]
  intro r
  by_contra hn
  have hmem : r ∈ rs := List.count_pos_iff.mp (by omega)
  have hp := List.perm_cons_erase hmem
  have hagain : r ∈ rs.erase r := by
    rw [← List.count_pos_iff, List.count_erase_self]
    omega
  have hself := Run.covers_start (h.len_pos r hmem)
  exact (h.perm hp).not_covers_tail hself hagain hself

/-- The runs of a tiling lie apart from each other. -/
theorem pairwise (h : Tiles N rs) :
    rs.Pairwise (fun r r' => r.stop ≤ r'.start ∨ r'.stop ≤ r.start) := by
  refine List.Nodup.pairwise_of_forall_ne h.nodup ?_
  intro r hr r' hr' hne
  have hpos := h.len_pos r hr
  have hpos' := h.len_pos r' hr'
  by_contra hover
  apply hne
  apply h.eq_of_covers hr hr' (i := max r.start r'.start)
  · unfold Run.Covers
    unfold Run.stop at *
    omega
  · unfold Run.Covers
    unfold Run.stop at *
    omega

theorem single (hN : 0 < N) : Tiles N [⟨0, N⟩] where
  len_pos r hr := by
    rw [List.mem_singleton] at hr
    subst r
    exact hN
  count i := by
    rw [coverCount_cons]
    simp [coverCount, Run.Covers, Run.stop]

/-- Cutting a run in two keeps the tiling. -/
theorem split {s l n : ℕ} (h : Tiles N (⟨s, l⟩ :: rs)) (hn : 0 < n) (hnl : n < l) :
    Tiles N (⟨s, n⟩ :: ⟨s + n, l - n⟩ :: rs) where
  len_pos r hr := by
    rcases List.mem_cons.mp hr with rfl | hr
    · exact hn
    · rcases List.mem_cons.mp hr with rfl | hr
      · exact Nat.sub_pos_of_lt hnl
      · exact h.len_pos r (List.mem_cons_of_mem _ hr)
  count i := by
    rw [coverCount_cons, coverCount_cons, ← h.count i, coverCount_cons, Nat.add_assoc]
    congr 1
    by_cases hlow : (⟨s, n⟩ : Run).Covers i
    · have hhigh : ¬ (⟨s + n, l - n⟩ : Run).Covers i := by
        simp only [Run.covers_mk] at *
        omega
      have hwhole : (⟨s, l⟩ : Run).Covers i := by
        simp only [Run.covers_mk] at *
        omega
      rw [if_pos hlow, if_neg hhigh, if_pos hwhole]
    · have hiff : (⟨s + n, l - n⟩ : Run).Covers i ↔ (⟨s, l⟩ : Run).Covers i := by
        simp only [Run.covers_mk] at *
        omega
      rw [if_neg hlow, if_congr hiff rfl rfl, Nat.add_zero]

end Tiles

/-- The number of indices in a list of runs. -/
def total (rs : List Run) : ℕ := (rs.map Run.len).sum

@[simp] theorem total_nil : total [] = 0 := rfl

@[simp] theorem total_cons (r : Run) (rs : List Run) : total (r :: rs) = r.len + total rs := by
  simp [total]

@[simp] theorem total_append (rs rs' : List Run) : total (rs ++ rs') = total rs + total rs' := by
  simp [total]

theorem len_le_total {rs : List Run} {r : Run} (hr : r ∈ rs) : r.len ≤ total rs := by
  obtain ⟨a, b, rfl⟩ := List.append_of_mem hr
  rw [total_append, total_cons]
  omega

theorem Run.sum_covers (r : Run) {N : ℕ} (h : r.stop ≤ N) :
    ∑ i ∈ Finset.range N, (if r.Covers i then 1 else 0) = r.len := by
  have hfilter : (Finset.range N).filter r.Covers = Finset.Ico r.start r.stop := by
    ext i
    rw [Finset.mem_filter, Finset.mem_range, Finset.mem_Ico, Run.Covers]
    omega
  rw [← Finset.sum_filter, hfilter, Finset.sum_const, Nat.card_Ico, Run.stop, nsmul_one]
  exact Nat.add_sub_cancel_left ..

theorem sum_coverCount (rs : List Run) {N : ℕ} (h : ∀ r ∈ rs, r.stop ≤ N) :
    ∑ i ∈ Finset.range N, coverCount rs i = total rs := by
  induction rs with
  | nil => simp [coverCount]
  | cons r rs ih =>
    simp only [coverCount_cons, Finset.sum_add_distrib]
    rw [ih (fun r' hr' => h r' (List.mem_cons_of_mem _ hr')),
      Run.sum_covers r (h r (List.mem_cons_self ..)), total_cons, Nat.add_comm]

/-- The runs of a tiling have as many indices as the segment. -/
theorem Tiles.total_eq {N : ℕ} {rs : List Run} (h : Tiles N rs) : total rs = N := by
  rw [← sum_coverCount rs (fun r hr => h.stop_le hr)]
  calc
    ∑ i ∈ Finset.range N, coverCount rs i = ∑ _i ∈ Finset.range N, 1 := by
      refine Finset.sum_congr rfl ?_
      intro i hi
      rw [h.count, if_pos (Finset.mem_range.mp hi)]
    _ = N := by
      rw [Finset.sum_const, Finset.card_range, nsmul_one]
      rfl

end HCore.Runs
