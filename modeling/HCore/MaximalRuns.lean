import Mathlib.Data.List.Count
import Mathlib.Data.List.Nodup
import Mathlib.Order.Nat
import Mathlib.Tactic.Common

/-!
Maximal runs of consecutive addresses with a property. All runs in a range are
listed in their order, and a range that gets longer by one address changes its
list in one of three ways: not at all, by a new run, or by a longer last run.
-/

namespace HCore.MaximalRuns

/-- So many addresses from one on. -/
structure Slice where
  data : ℕ
  len : ℕ
  deriving DecidableEq, Repr

/-- A run in the `n` addresses from `lo` on that cannot be made longer. -/
structure IsRun (P : ℕ → Prop) (lo n : ℕ) (t : Slice) : Prop where
  pos : 0 < t.len
  low : lo ≤ t.data
  high : t.data + t.len ≤ lo + n
  holds : ∀ a, t.data ≤ a → a < t.data + t.len → P a
  left : lo < t.data → ¬ P (t.data - 1)
  right : t.data + t.len < lo + n → ¬ P (t.data + t.len)

/-- All the runs, in their order. -/
structure Runs (P : ℕ → Prop) (lo n : ℕ) (ts : List Slice) : Prop where
  mem_iff : ∀ t, t ∈ ts ↔ IsRun P lo n t
  sorted : ts.Pairwise (fun t u => t.data + t.len < u.data)

/-- A run begins at `lo + i`. -/
def Begins (P : ℕ → Prop) (lo i : ℕ) : Prop := P (lo + i) ∧ (0 < i → ¬ P (lo + i - 1))

instance (P : ℕ → Prop) [DecidablePred P] (lo i : ℕ) : Decidable (Begins P lo i) :=
  inferInstanceAs (Decidable (_ ∧ _))

/-- The number of the runs, by their beginnings. -/
def runCount (P : ℕ → Prop) [DecidablePred P] (lo n : ℕ) : ℕ :=
  (List.range n).countP (fun i => decide (Begins P lo i))

variable {P : ℕ → Prop} {lo n : ℕ} {ts : List Slice} {t : Slice}

/-- Nothing runs over an address without the property. -/
theorem isRun_skip (hp : ¬ P (lo + n)) : IsRun P lo (n + 1) t ↔ IsRun P lo n t := by
  constructor
  · intro h
    have hhigh : t.data + t.len ≤ lo + n := by
      by_contra hlong
      have hle := h.high
      have hpos := h.pos
      exact hp (h.holds (lo + n) (by omega) (by omega))
    exact ⟨h.pos, h.low, hhigh, h.holds, h.left, fun hlt => h.right (by omega)⟩
  · intro h
    have hle := h.high
    refine ⟨h.pos, h.low, by omega, h.holds, h.left, fun _ => ?_⟩
    by_cases hend : t.data + t.len = lo + n
    · rwa [hend]
    · exact h.right (by omega)

theorem Runs.skip (h : Runs P lo n ts) (hp : ¬ P (lo + n)) : Runs P lo (n + 1) ts :=
  ⟨fun t => (h.mem_iff t).trans (isRun_skip hp).symm, h.sorted⟩

/-- The runs that end in front of the last address are the same. -/
theorem isRun_short (hend : t.data + t.len < lo + n) :
    IsRun P lo (n + 1) t ↔ IsRun P lo n t := by
  constructor
  · exact fun h => ⟨h.pos, h.low, by omega, h.holds, h.left, fun _ => h.right (by omega)⟩
  · exact fun h => ⟨h.pos, h.low, by omega, h.holds, h.left, fun _ => h.right (by omega)⟩

/-- A run that has the last address in it ends there. -/
theorem IsRun.end_eq (h : IsRun P lo (n + 1) t) (hp : P (lo + n))
    (hend : ¬ t.data + t.len < lo + n) : t.data + t.len = lo + n + 1 := by
  have hhigh := h.high
  by_contra hne
  have hright := h.right (by omega)
  have hlast : t.data + t.len = lo + n := by omega
  rw [hlast] at hright
  exact hright hp

/-- A new run begins. -/
theorem Runs.start (h : Runs P lo n ts) (hp : P (lo + n)) (hprev : 0 < n → ¬ P (lo + n - 1)) :
    Runs P lo (n + 1) (ts ++ [⟨lo + n, 1⟩]) := by
  have hshort : ∀ t, IsRun P lo n t → t.data + t.len < lo + n := by
    intro t ht
    have hpos := ht.pos
    have hlow := ht.low
    have hhigh := ht.high
    by_contra hend
    exact hprev (by omega) (ht.holds (lo + n - 1) (by omega) (by omega))
  constructor
  · intro t
    rw [List.mem_append, List.mem_singleton, h.mem_iff]
    constructor
    · rintro (ht | rfl)
      · exact (isRun_short (hshort t ht)).mpr ht
      · refine ⟨Nat.one_pos, Nat.le_add_right lo n, le_refl _, fun a ha ha' => ?_,
          fun hlt => hprev (by simpa using hlt), fun hlt => absurd hlt (lt_irrefl _)⟩
        have hone : a = lo + n := by
          dsimp only at ha ha'
          omega
        rwa [hone]
    · intro ht
      by_cases hend : t.data + t.len < lo + n
      · exact Or.inl ((isRun_short hend).mp ht)
      · have hlast := ht.end_eq hp hend
        have hpos := ht.pos
        have hlow := ht.low
        have hdata : t.data = lo + n := by
          by_contra hne
          exact hprev (by omega) (ht.holds (lo + n - 1) (by omega) (by omega))
        have hlen : t.len = 1 := by omega
        refine Or.inr ?_
        cases t
        simp_all
  · rw [List.pairwise_append]
    refine ⟨h.sorted, List.pairwise_singleton _ _, fun t ht u hu => ?_⟩
    rw [List.mem_singleton.mp hu]
    exact hshort t ((h.mem_iff t).mp ht)

/-- The last run gets longer. -/
theorem Runs.extend {d l : ℕ} (h : Runs P lo n (ts ++ [⟨d, l⟩])) (hend : d + l = lo + n)
    (hp : P (lo + n)) : Runs P lo (n + 1) (ts ++ [⟨d, l + 1⟩]) := by
  obtain ⟨hfront, -, hbefore⟩ := List.pairwise_append.mp h.sorted
  have hlast : IsRun P lo n ⟨d, l⟩ := (h.mem_iff _).mp (by simp)
  have hpos : 0 < l := hlast.pos
  have hlow : lo ≤ d := hlast.low
  have hshort : ∀ t ∈ ts, t.data + t.len < d := fun t ht => hbefore t ht ⟨d, l⟩ (by simp)
  constructor
  · intro t
    rw [List.mem_append, List.mem_singleton]
    constructor
    · rintro (ht | rfl)
      · have hlt := hshort t ht
        exact (isRun_short (by omega)).mpr ((h.mem_iff t).mp (List.mem_append_left _ ht))
      · refine ⟨Nat.succ_pos l, hlow, ?_, fun a ha ha' => ?_, hlast.left, fun hlt => ?_⟩
        · dsimp only
          omega
        · dsimp only at ha ha'
          by_cases hlt : a < d + l
          · exact hlast.holds a ha hlt
          · have hone : a = lo + n := by omega
            rwa [hone]
        · dsimp only at hlt
          omega
    · intro ht
      have hin := ht.pos
      by_cases hlt : t.data + t.len < lo + n
      · have hmem := (h.mem_iff t).mpr ((isRun_short hlt).mp ht)
        rcases List.mem_append.mp hmem with hmem | hmem
        · exact Or.inl hmem
        · rw [List.mem_singleton.mp hmem] at hlt
          dsimp only at hlt
          omega
      · have hstop := ht.end_eq hp hlt
        have hdata : t.data = d := by
          rcases lt_trichotomy t.data d with hless | heq | hmore
          · exact absurd (ht.holds (d - 1) (by omega) (by omega)) (hlast.left (by
              have htlow := ht.low
              dsimp only
              omega))
          · exact heq
          · exact absurd (hlast.holds (t.data - 1) (by dsimp only; omega) (by dsimp only; omega))
              (ht.left (by omega))
        have hlen : t.len = l + 1 := by omega
        refine Or.inr ?_
        cases t
        simp_all
  · rw [List.pairwise_append]
    refine ⟨hfront, List.pairwise_singleton _ _, fun t ht u hu => ?_⟩
    rw [List.mem_singleton.mp hu]
    exact hshort t ht

section

variable [DecidablePred P]

theorem runCount_succ (lo n : ℕ) :
    runCount P lo (n + 1) = runCount P lo n + if Begins P lo n then 1 else 0 := by
  unfold runCount
  rw [List.range_succ, List.countP_append, List.countP_singleton]
  simp

theorem runCount_mono {m : ℕ} (h : m ≤ n) : runCount P lo m ≤ runCount P lo n := by
  induction h with
  | refl => exact le_rfl
  | step _ ih =>
    rw [Nat.succ_eq_add_one, runCount_succ]
    omega

end

end HCore.MaximalRuns
