import Mathlib.Data.List.Perm.Basic
import Mathlib.Data.List.Pairwise

/-!
Insertion from behind. An element goes past all that are greater, up to the
first one that is not; a list built so is sorted, and elements that are equal
in the order stay as they came.
-/

namespace HCore.StableInsertion

variable {α : Type*}

/-- `q` goes between the two parts of the list. -/
inductive Inserted (le : α → α → Prop) (q : α) : List α → List α → Prop
  | mk {a b : List α} (hlast : ∀ x ∈ a.getLast?, le x q) (hpassed : ∀ y ∈ b, ¬ le y q) :
    Inserted le q (a ++ b) (a ++ q :: b)

/-- The elements of a list go into another one, one after the other. -/
inductive InsertedAll (le : α → α → Prop) : List α → List α → List α → Prop
  | done {l : List α} : InsertedAll le l [] l
  | step {q : α} {l l' rest r : List α} (h : Inserted le q l l')
    (hrest : InsertedAll le l' rest r) : InsertedAll le l (q :: rest) r

variable {le : α → α → Prop} {q : α} {l l' rest r : List α}

theorem Inserted.perm (h : Inserted le q l l') : l'.Perm (q :: l) := by
  cases h with
  | mk hlast hpassed => exact List.perm_middle

/-- In a sorted list everything in front of the place is not greater, and everything behind
it is not smaller. -/
theorem Inserted.sorted (htotal : ∀ x y, le x y ∨ le y x)
    (htrans : ∀ x y z, le x y → le y z → le x z) (h : Inserted le q l l')
    (hl : l.Pairwise le) : l'.Pairwise le := by
  cases h with
  | @mk a b hlast hpassed =>
    obtain ⟨ha, hb, hcross⟩ := List.pairwise_append.mp hl
    have hfront : ∀ x ∈ a, le x q := by
      intro x hx
      obtain ⟨a', z, rfl⟩ := (List.eq_nil_or_concat' a).resolve_left (List.ne_nil_of_mem hx)
      have hz : le z q := hlast z (by simp)
      rcases List.mem_append.mp hx with hx | hx
      · exact htrans x z q ((List.pairwise_append.mp ha).2.2 x hx z (List.mem_singleton_self z)) hz
      · rwa [List.mem_singleton.mp hx]
    have hback : ∀ y ∈ b, le q y := fun y hy => (htotal y q).resolve_left (hpassed y hy)
    refine List.pairwise_append.mpr ⟨ha, List.pairwise_cons.mpr ⟨hback, hb⟩, fun x hx y hy => ?_⟩
    rcases List.mem_cons.mp hy with rfl | hy
    · exact hfront x hx
    · exact hcross x hx y hy

/-- A new element comes behind those it is equal to. -/
theorem Inserted.filter {p : α → Bool} (hp : ∀ x y, p x = true → p y = true → le x y)
    (h : Inserted le q l l') : l'.filter p = l.filter p ++ [q].filter p := by
  cases h with
  | @mk a b hlast hpassed =>
    rw [← List.singleton_append, List.filter_append, List.filter_append, List.filter_append,
      List.append_assoc]
    by_cases hq : p q = true
    · have hb : b.filter p = [] :=
        List.filter_eq_nil_iff.mpr (fun y hy hpy => hpassed y hy (hp y q hpy hq))
      rw [hb, List.append_nil, List.nil_append]
    · have hnone : [q].filter p = [] := by simp [hq]
      rw [hnone, List.nil_append, List.append_nil]

theorem InsertedAll.perm (h : InsertedAll le l rest r) : r.Perm (l ++ rest) := by
  induction h with
  | done => rw [List.append_nil]
  | step h hrest ih => exact ih.trans ((h.perm.append_right _).trans List.perm_middle.symm)

theorem InsertedAll.sorted (htotal : ∀ x y, le x y ∨ le y x)
    (htrans : ∀ x y z, le x y → le y z → le x z) (h : InsertedAll le l rest r)
    (hl : l.Pairwise le) : r.Pairwise le := by
  induction h with
  | done => exact hl
  | step h hrest ih => exact ih (h.sorted htotal htrans hl)

theorem InsertedAll.filter {p : α → Bool} (hp : ∀ x y, p x = true → p y = true → le x y)
    (h : InsertedAll le l rest r) : r.filter p = (l ++ rest).filter p := by
  induction h with
  | done => rw [List.append_nil]
  | step h hrest ih =>
    rw [ih, List.filter_append, h.filter hp, List.append_assoc, ← List.filter_append,
      List.singleton_append, ← List.filter_append]

end HCore.StableInsertion
