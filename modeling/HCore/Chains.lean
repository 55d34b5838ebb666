import Mathlib.Data.List.Basic
import Mathlib.Data.List.Nodup

/-!
Doubly linked lists under a header, over any type of node addresses. A chain
from `p` runs through the listed nodes and ends at the header `h`; each node
points back at its predecessor, and the header's own back link is not used.
The edits are removal of a node, replacement of a node and insertion at the
front; each asks only for the links it writes and leaves the others alone.
-/

namespace HCore.Chains

variable {α : Type*}

def Chain (next prev : α → α) (h : α) : α → List α → Prop
  | p, [] => next p = h
  | p, x :: l => next p = x ∧ prev x = p ∧ Chain next prev h x l

section

variable {next prev next' prev' : α → α} {h p x y : α} {l a b : List α}

theorem Chain.head (hc : Chain next prev h p l) : next p = l.headD h := by
  cases l with
  | nil => exact hc
  | cons x l => exact hc.1

/-- A chain reads `next` of every node but the header at the end, and `prev`
of every node but the first. -/
theorem Chain.congr (hc : Chain next prev h p l) (hn : ∀ x ∈ p :: l, next' x = next x)
    (hp : ∀ x ∈ l, prev' x = prev x) : Chain next' prev' h p l := by
  induction l generalizing p with
  | nil => exact (hn p (List.mem_cons_self ..)).trans hc
  | cons x l ih =>
    obtain ⟨h1, h2, h3⟩ := hc
    refine ⟨(hn p (List.mem_cons_self ..)).trans h1,
      (hp x (List.mem_cons_self ..)).trans h2, ?_⟩
    exact ih h3 (fun y hy => hn y (List.mem_cons_of_mem _ hy))
      (fun y hy => hp y (List.mem_cons_of_mem _ hy))

theorem Chain.suffix (hc : Chain next prev h p (a ++ x :: b)) : Chain next prev h x b := by
  induction a generalizing p with
  | nil => exact hc.2.2
  | cons y a ih => exact ih hc.2.2

theorem Chain.next_mem (hc : Chain next prev h p (a ++ x :: b)) : next x = b.headD h :=
  hc.suffix.head

theorem Chain.prev_mem (hc : Chain next prev h p (a ++ x :: b)) :
    prev x = (p :: a).getLast (List.cons_ne_nil _ _) := by
  induction a generalizing p with
  | nil => exact hc.2.1
  | cons y a ih =>
    rw [List.getLast_cons_cons]
    exact ih hc.2.2

/-- Replacing the node `x` by the list `m`, given that the new links lead from
the predecessor of `x` through `m` to its successor. -/
theorem Chain.edit {m : List α} (hc : Chain next prev h p (a ++ x :: b))
    (hm : ∀ q, q = (p :: a).getLast (List.cons_ne_nil _ _) → Chain next' prev' h q (m ++ b))
    (hn : ∀ y ∈ p :: a, y ≠ (p :: a).getLast (List.cons_ne_nil _ _) → next' y = next y)
    (hp : ∀ y ∈ a, prev' y = prev y) (hnd : (p :: a).Nodup) :
    Chain next' prev' h p (a ++ (m ++ b)) := by
  induction a generalizing p with
  | nil => exact hm p rfl
  | cons z a ih =>
    obtain ⟨h1, h2, h3⟩ := hc
    rw [List.getLast_cons_cons] at hn hm
    have hpne : p ≠ (z :: a).getLast (List.cons_ne_nil _ _) := by
      intro heq
      exact (List.nodup_cons.mp hnd).1 (heq ▸ List.getLast_mem _)
    refine ⟨(hn p (List.mem_cons_self ..) hpne).trans h1,
      (hp z (List.mem_cons_self ..)).trans h2, ?_⟩
    exact ih h3 hm (fun y hy => hn y (List.mem_cons_of_mem _ hy))
      (fun y hy => hp y (List.mem_cons_of_mem _ hy)) (List.nodup_cons.mp hnd).2

/-- The part of a ring behind the successor `z` of an edited node is kept. -/
theorem Chain.tail_congr {z : α} (hc : Chain next prev h h (a ++ x :: z :: b))
    (hnd : (h :: (a ++ x :: z :: b)).Nodup)
    (hn : ∀ y ∈ h :: (a ++ z :: b), y ≠ prev x → next' y = next y)
    (hp : ∀ y ∈ a ++ z :: b, y ≠ next x → prev' y = prev y) : Chain next' prev' h z b := by
  have hnd' : ((h :: a) ++ x :: z :: b).Nodup := hnd
  have hdis := List.disjoint_of_nodup_append hnd'
  have hpa : prev x ∈ h :: a := hc.prev_mem ▸ List.getLast_mem _
  refine hc.suffix.2.2.congr ?_ ?_
  · intro y hy
    apply hn y (List.mem_cons_of_mem _ (List.mem_append_right _ hy))
    intro heq
    exact hdis hpa (heq ▸ List.mem_cons_of_mem _ hy)
  · intro y hy
    apply hp y (List.mem_append_right _ (List.mem_cons_of_mem _ hy))
    intro heq
    have hxzb := (List.nodup_append.mp hnd').2.1
    rw [hc.suffix.1] at heq
    subst heq
    exact (List.nodup_cons.mp (List.nodup_cons.mp hxzb).2).1 hy

/-- Replacing one node of a ring by the list `m`: only `next` of its
predecessor and `prev` of its successor may change outside `m`. -/
theorem Chain.splice {m : List α} (hc : Chain next prev h h (a ++ x :: b))
    (hnd : (h :: (a ++ x :: b)).Nodup)
    (hm : Chain next' prev' h (next x) b.tail → Chain next' prev' h (prev x) (m ++ b))
    (hn : ∀ z ∈ h :: (a ++ b), z ≠ prev x → next' z = next z)
    (hp : ∀ z ∈ a ++ b, z ≠ next x → prev' z = prev z)
    (hend : b = [] → Chain next' prev' h (prev x) m) :
    Chain next' prev' h h (a ++ (m ++ b)) := by
  have hprev := hc.prev_mem
  have hnext := hc.next_mem
  have hnd' : ((h :: a) ++ x :: b).Nodup := hnd
  have hdis := List.disjoint_of_nodup_append hnd'
  refine Chain.edit hc ?_ ?_ ?_ (List.Nodup.of_append_left hnd')
  · intro q hq
    rw [hq, ← hprev]
    cases b with
    | nil => simpa using hend rfl
    | cons z b =>
      apply hm
      rw [hnext]
      exact hc.tail_congr hnd hn hp
  · intro y hy hne
    exact hn y (List.mem_cons.mpr ((List.mem_cons.mp hy).imp_right (List.mem_append_left _)))
      (hprev ▸ hne)
  · intro y hy
    apply hp y (List.mem_append_left _ hy)
    intro heq
    rw [hnext] at heq
    subst heq
    cases b with
    | nil => exact (List.nodup_cons.mp hnd).1 (List.mem_append_left _ hy)
    | cons z b => exact hdis (List.mem_cons_of_mem _ hy) (by simp)

/-- Unlinking `x`: its predecessor and successor are linked directly. -/
theorem Chain.remove (hc : Chain next prev h h (a ++ x :: b)) (hnd : (h :: (a ++ x :: b)).Nodup)
    (hpred : next' (prev x) = next x) (hsucc : b ≠ [] → prev' (next x) = prev x)
    (hn : ∀ z ∈ h :: (a ++ b), z ≠ prev x → next' z = next z)
    (hp : ∀ z ∈ a ++ b, z ≠ next x → prev' z = prev z) :
    Chain next' prev' h h (a ++ b) := by
  have hnext := hc.next_mem
  refine Chain.splice (m := []) hc hnd ?_ hn hp ?_
  · intro htail
    cases b with
    | nil => exact hpred.trans hnext
    | cons z b =>
      have hz : next x = z := hnext
      exact ⟨hpred.trans hz, hz ▸ hsucc (List.cons_ne_nil _ _), hz ▸ htail⟩
  · rintro rfl
    exact hpred.trans hnext

/-- The node `y` takes the place of `x`. -/
theorem Chain.replace (hc : Chain next prev h h (a ++ x :: b))
    (hnd : (h :: (a ++ x :: b)).Nodup)
    (hpred : next' (prev x) = y) (hy : prev' y = prev x) (hy' : next' y = next x)
    (hsucc : b ≠ [] → prev' (next x) = y)
    (hn : ∀ z ∈ h :: (a ++ b), z ≠ prev x → next' z = next z)
    (hp : ∀ z ∈ a ++ b, z ≠ next x → prev' z = prev z) :
    Chain next' prev' h h (a ++ y :: b) := by
  have hnext := hc.next_mem
  refine Chain.splice (m := [y]) hc hnd ?_ hn hp ?_
  · intro htail
    refine ⟨hpred, hy, ?_⟩
    cases b with
    | nil => exact hy'.trans hnext
    | cons z b =>
      have hz : next x = z := hnext
      exact ⟨hy'.trans hz, hz ▸ hsucc (List.cons_ne_nil _ _), hz ▸ htail⟩
  · rintro rfl
    exact ⟨hpred, hy, hy'.trans hnext⟩

/-- Insertion of `x` right after the header. -/
theorem Chain.push (hc : Chain next prev h h l) (hnd : (h :: l).Nodup)
    (hx : next' h = x) (hx' : prev' x = h) (hnext : next' x = next h)
    (hsucc : l ≠ [] → prev' (next h) = x) (hn : ∀ z ∈ l, next' z = next z)
    (hp : ∀ z ∈ l, z ≠ next h → prev' z = prev z) : Chain next' prev' h h (x :: l) := by
  refine ⟨hx, hx', ?_⟩
  cases l with
  | nil => exact hnext.trans hc
  | cons z l =>
    have hz : next h = z := hc.1
    refine ⟨hnext.trans hz, hz ▸ hsucc (List.cons_ne_nil _ _), hc.2.2.congr hn ?_⟩
    intro w hw
    apply hp w (List.mem_cons_of_mem _ hw)
    intro heq
    rw [hz] at heq
    subst heq
    exact (List.nodup_cons.mp (List.nodup_cons.mp hnd).2).1 hw

end

end HCore.Chains
