import Mathlib.Data.List.Chain
import Mathlib.Data.List.Infix
import Mathlib.Data.List.Nodup
import Mathlib.Logic.Function.Basic

/-!
Nodes with links in both directions, over any type of addresses. A path is a
list of nodes, each linked to the one behind it, and a ring goes from a
sentinel through its nodes back to the sentinel. All edits are made of one: to
link a node to another. It joins two paths at their ends and keeps every path
that does not go out of the one node or into the other.
-/

namespace HCore.Rings

variable {α : Type*}

/-- The links of all nodes. -/
@[ext]
structure Links (α : Type*) where
  next : α → α
  prev : α → α

/-- The two nodes point at each other. -/
def Linked (m : Links α) (x y : α) : Prop := m.next x = y ∧ m.prev y = x

def Path (m : Links α) (l : List α) : Prop := l.IsChain (Linked m)

section

variable {m m' : Links α} {x y u v : α} {a b l : List α}

/-- A path reads `next` of every node but the last and `prev` of every node but the first. -/
theorem Path.congr (h : Path m l) (hnext : ∀ x ∈ l.dropLast, m'.next x = m.next x)
    (hprev : ∀ x ∈ l.tail, m'.prev x = m.prev x) : Path m' l := by
  induction h with
  | nil => exact List.IsChain.nil
  | singleton a => exact List.IsChain.singleton a
  | @cons_cons a b l hr h ih =>
    rw [List.dropLast_cons_cons, List.forall_mem_cons] at hnext
    rw [List.tail_cons, List.forall_mem_cons] at hprev
    exact List.IsChain.cons_cons ⟨hnext.1.trans hr.1, hprev.1.trans hr.2⟩ (ih hnext.2 hprev.2)

theorem Path.left (h : Path m (a ++ b)) : Path m a := List.IsChain.left_of_append h

theorem Path.right (h : Path m (a ++ b)) : Path m b := List.IsChain.right_of_append h

theorem path_singleton (m : Links α) (x : α) : Path m [x] := List.IsChain.singleton x

theorem not_mem_dropLast (hx : x ∉ l) : x ∉ l.dropLast := fun h => hx (List.mem_of_mem_dropLast h)

/-- Neighbours on a path. -/
theorem Path.linked (h : Path m (a ++ b)) (hx : a.getLast? = some x) (hy : b.head? = some y) :
    Linked m x y := (List.isChain_append.mp h).2.2 x hx y hy

variable [DecidableEq α]

/-- `x` is linked to `y`. -/
def Links.link (m : Links α) (x y : α) : Links α :=
  ⟨Function.update m.next x y, Function.update m.prev y x⟩

theorem linked_link (m : Links α) (x y : α) : Linked (m.link x y) x y :=
  ⟨Function.update_self .., Function.update_self ..⟩

theorem Path.link (h : Path m l) (hu : u ∉ l.dropLast) (hv : v ∉ l.tail) : Path (m.link u v) l :=
  h.congr (fun _ hx => Function.update_of_ne (ne_of_mem_of_not_mem hx hu) ..)
    (fun _ hx => Function.update_of_ne (ne_of_mem_of_not_mem hx hv) ..)

/-- The end of a path is linked to the beginning of another one. -/
theorem Path.join (ha : Path m a) (hb : Path m b) (hx : a.getLast? = some x)
    (hy : b.head? = some y) (hxa : x ∉ a.dropLast) (hxb : x ∉ b.dropLast) (hya : y ∉ a.tail)
    (hyb : y ∉ b.tail) : Path (m.link x y) (a ++ b) := by
  refine List.isChain_append.mpr ⟨ha.link hxa hya, hb.link hxb hyb, ?_⟩
  intro x' hx' y' hy'
  obtain rfl : x = x' := Option.some.inj (hx.symm.trans hx')
  obtain rfl : y = y' := Option.some.inj (hy.symm.trans hy')
  exact linked_link m x y

end

/-- The last of the nodes behind `h`, or `h` itself. -/
def lastOf (h : α) (a : List α) : α := a.getLast?.getD h

/-- The first of the nodes in front of `h`, or `h` itself. -/
def firstOf (b : List α) (h : α) : α := b.head?.getD h

section

variable {m : Links α} {h x : α} {a b l : List α}

theorem getLast?_cons_eq (h : α) (a : List α) : (h :: a).getLast? = some (lastOf h a) :=
  List.getLast?_cons

theorem head?_concat_eq (b : List α) (h : α) : (b ++ [h]).head? = some (firstOf b h) := by
  cases b <;> rfl

@[simp] theorem lastOf_nil (h : α) : lastOf h [] = h := rfl

@[simp] theorem lastOf_concat (h x : α) (a : List α) : lastOf h (a ++ [x]) = x := by
  simp [lastOf]

@[simp] theorem firstOf_nil (h : α) : firstOf [] h = h := rfl

@[simp] theorem firstOf_cons (x h : α) (b : List α) : firstOf (x :: b) h = x := rfl

theorem lastOf_mem (h : α) (a : List α) : lastOf h a ∈ h :: a :=
  List.mem_of_getLast? (getLast?_cons_eq h a)

theorem lastOf_mem_of_ne_nil (h : α) (ha : a ≠ []) : lastOf h a ∈ a := by
  obtain ⟨a', x, rfl⟩ := List.eq_nil_or_concat' a |>.resolve_left ha
  simp

theorem firstOf_mem (b : List α) (h : α) : firstOf b h ∈ b ++ [h] :=
  List.mem_of_head? (head?_concat_eq b h)

/-- From the sentinel `h` through the nodes of the list and back. -/
structure IsRing (m : Links α) (h : α) (l : List α) : Prop where
  path : Path m (h :: (l ++ [h]))
  nodup : (h :: l).Nodup

theorem IsRing.next_head (hr : IsRing m h l) : m.next h = firstOf l h :=
  (Path.linked (a := [h]) hr.path rfl (head?_concat_eq l h)).1

theorem IsRing.prev_head (hr : IsRing m h l) : m.prev h = lastOf h l :=
  (Path.linked (a := h :: l) hr.path (getLast?_cons_eq h l) rfl).2

theorem IsRing.prev_node (hr : IsRing m h (a ++ x :: b)) : m.prev x = lastOf h a := by
  have hpath := hr.path
  rw [List.append_assoc, ← List.cons_append] at hpath
  exact (hpath.linked (getLast?_cons_eq h a) rfl).2

theorem lastOf_getElem (h : α) {i : ℕ} (hi : i + 1 = l.length) : lastOf h l = l[i] := by
  have hindex : l.length - 1 = i := by omega
  rw [lastOf, List.getLast?_eq_getElem?, hindex, List.getElem?_eq_getElem, Option.getD_some]

theorem IsRing.next_node (hr : IsRing m h (a ++ x :: b)) : m.next x = firstOf b h := by
  have hpath := hr.path
  rw [List.append_cons a x b, List.append_assoc (a ++ [x]), ← List.cons_append] at hpath
  exact (hpath.linked (by rw [getLast?_cons_eq, lastOf_concat]) (head?_concat_eq b h)).1

/-- The place behind the first nodes. -/
theorem IsRing.next_lastOf (hr : IsRing m h (a ++ b)) : m.next (lastOf h a) = firstOf b h := by
  have hpath := hr.path
  rw [List.append_assoc, ← List.cons_append] at hpath
  exact (hpath.linked (getLast?_cons_eq h a) (head?_concat_eq b h)).1

theorem IsRing.next_getElem (hr : IsRing m h l) {i : ℕ} (hi : i + 1 < l.length) :
    m.next l[i] = l[i + 1] := by
  have hsplit : l.take i ++ l[i] :: l[i + 1] :: l.drop (i + 1 + 1) = l := by
    rw [← List.drop_eq_getElem_cons, ← List.drop_eq_getElem_cons, List.take_append_drop]
  have hnode : IsRing m h (l.take i ++ l[i] :: l[i + 1] :: l.drop (i + 1 + 1)) := by
    rwa [hsplit]
  exact hnode.next_node

/-- The nodes up to a place. -/
theorem IsRing.front (hr : IsRing m h (a ++ b)) : Path m (h :: a) := by
  have hpath := hr.path
  rw [List.append_assoc, ← List.cons_append] at hpath
  exact hpath.left

/-- The nodes from a place on. -/
theorem IsRing.back (hr : IsRing m h (a ++ b)) : Path m (b ++ [h]) := by
  have hpath := hr.path
  rw [List.append_assoc, ← List.cons_append] at hpath
  exact hpath.right

theorem IsRing.congr {m' : Links α} (hr : IsRing m h l)
    (hnext : ∀ x ∈ h :: l, m'.next x = m.next x) (hprev : ∀ x ∈ h :: l, m'.prev x = m.prev x) :
    IsRing m' h l := by
  refine ⟨hr.path.congr ?_ ?_, hr.nodup⟩
  · rw [← List.cons_append, List.dropLast_concat]
    exact hnext
  · intro x hx
    rw [List.tail_cons, List.mem_append, List.mem_singleton] at hx
    exact hprev x (List.mem_cons.mpr hx.symm)

theorem IsRing.head_not_mem (hr : IsRing m h l) : h ∉ l := (List.nodup_cons.mp hr.nodup).1

theorem lastOf_append (h x : α) (a b : List α) : lastOf h (a ++ x :: b) = lastOf x b := by
  refine Option.some.inj ?_
  rw [← getLast?_cons_eq, ← getLast?_cons_eq, ← List.cons_append, List.getLast?_append_cons]

/-- Without repetitions the last node is not in front of itself. -/
theorem lastOf_not_mem (hn : (h :: a).Nodup) : lastOf h a ∉ (h :: a).dropLast := by
  have hsplit := List.dropLast_append_getLast? _ (getLast?_cons_eq h a)
  rw [← hsplit, List.nodup_append] at hn
  exact fun hmem => hn.2.2 _ hmem _ (List.mem_singleton_self _) rfl

theorem firstOf_not_mem (hn : (h :: b).Nodup) : firstOf b h ∉ (b ++ [h]).tail := by
  cases b with
  | nil => exact List.not_mem_nil
  | cons y b =>
    simp only [List.nodup_cons, List.mem_cons, not_or] at hn
    simp only [firstOf_cons, List.cons_append, List.tail_cons, List.mem_append,
      List.mem_singleton, not_or]
    exact ⟨hn.2.1, Ne.symm hn.1.1⟩

variable [DecidableEq α]

/-- The end of an open path is linked to the sentinel it begins at. -/
theorem ring_close (hp : Path m (h :: l)) (hn : (h :: l).Nodup) :
    IsRing (m.link (lastOf h l) h) h l := by
  refine ⟨?_, hn⟩
  exact hp.join (path_singleton m h) (getLast?_cons_eq h l) rfl (lastOf_not_mem hn)
    List.not_mem_nil (List.nodup_cons.mp hn).1 List.not_mem_nil

/-- The neighbours of a node are linked. -/
theorem IsRing.remove (hr : IsRing m h (a ++ x :: b)) :
    IsRing (m.link (lastOf h a) (firstOf b h)) h (a ++ b) := by
  have hn : (h :: (a ++ b)).Nodup :=
    hr.nodup.sublist ((List.sublist_cons_self x b).append_left a |>.cons_cons h)
  have hfront := hr.front
  have hback : Path m (b ++ [h]) := by
    rw [List.append_cons] at hr
    exact hr.back
  have hlast := lastOf_mem h a
  have hfirst := firstOf_mem b h
  have hna : (h :: a).Nodup := hn.sublist ((List.sublist_append_left a b).cons_cons h)
  have hnb : (h :: b).Nodup := hn.sublist ((List.sublist_append_right a b).cons_cons h)
  refine ⟨?_, hn⟩
  rw [List.append_assoc, ← List.cons_append]
  refine hfront.join hback (getLast?_cons_eq h a) (head?_concat_eq b h) (lastOf_not_mem hna) ?_ ?_
    (firstOf_not_mem hnb)
  · grind
  · grind

/-- A node that is not in the ring is linked to both sides of a gap. -/
theorem IsRing.insert (hr : IsRing m h (a ++ b)) (hx : x ∉ h :: (a ++ b)) :
    IsRing ((m.link x (firstOf b h)).link (lastOf h a) x) h (a ++ x :: b) := by
  have hlast := lastOf_mem h a
  have hfirst := firstOf_mem b h
  have hna : (h :: a).Nodup := hr.nodup.sublist ((List.sublist_append_left a b).cons_cons h)
  have hnb : (h :: b).Nodup := hr.nodup.sublist ((List.sublist_append_right a b).cons_cons h)
  have hn := hr.nodup
  have hback : Path (m.link x (firstOf b h)) ([x] ++ (b ++ [h])) :=
    (path_singleton m x).join hr.back rfl (head?_concat_eq b h) List.not_mem_nil (by grind)
      List.not_mem_nil (firstOf_not_mem hnb)
  have hfront : Path (m.link x (firstOf b h)) (h :: a) :=
    hr.front.link (not_mem_dropLast (by grind)) (by grind)
  refine ⟨?_, ?_⟩
  · rw [List.append_assoc, ← List.cons_append]
    refine hfront.join hback (getLast?_cons_eq h a) rfl (lastOf_not_mem hna) ?_ ?_ ?_
    · grind
    · grind
    · grind
  · grind

section

variable {n q : α}

/-- The nodes from `q` on are moved to the sentinel `n`. -/
theorem IsRing.split (hr : IsRing m h (a ++ q :: b)) (hn : n ∉ h :: (a ++ q :: b)) :
    IsRing (((m.link (lastOf q b) n).link n q).link (lastOf h a) h) h a ∧
      IsRing (((m.link (lastOf q b) n).link n q).link (lastOf h a) h) n (q :: b) := by
  have hend := lastOf_mem q b
  have hlast := lastOf_mem h a
  have hnodup := hr.nodup
  have hna : (h :: a).Nodup := by grind
  have hnb : (q :: b).Nodup := by grind
  have hback : Path m (q :: b) := Path.left (b := [h]) hr.back
  have hopen : Path (m.link (lastOf q b) n) ((q :: b) ++ [n]) :=
    hback.join (path_singleton m n) (getLast?_cons_eq q b) rfl (lastOf_not_mem hnb)
      List.not_mem_nil (by grind) List.not_mem_nil
  have hring : Path ((m.link (lastOf q b) n).link n q) ([n] ++ ((q :: b) ++ [n])) :=
    (path_singleton _ n).join hopen rfl rfl List.not_mem_nil (by grind) List.not_mem_nil (by grind)
  have hfront : Path ((m.link (lastOf q b) n).link n q) (h :: a) :=
    (hr.front.link (not_mem_dropLast (by grind)) (by grind)).link (not_mem_dropLast (by grind))
      (by grind)
  refine ⟨ring_close hfront hna, ?_, by grind⟩
  refine hring.link ?_ ?_
  · rw [← List.append_assoc, List.dropLast_concat]
    grind
  · grind

/-- The nodes of the ring `n` come behind those of `h`. -/
theorem IsRing.append (hr : IsRing m h a) (hr' : IsRing m n (q :: b))
    (hn : (h :: (a ++ q :: b)).Nodup) :
    IsRing ((m.link (lastOf h a) q).link (lastOf q b) h) h (a ++ q :: b) := by
  have hlast := lastOf_mem h a
  have hfront : Path m (h :: a) := Path.left (b := [h]) hr.path
  have hback : Path m (q :: b) := Path.left (b := [n]) (IsRing.back (a := []) hr')
  have hopen : Path (m.link (lastOf h a) q) ((h :: a) ++ q :: b) :=
    hfront.join hback (getLast?_cons_eq h a) rfl (lastOf_not_mem hr.nodup)
      (not_mem_dropLast (by grind)) (by grind) (by grind)
  have hclosed := ring_close (l := a ++ q :: b) hopen hn
  rwa [lastOf_append] at hclosed

/-- The nodes of the ring `n` come in front of those of `h`. -/
theorem IsRing.prepend (hr : IsRing m h a) (hr' : IsRing m n (q :: b))
    (hn : (h :: (a ++ q :: b)).Nodup) :
    IsRing ((m.link (lastOf q b) (firstOf a h)).link h q) h (q :: b ++ a) := by
  have hend := lastOf_mem q b
  have hfirst := firstOf_mem a h
  have hnb : (q :: b).Nodup := by grind
  have hfront : Path m (q :: b) := Path.left (b := [n]) (IsRing.back (a := []) hr')
  have hopen : Path (m.link (lastOf q b) (firstOf a h)) ((q :: b) ++ (a ++ [h])) :=
    hfront.join (IsRing.back (a := []) hr) (getLast?_cons_eq q b) (head?_concat_eq a h)
      (lastOf_not_mem hnb) (by grind) (by grind) (firstOf_not_mem hr.nodup)
  have hring : Path ((m.link (lastOf q b) (firstOf a h)).link h q)
      ([h] ++ ((q :: b) ++ (a ++ [h]))) :=
    (path_singleton _ h).join hopen rfl rfl List.not_mem_nil (by grind) List.not_mem_nil (by grind)
  refine ⟨?_, by grind⟩
  rw [List.append_assoc]
  exact hring

end

end

end HCore.Rings
