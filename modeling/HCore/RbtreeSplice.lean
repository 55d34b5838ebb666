import HCore.RbtreeInsert

/-!
How a node leaves its place in a red-black tree, before the tree is balanced
again. A node with a child missing leaves its place to the other child; a node
with two children is replaced by its successor, which leaves its place to its
right child. The child points at its new parent even when it is the sentinel.
-/

namespace HCore.RbtreeSplice

open Machine BalancedTrees RbtreeModel RbtreeLinks RbtreeInsert

section

variable {m m' : NodeMemory} {s root n p y z : ℕ} {d : Side} {c c' : Color}
  {t u l r : BalancedTrees.Tree ℕ} {path path' : List (Frame ℕ)} {f : Frame ℕ}

/-- The loop of `hcore_rbtree_min` goes down to the left. -/
theorem rbtreeMin_loop (fuel : ℕ) (h : Holds m s root (plug path t)) (hne : t ≠ .nil)
    (hfuel : t.nodes.length ≤ fuel) :
    ∃ path' c y r, rbtreeMin m s fuel (t.root s) = Except.ok y ∧
      t = plug path' (.node c .nil y r) ∧ ∀ f ∈ path', f.side = .left := by
  induction fuel generalizing t path with
  | zero =>
    have hmem := root_mem hne s
    rw [List.eq_nil_of_length_eq_zero (Nat.le_zero.mp hfuel)] at hmem
    cases hmem
  | succ fuel ih =>
    cases t with
    | nil => exact absurd rfl hne
    | node c l x r =>
      have hview : Holds m s root (plug path (Tree.join .left c l x r)) := h
      obtain ⟨hload, -⟩ := hview.loadChild
      simp only [Tree.nodes, List.length_append, List.length_cons] at hfuel
      by_cases hnil : l = .nil
      · subst hnil
        exact ⟨[], c, x, r, bind_of_ok hload (if_neg (not_not.mpr rfl)), rfl, by simp⟩
      · have hsub : Holds m s root (plug (⟨.left, c, x, r⟩ :: path) l) := h
        obtain ⟨path', c', y, r', hrun, rfl, hleft⟩ := ih hsub hnil (by omega)
        refine ⟨path' ++ [⟨.left, c, x, r⟩], c', y, r', ?_, ?_, ?_⟩
        · exact bind_of_ok hload ((if_pos (hsub.root_ne_sentinel hnil)).trans hrun)
        · rw [plug_append]
          rfl
        · intro f hf
          rcases List.mem_append.mp hf with hf | hf
          · exact hleft f hf
          · rw [List.mem_singleton.mp hf]

/-- A node below a frame is replaced in its parent. -/
theorem Holds.replaceChild (h : Holds m s root (plug (f :: path) t)) (hne : t ≠ .nil) (q : ℕ) :
    RbtreeModel.replaceChild .left m (t.root s) q = Except.ok (m.setChild f.side f.node q) := by
  have hview : Holds m s root (plug path (Tree.join f.side f.color t f.node f.sibling)) := h
  obtain ⟨-, hchild, hother, -⟩ := linked_join.mp hview.linked.focus
  have hg0 := hview.root_ne_zero
  rw [join_root] at hg0
  refine replaceChild_eq h.root_ne_zero hg0 (h.parent hne) hchild ?_ .left
  rw [hother]
  exact (hview.sibling_ne (Or.inl hne)).symm

/-- The memory after a node that left the tree has been cleared. -/
theorem Holds.clearNode (h : Holds m s root t) (hz : z ≠ 0) (hout : z ∉ t.nodes) :
    ∃ m', clearNode m z = Except.ok m' ∧ Holds m' s root t ∧ m'.top = m.top ∧
      (∀ x, x ≠ z → m'.key x = m.key x) ∧ ∀ x, x ≠ z → m'.parent x = m.parent x := by
  have hne {x : ℕ} (hx : x ∈ t.nodes) : x ≠ z := fun heq => hout (heq ▸ hx)
  refine ⟨_, bind_of_ok (storeChild_of_ne .left hz 0) (bind_of_ok (storeChild_of_ne .right hz 0)
    (bind_of_ok (storeParent_of_ne hz 0) (if_neg hz))), ⟨?_, h.root_eq, h.nodup, h.bound, h.sentinel,
    h.black⟩, rfl, fun x hx => if_neg hx, fun x hx => if_neg hx⟩
  refine h.linked.congr h.nodup (fun _ _ => rfl) ?_ (fun x hx _ => if_neg (hne hx))
  intro k x hx
  refine (if_neg fun hsame => hne hx hsame.2).trans ?_
  exact if_neg fun hsame => hne hx hsame.2

/-- A part of a tree in memory is one too. -/
theorem Holds.sublist (h : Holds m s root t) (hlinked : Linked m' s u) (hroot : u.root s = p)
    (htop : m'.top = m.top) (hcolor : m'.color s = m.color s) (hsub : u.nodes.Sublist t.nodes) :
    Holds m' s p u := by
  refine ⟨hlinked, hroot, hsub.nodup h.nodup, ?_, h.sentinel, hcolor.trans h.black⟩
  intro x hx
  rw [htop]
  exact h.bound x (hsub.subset hx)

/-- A node outside a subtree is not the root of that subtree, nor the sentinel. -/
theorem Holds.ne_root_of_not_mem {x : ℕ} (h : Holds m s root t) (hx : x ∈ t.nodes)
    (hout : x ∉ u.nodes) : x ≠ u.root s := by
  by_cases hnil : u = .nil
  · rw [hnil]
    exact h.ne_sentinel hx
  · exact fun heq => hout (heq ▸ root_mem hnil s)

/-- A node with a child missing leaves its place to the other child `u`. -/
theorem Holds.spliceLeaf (h : Holds m s root (plug (f :: path) (.node c l z r)))
    (hu : (l = .nil ∧ u = r) ∨ (r = .nil ∧ u = l)) :
    ∃ m1 m', RbtreeModel.replaceChild .left m z (u.root s) = Except.ok m1 ∧
      takePlace m1 root s z z (u.root s) = Except.ok (m', root) ∧
      Holds m' s root (plug (f :: path) u) ∧ m'.parent (u.root s) = f.node ∧ m'.top = m.top ∧
      m'.key = m.key := by
  have hlinked := h.linked.focus
  obtain ⟨-, -, -, -, -, hll, hlr⟩ := hlinked
  obtain ⟨hnodup, -, hdisjoint⟩ := nodup_plug h.nodup
  have hlu : Linked m s u := by
    rcases hu with ⟨-, rfl⟩ | ⟨-, rfl⟩
    · exact hlr
    · exact hll
  have hsub : u.nodes.Sublist (BalancedTrees.Tree.node c l z r).nodes := by
    rcases hu with ⟨-, rfl⟩ | ⟨-, rfl⟩
    · exact (List.sublist_cons_self z _).trans (List.sublist_append_right _ _)
    · exact List.sublist_append_left _ _
  have hfmem : f.node ∈ pathNodes (f :: path) := mem_pathNodes_cons.mpr (Or.inl rfl)
  have hu0 : u.root s ≠ 0 := by
    by_cases hnil : u = .nil
    · rw [hnil]
      exact h.sentinel.ne'
    · exact h.ne_zero (mem_plug.mpr (Or.inl (hsub.subset (root_mem hnil s))))
  have hparent := h.parent (by simp)
  have hout {x : ℕ} (hx : x ∈ pathNodes (f :: path)) : x ≠ u.root s :=
    Holds.ne_root_of_not_mem h (mem_plug.mpr (Or.inr hx)) fun hmem => hdisjoint x (hsub.subset hmem) hx
  refine ⟨_, (m.setChild f.side f.node (u.root s)).setParent (u.root s) (m.parent z),
    Holds.replaceChild h (by simp) (u.root s), ?_, ?_, (if_pos rfl).trans hparent, rfl, rfl⟩
  · unfold takePlace
    rw [if_pos rfl]
    refine bind_of_ok (loadParent_of_ne h.root_ne_zero) ?_
    exact bind_of_ok (storeParent_of_ne hu0 _) rfl
  · refine Holds.sublist h ?_ ?_ rfl rfl ?_
    · refine h.linked.graft h.nodup ?_ ?_ ?_ ?_ (fun _ _ => rfl) ?_ ?_
      · refine hlu.congr (hsub.nodup hnodup) (fun _ _ => rfl) ?_ (fun x _ hne => if_neg hne)
        intro k x hx
        exact if_neg fun hsame : k = f.side ∧ x = f.node =>
          hdisjoint x (hsub.subset hx) (hsame.2 ▸ hfmem)
      · cases u with
        | nil => trivial
        | node _ _ x _ => exact (if_pos rfl).trans hparent
      · exact if_pos ⟨rfl, rfl⟩
      · exact if_neg fun hsame => opposite_ne _ hsame.1
      · intro k x _ hne
        exact if_neg fun hsame => hne hsame.2
      · intro x hx
        exact if_neg (hout hx)
    · refine Eq.trans ?_ h.root_eq
      exact plug_root path (by rw [join_root, join_root])
    · rw [plug_nodes, plug_nodes]
      exact (hsub.append_right _).append_left _

/-- The place above a position. -/
def placeAbove (path : List (Frame ℕ)) : Option (Side × ℕ) := path.head?.map fun f => (f.side, f.node)

theorem placeAbove_ne {x : ℕ} (hx : x ∉ pathNodes path) (k : Side) : placeAbove path ≠ some (k, x) := by
  intro heq
  cases path with
  | nil => cases heq
  | cons f path =>
    simp only [placeAbove, List.head?_cons, Option.map_some, Option.some.injEq, Prod.mk.injEq] at heq
    exact hx (mem_pathNodes_cons.mpr (Or.inl heq.2.symm))

/-- The root when `y` comes to a position. -/
def rootBelow (root y : ℕ) : List (Frame ℕ) → ℕ
  | [] => y
  | _ :: _ => root

/-- The memory after `y`, which had left its place `(e, g)` to `temp`, has
taken over the place, the color and the children `l` and `r` of `z`. -/
structure Taken (m m' : NodeMemory) (s y z temp l r : ℕ) (e : Side) (g : ℕ) (c : Color)
    (above : Option (Side × ℕ)) : Prop where
  top : m'.top = m.top
  key : m'.key = m.key
  color : ∀ x, m'.color x = if x = y then c else m.color x
  child : ∀ k x, m'.child k x =
    if above = some (k, x) then y
    else if x = y then (if k = .left then l else r)
    else if k = e ∧ x = g then temp
    else m.child k x
  parent : ∀ x, m'.parent x =
    if r ≠ s ∧ x = r then y
    else if x = l then y
    else if x = y then m.parent z
    else if x = temp then (if g = z then y else g)
    else m.parent x

/-- `y` replaces `z` in its parent, or becomes the root. -/
theorem replace_above (h : Holds m s root (plug path t)) (hne : t ≠ .nil) (m' : NodeMemory)
    (hparent : m'.parent (t.root s) = m.parent (t.root s))
    (hchild : ∀ k, ∀ x ∈ pathNodes path, m'.child k x = m.child k x) (y : ℕ) :
    ∃ m'' root', replace .left m' root (t.root s) y = Except.ok (m'', root') ∧
      m''.top = m'.top ∧ m''.key = m'.key ∧ m''.color = m'.color ∧ m''.parent = m'.parent ∧
      (∀ k x, m''.child k x = if placeAbove path = some (k, x) then y else m'.child k x) ∧
      root' = rootBelow root y path := by
  cases path with
  | nil => exact ⟨m', y, if_pos h.root_nil, rfl, rfl, rfl, rfl, fun k x => by simp [placeAbove], rfl⟩
  | cons f path =>
    have hview : Holds m s root (plug path (Tree.join f.side f.color t f.node f.sibling)) := h
    obtain ⟨-, hside, hother, -⟩ := linked_join.mp hview.linked.focus
    have hmem : f.node ∈ pathNodes (f :: path) := mem_pathNodes_cons.mpr (Or.inl rfl)
    have hg0 := hview.root_ne_zero
    rw [join_root] at hg0
    have hrun : RbtreeModel.replaceChild .left m' (t.root s) y =
        Except.ok (m'.setChild f.side f.node y) := by
      refine replaceChild_eq h.root_ne_zero hg0 (hparent.trans (h.parent hne))
        ((hchild _ _ hmem).trans hside) ?_ .left
      rw [hchild _ _ hmem, hother]
      exact (hview.sibling_ne (Or.inl hne)).symm
    refine ⟨_, root, (if_neg (h.ne_root hne)).trans (bind_of_ok hrun rfl), rfl, rfl, rfl, rfl, ?_, rfl⟩
    intro k x
    simp only [NodeMemory.setChild, placeAbove, List.head?_cons, Option.map_some, Option.some.injEq,
      Prod.mk.injEq, eq_comm]

variable {e : Side} {g temp lr rr : ℕ} {q : Frame ℕ}

/-- The memory of `substitute` in front of the change above `z`: `temp` has its
new parent, and `y` what `z` has. -/
def handedOver (m : NodeMemory) (y z temp lr rr : ℕ) (e : Side) (g : ℕ) (c : Color) : NodeMemory :=
  (((((m.setChild e g temp).setParent temp (if g = z then y else g)).setChild .left y lr).setChild
    .right y rr).setParent y (m.parent z)).setColor y c

theorem handedOver_child (k : Side) (x : ℕ) : (handedOver m y z temp lr rr e g c).child k x =
    if x = y then (if k = .left then lr else rr)
    else if k = e ∧ x = g then temp
    else m.child k x := by
  simp only [handedOver, NodeMemory.setChild, NodeMemory.setParent, NodeMemory.setColor]
  by_cases hxy : x = y
  · cases k <;> simp [hxy]
  · simp [hxy]

theorem handedOver_parent (x : ℕ) : (handedOver m y z temp lr rr e g c).parent x =
    if x = y then m.parent z
    else if x = temp then (if g = z then y else g)
    else m.parent x := rfl

theorem linkParent_reads (hr0 : rr ≠ 0) (m : NodeMemory) (y : ℕ) :
    ∃ m', linkParent m s rr y = Except.ok m' ∧ m'.top = m.top ∧ m'.key = m.key ∧
      m'.color = m.color ∧ m'.child = m.child ∧
      ∀ x, m'.parent x = if rr ≠ s ∧ x = rr then y else m.parent x := by
  unfold linkParent
  by_cases hrs : rr ≠ s
  · rw [if_pos hrs]
    refine ⟨_, storeParent_of_ne hr0 y, rfl, rfl, rfl, rfl, ?_⟩
    intro x
    simp only [NodeMemory.setParent, hrs, ne_eq, not_false_eq_true, true_and]
  · rw [if_neg hrs]
    refine ⟨m, rfl, rfl, rfl, rfl, rfl, ?_⟩
    intro x
    rw [if_neg fun hsame => hrs hsame.1]

/-- The calls of `substitute`, with the values that it reads. -/
theorem substitute_eq {m7 m9 : NodeMemory} {root' : ℕ} (hz0 : z ≠ 0) (hy0 : y ≠ 0) (ht0 : temp ≠ 0)
    (hl0 : lr ≠ 0) (hls : lr ≠ s) (hyz : y ≠ z) (htz : temp ≠ z) (hgz : g = z → e = .right)
    (hparent : m.parent y = g) (hcolor : m.color z = c) (hleft : m.child .left z = lr)
    (hright : (if g = z then temp else m.child .right z) = rr)
    (hreplace : replace .left (handedOver m y z temp lr rr e g c) root z y = Except.ok (m7, root'))
    (hleft7 : m7.child .left y = lr) (hright7 : m7.child .right y = rr)
    (hlink : linkParent (m7.setParent lr y) s rr y = Except.ok m9) :
    takePlace (m.setChild e g temp) root s z y temp = Except.ok (m9, root') := by
  let m2 := (m.setChild e g temp).setParent temp (if g = z then y else g)
  let m3 := m2.setChild .left y lr
  let m4 := m3.setChild .right y rr
  have hload2 : m2.child .left z = lr := by
    refine Eq.trans (if_neg ?_) hleft
    rintro ⟨hside, heq⟩
    rw [hgz heq.symm] at hside
    cases hside
  have hload3 : m3.child .right z = rr := by
    change (if Side.right = e ∧ z = g then temp else m.child .right z) = rr
    rw [← hright]
    by_cases heq : g = z
    · rw [if_pos ⟨(hgz heq).symm, heq.symm⟩, if_pos heq]
    · rw [if_neg fun hsame => heq hsame.2.symm, if_neg heq]
  have hload4 : m4.parent z = m.parent z := if_neg (Ne.symm htz)
  have hcolor5 : (m4.setParent y (m.parent z)).color z = c := hcolor
  unfold takePlace
  rw [if_neg hyz]
  unfold substitute
  refine bind_of_ok ((loadParent_of_ne hy0).trans (congrArg Except.ok hparent)) ?_
  refine bind_of_ok (storeParent_of_ne ht0 _) ?_
  refine bind_of_ok ((loadChild_of_ne .left hz0).trans (congrArg Except.ok hload2)) ?_
  refine bind_of_ok (storeChild_of_ne .left hy0 _) ?_
  refine bind_of_ok ((loadChild_of_ne .right hz0).trans (congrArg Except.ok hload3)) ?_
  refine bind_of_ok (storeChild_of_ne .right hy0 _) ?_
  refine bind_of_ok ((loadParent_of_ne hz0).trans (congrArg Except.ok hload4)) ?_
  refine bind_of_ok (storeParent_of_ne hy0 _) ?_
  refine bind_of_ok (if_neg hz0) ?_
  rw [hcolor5]
  refine bind_of_ok (storeColor_of_ne hy0 _) ?_
  refine bind_of_ok hreplace ?_
  have hadopt7 : adopt .left m7 s y = Except.ok (m7.setParent lr y) := by
    refine bind_of_ok ((loadChild_of_ne .left hy0).trans (congrArg Except.ok hleft7)) ?_
    exact (if_pos hls).trans (storeParent_of_ne hl0 y)
  have hadopt8 : adopt .right (m7.setParent lr y) s y = Except.ok m9 :=
    bind_of_ok ((loadChild_of_ne .right hy0).trans (congrArg Except.ok hright7)) hlink
  exact bind_of_ok hadopt7 (bind_of_ok hadopt8 rfl)

/-- The links that `substitute` writes. -/
theorem substitute_taken (h : Holds m s root (plug path (.node c l z r)))
    (hl : l ≠ .nil) (hy0 : y ≠ 0) (hyz : y ≠ z) (hyp : y ∉ pathNodes path)
    (hgp : g ∉ pathNodes path) (ht0 : temp ≠ 0) (htz : temp ≠ z) (hparent : m.parent y = g)
    (hgz : g = z → e = .right) (hright : (if g = z then temp else r.root s) = rr) (hr0 : rr ≠ 0) :
    ∃ m' root', takePlace (m.setChild e g temp) root s z y temp = Except.ok (m', root') ∧
      Taken m m' s y z temp (l.root s) rr e g c (placeAbove path) ∧
      root' = rootBelow root y path := by
  obtain ⟨hc, hzl, hzr, -⟩ := h.linked.focus
  have hview : Holds m s root (plug (⟨.left, c, z, r⟩ :: path) l) := h
  have hzparent : (handedOver m y z temp (l.root s) rr e g c).parent z = m.parent z := by
    rw [handedOver_parent, if_neg hyz.symm, if_neg htz.symm]
  obtain ⟨m7, root', hrun7, htop7, hkey7, hcolor7, hparent7, hchild7, hroot⟩ :=
    replace_above h (by simp) _ hzparent (by
      intro k x hx
      have hxy : x ≠ y := fun heq => hyp (heq ▸ hx)
      have hxg : x ≠ g := fun heq => hgp (heq ▸ hx)
      rw [handedOver_child, if_neg hxy, if_neg fun hsame => hxg hsame.2]) y
  have hchild7y (k : Side) : m7.child k y = if k = .left then l.root s else rr := by
    rw [hchild7, if_neg (placeAbove_ne hyp k), handedOver_child, if_pos rfl]
  obtain ⟨m9, hrun9, htop9, hkey9, hcolor9, hchild9, hparent9⟩ :=
    linkParent_reads hr0 (m7.setParent (l.root s) y) y
  refine ⟨m9, root', ?_, ⟨?_, ?_, ?_, ?_, ?_⟩, hroot⟩
  · exact substitute_eq h.root_ne_zero hy0 ht0 hview.root_ne_zero (hview.root_ne_sentinel hl) hyz htz
      hgz hparent hc hzl (hzr ▸ hright) hrun7 ((hchild7y .left).trans (if_pos rfl))
      ((hchild7y .right).trans (if_neg (by simp))) hrun9
  · exact htop9.trans htop7
  · exact hkey9.trans hkey7
  · intro x
    exact congrFun (hcolor9.trans hcolor7) x
  · intro k x
    rw [hchild9]
    change m7.child k x = _
    rw [hchild7, handedOver_child]
  · intro x
    have h8 : (m7.setParent (l.root s) y).parent x = if x = l.root s then y else m7.parent x := rfl
    rw [hparent9, h8, hparent7, handedOver_parent]

theorem Taken.child_same (hk : Taken m m' s y z temp lr rr e g c (placeAbove path)) {x : ℕ} (k : Side)
    (hxp : x ∉ pathNodes path) (hxy : x ≠ y) (hxg : ¬ (k = e ∧ x = g)) : m'.child k x = m.child k x := by
  rw [hk.child, if_neg (placeAbove_ne hxp k), if_neg hxy, if_neg hxg]

theorem Taken.parent_same (hk : Taken m m' s y z temp lr rr e g c (placeAbove path)) {x : ℕ}
    (hxr : rr ≠ s → x ≠ rr) (hxl : x ≠ lr) (hxy : x ≠ y) (hxt : x ≠ temp) :
    m'.parent x = m.parent x := by
  rw [hk.parent, if_neg fun hsame => hxr hsame.1 hsame.2, if_neg hxl, if_neg hxy, if_neg hxt]

/-- Subtrees apart from the places that were written stay linked. -/
theorem Taken.linked (hk : Taken m m' s y z temp lr rr e g c (placeAbove path)) (hu : Linked m s u)
    (hnodup : u.nodes.Nodup) (hout : ∀ x ∈ u.nodes, x ∉ pathNodes path ∧ x ≠ y ∧ x ≠ g)
    (hbelow : ∀ x ∈ u.nodes, x ≠ u.root s → (rr ≠ s → x ≠ rr) ∧ x ≠ lr ∧ x ≠ temp) :
    Linked m' s u := by
  refine hu.congr hnodup ?_ ?_ ?_
  · intro x hx
    rw [hk.color, if_neg (hout x hx).2.1]
  · intro k x hx
    obtain ⟨hxp, hxy, hxg⟩ := hout x hx
    exact hk.child_same k hxp hxy fun hsame => hxg hsame.2
  · intro x hx hne
    obtain ⟨hxr, hxl, hxt⟩ := hbelow x hx hne
    exact hk.parent_same hxr hxl (hout x hx).2.1 hxt

/-- The right subtree, when the successor was below its root. -/
theorem Taken.linked_right {cy : Color} {ry : BalancedTrees.Tree ℕ}
    (hk : Taken m m' s y z (ry.root s) lr rr q.side q.node c (placeAbove path))
    (hr : Linked m s (plug (q :: path') (.node cy .nil y ry)))
    (hnodup : (plug (q :: path') (BalancedTrees.Tree.node cy .nil y ry)).nodes.Nodup)
    (hrr : rr = (plug (q :: path') ry).root s) (hqz : q.node ≠ z) (hs : s ≠ rr)
    (hout : ∀ x ∈ (plug (q :: path') (BalancedTrees.Tree.node cy .nil y ry)).nodes, x ∉ pathNodes path ∧ x ≠ lr)
    (hsout : s ∉ (plug (q :: path') (BalancedTrees.Tree.node cy .nil y ry)).nodes) :
    Linked m' s (plug (q :: path') ry) := by
  obtain ⟨hinner, -, hdisjoint⟩ := nodup_plug hnodup
  obtain ⟨-, hyry, -, hnodupry, -⟩ := nodup_join (d := .left) hinner
  have hqmem : q.node ∈ pathNodes (q :: path') := mem_pathNodes_cons.mpr (Or.inl rfl)
  have hrrmem : rr ∈ pathNodes (q :: path') := by
    rw [hrr]
    exact root_mem_pathNodes s q path' ry
  have hiny {x : ℕ} (hx : x ∈ ry.nodes) : x ∈ (BalancedTrees.Tree.node cy .nil y ry).nodes := by
    simp [Tree.nodes, hx]
  have hymem : y ∈ (BalancedTrees.Tree.node cy .nil y ry).nodes := by simp [Tree.nodes]
  have hin {x : ℕ}
      (hx : x ∈ (BalancedTrees.Tree.node cy .nil y ry).nodes ∨ x ∈ pathNodes (q :: path')) :=
    hout x (mem_plug.mpr hx)
  have hxtemp {x : ℕ} (hx : x ∈ pathNodes (q :: path')) : x ≠ ry.root s := by
    by_cases hnil : ry = .nil
    · rw [hnil]
      rintro rfl
      exact hsout (mem_plug.mpr (Or.inr hx))
    · exact fun heq => hdisjoint _ (hiny (root_mem hnil s)) (heq ▸ hx)
  have hxy {x : ℕ} (hx : x ∈ pathNodes (q :: path')) : x ≠ y :=
    fun heq => hdisjoint y hymem (heq ▸ hx)
  obtain ⟨-, -, -, -, -, -, hry⟩ := hr.focus
  have hry' : Linked m' s ry := hk.linked hry hnodupry
    (fun x hx => ⟨(hin (Or.inl (hiny hx))).1, fun heq : x = y => hyry (heq ▸ hx),
      fun heq : x = q.node => hdisjoint x (hiny hx) (heq ▸ hqmem)⟩)
    (fun x hx hne => ⟨fun _ (heq : x = rr) => hdisjoint x (hiny hx) (heq ▸ hrrmem),
      (hin (Or.inl (hiny hx))).2, hne⟩)
  -- the root of the subtree has its new parent already, which is no matter inside it
  have hback : Linked (m'.setParent rr (m.parent rr)) s (plug (q :: path') ry) := by
    refine hr.graft hnodup ?_ ?_ ?_ ?_ ?_ ?_ ?_
    · exact hry'.congr hnodupry (fun _ _ => rfl) (fun _ _ _ => rfl)
        (fun x hx _ => if_neg fun heq : x = rr => hdisjoint x (hiny hx) (heq ▸ hrrmem))
    · cases ry with
      | nil => trivial
      | node c' l' x r' =>
        have hxmem : x ∈ (BalancedTrees.Tree.node c' l' x r').nodes := by simp [Tree.nodes]
        have hxrr : x ≠ rr := fun heq => hdisjoint x (hiny hxmem) (heq ▸ hrrmem)
        refine (if_neg hxrr).trans ?_
        have hxy' : x ≠ y := fun heq => hyry (heq ▸ hxmem)
        rw [hk.parent, if_neg fun hsame => hxrr hsame.2, if_neg (hin (Or.inl (hiny hxmem))).2,
          if_neg hxy']
        exact (if_pos rfl).trans (if_neg hqz)
    · change m'.child q.side q.node = _
      rw [hk.child, if_neg (placeAbove_ne (hin (Or.inr hqmem)).1 _), if_neg (hxy hqmem),
        if_pos ⟨rfl, rfl⟩]
    · exact hk.child_same _ (hin (Or.inr hqmem)).1 (hxy hqmem) fun hsame => opposite_ne _ hsame.1
    · intro x hx
      change m'.color x = m.color x
      rw [hk.color, if_neg (hxy hx)]
    · intro k x hx hne
      exact hk.child_same k (hin (Or.inr hx)).1 (hxy hx) fun hsame => hne hsame.2
    · intro x hx
      by_cases hxrr : x = rr
      · rw [hxrr]
        exact if_pos rfl
      · refine (if_neg hxrr).trans ?_
        exact hk.parent_same (fun _ => hxrr) (hin (Or.inr hx)).2 (hxy hx) (hxtemp hx)
  have hnodup' : (plug (q :: path') ry).nodes.Nodup := by
    have hsub : (plug (q :: path') ry).nodes.Sublist
        (plug (q :: path') (BalancedTrees.Tree.node cy .nil y ry)).nodes := by
      rw [plug_nodes, plug_nodes]
      exact ((List.sublist_cons_self y _).append_right _).append_left _
    exact hsub.nodup hnodup
  refine hback.congr hnodup' (fun _ _ => rfl) (fun _ _ _ => rfl) ?_
  intro x _ hne
  rw [← hrr] at hne
  exact (if_neg hne).symm

/-- The successor is in the right tree only. -/
theorem Holds.successor_apart (h : Holds m s root (plug path (.node c l z r)))
    (hnodes : r.nodes = y :: u.nodes) : y ∉ pathNodes path ∧ y ∉ l.nodes ∧ y ∉ u.nodes ∧
      y ∈ (plug path (BalancedTrees.Tree.node c l z r)).nodes := by
  obtain ⟨hinner, -, hdisjoint⟩ := nodup_plug h.nodup
  obtain ⟨-, -, -, hnodupr, hlr⟩ := nodup_join (d := .left) hinner
  rw [hnodes] at hnodupr hlr
  have hy : y ∈ (BalancedTrees.Tree.node c l z r).nodes := by simp [Tree.nodes, hnodes]
  exact ⟨hdisjoint y hy, fun hmem => hlr y hmem List.mem_cons_self, (List.nodup_cons.mp hnodupr).1,
    mem_plug.mpr (Or.inl hy)⟩

/-- `y` has the children `l` and `u`. -/
theorem Taken.node (hk : Taken m m' s y z temp (l.root s) (u.root s) e g c (placeAbove path))
    (h : Holds m s root (plug path (.node c l z r))) (hl : l ≠ .nil) (hll : Linked m' s l)
    (hlu : Linked m' s u) (hnodes : r.nodes = y :: u.nodes) : Linked m' s (.node c l y u) := by
  obtain ⟨hyp, -, -, -⟩ := Holds.successor_apart h hnodes
  obtain ⟨-, -, -, -, hlr⟩ := nodup_join (d := .left) (nodup_plug h.nodup).1
  have hin {x : ℕ} (hx : x ∈ l.nodes ∨ x ∈ u.nodes) :
      x ∈ (plug path (BalancedTrees.Tree.node c l z r)).nodes := by
    refine mem_plug.mpr (Or.inl ?_)
    rcases hx with hx | hx <;> simp [Tree.nodes, hnodes, hx]
  have hlu' : l.root s ∉ u.nodes := fun hmem => hlr _ (root_mem hl s) (by simp [hnodes, hmem])
  have hunderl : Under m' y l := by
    cases l with
    | nil => trivial
    | node _ _ x _ =>
      refine (hk.parent x).trans ((if_neg fun hsame => ?_).trans (if_pos rfl))
      exact Holds.ne_root_of_not_mem h (hin (Or.inl (root_mem hl s))) hlu' hsame.2
  have hunderu : Under m' y u := by
    cases u with
    | nil => trivial
    | node c' a x b =>
      have hxs : x ≠ s := h.ne_sentinel (hin (Or.inr (by simp [Tree.nodes])))
      exact (hk.parent x).trans (if_pos ⟨hxs, rfl⟩)
  refine ⟨(hk.color y).trans (if_pos rfl), ?_, ?_, hunderl, hunderu, hll, hlu⟩
  · rw [hk.child, if_neg (placeAbove_ne hyp _), if_pos rfl, if_pos rfl]
  · rw [hk.child, if_neg (placeAbove_ne hyp _), if_pos rfl, if_neg (by simp)]

/-- `y` with the children `l` and `u` stands where `z` was. -/
theorem Taken.holds (hk : Taken m m' s y z temp (l.root s) (u.root s) e g c (placeAbove path))
    (h : Holds m s root (plug path (.node c l z r))) (hl : l ≠ .nil) (hll : Linked m' s l)
    (hlu : Linked m' s u) (hnodes : r.nodes = y :: u.nodes) (hgp : g ∉ pathNodes path)
    (htp : temp ∉ pathNodes path) :
    Holds m' s (rootBelow root y path) (plug path (.node c l y u)) := by
  obtain ⟨hyp, hyl, hyu, hyt⟩ := Holds.successor_apart h hnodes
  have hnode := hk.node h hl hll hlu hnodes
  have hsub : (plug path (.node c l y u)).nodes.Sublist (plug path (.node c l z r)).nodes := by
    rw [plug_nodes, plug_nodes, Tree.nodes, Tree.nodes, ← hnodes]
    exact (((List.sublist_cons_self z _).append_left _).append_right _).append_left _
  refine Holds.sublist h ?_ ?_ hk.top ?_ hsub
  · cases path with
    | nil => exact hnode
    | cons f path =>
      have hfmem : f.node ∈ pathNodes (f :: path) := mem_pathNodes_cons.mpr (Or.inl rfl)
      have hpy {x : ℕ} (hx : x ∈ pathNodes (f :: path)) : x ≠ y := fun heq => hyp (heq ▸ hx)
      have hpin {x : ℕ} (hx : x ∈ pathNodes (f :: path)) :
          x ∈ (plug (f :: path) (BalancedTrees.Tree.node c l z r)).nodes :=
        mem_plug.mpr (Or.inr hx)
      refine h.linked.graft h.nodup hnode ?_ ?_ ?_ ?_ ?_ ?_
      · change m'.parent y = f.node
        rw [hk.parent, if_neg fun hsame => Holds.ne_root_of_not_mem h hyt hyu hsame.2,
          if_neg (Holds.ne_root_of_not_mem h hyt hyl), if_pos rfl]
        exact h.parent (by simp)
      · exact (hk.child _ _).trans (if_pos rfl)
      · refine (hk.child _ _).trans ((if_neg ?_).trans ((if_neg (hpy hfmem)).trans (if_neg ?_)))
        · intro hsame
          simp only [placeAbove, List.head?_cons, Option.map_some, Option.some.injEq, Prod.mk.injEq,
            and_true, ne_opposite] at hsame
        · exact fun hsame => hgp (hsame.2 ▸ hfmem)
      · intro x hx
        exact (hk.color x).trans (if_neg (hpy hx))
      · intro k x hx hne
        refine (hk.child _ _).trans ((if_neg ?_).trans ((if_neg (hpy hx)).trans (if_neg ?_)))
        · intro hsame
          simp only [placeAbove, List.head?_cons, Option.map_some, Option.some.injEq,
            Prod.mk.injEq] at hsame
          exact hne hsame.2.symm
        · exact fun hsame => hgp (hsame.2 ▸ hx)
      · intro x hx
        have hout : x ∉ (BalancedTrees.Tree.node c l z r).nodes :=
          fun hmem => (nodup_plug h.nodup).2.2 x hmem hx
        have hxu : x ∉ u.nodes := fun hmem => hout (by simp [Tree.nodes, hnodes, hmem])
        have hxl : x ∉ l.nodes := fun hmem => hout (by simp [Tree.nodes, hmem])
        refine hk.parent_same ?_ (Holds.ne_root_of_not_mem h (hpin hx) hxl) (hpy hx)
          fun heq => htp (heq ▸ hx)
        exact fun _ => Holds.ne_root_of_not_mem h (hpin hx) hxu
  · cases path with
    | nil => rfl
    | cons f path =>
      refine Eq.trans ?_ h.root_eq
      exact plug_root path (by rw [join_root, join_root])
  · exact (hk.color s).trans (if_neg (h.ne_sentinel hyt).symm)

variable {cy : Color} {ry : BalancedTrees.Tree ℕ} {Q : List (Frame ℕ)}

/-- The successor is the right child of `z`. -/
theorem Holds.spliceChild (h : Holds m s root (plug path (.node c l z (.node cy .nil y ry))))
    (hl : l ≠ .nil) :
    ∃ m1 m' root', RbtreeModel.replaceChild .left m y (ry.root s) = Except.ok m1 ∧
      takePlace m1 root s z y (ry.root s) = Except.ok (m', root') ∧
      Holds m' s root' (plug (⟨.right, c, y, l⟩ :: path) ry) ∧ m'.parent (ry.root s) = y ∧
      m'.top = m.top ∧ m'.key = m.key := by
  obtain ⟨hinner, -, hdisjoint⟩ := nodup_plug h.nodup
  obtain ⟨hzl, hzr, hnodupl, hnodupr, hlr⟩ := nodup_join (d := .left) hinner
  obtain ⟨-, hyry, -, hnodupry, -⟩ := nodup_join (d := .left) hnodupr
  have hfocus : Holds m s root (plug (⟨.right, c, z, l⟩ :: path) (.node cy .nil y ry)) := h
  have hdeep : Holds m s root (plug (⟨.right, cy, y, .nil⟩ :: ⟨.right, c, z, l⟩ :: path) ry) := h
  obtain ⟨-, -, -, -, -, hll, -, -, -, -, -, -, hlry⟩ := h.linked.focus
  have hryr {x : ℕ} (hx : x ∈ ry.nodes) : x ∈ (BalancedTrees.Tree.node cy .nil y ry).nodes := by
    simp [Tree.nodes, hx]
  have hyr : y ∈ (BalancedTrees.Tree.node cy .nil y ry).nodes := by simp [Tree.nodes]
  have hin {x : ℕ} (hx : x = z ∨ x ∈ l.nodes ∨ x ∈ (BalancedTrees.Tree.node cy .nil y ry).nodes) :
      x ∈ (plug path (BalancedTrees.Tree.node c l z (.node cy .nil y ry))).nodes :=
    mem_plug.mpr (Or.inl (mem_join (d := .left) |>.mpr hx))
  have hout {x : ℕ} (hx : x = z ∨ x ∈ l.nodes ∨ x ∈ (BalancedTrees.Tree.node cy .nil y ry).nodes) :
      x ∉ pathNodes path := hdisjoint x (mem_join (d := .left) |>.mpr hx)
  have hyz : y ≠ z := fun heq => hzr (heq ▸ hyr)
  have htz : ry.root s ≠ z :=
    (Holds.ne_root_of_not_mem h (hin (Or.inl rfl)) fun hmem => hzr (hryr hmem)).symm
  have hrun := Holds.replaceChild hfocus (by simp) (ry.root s)
  obtain ⟨m', root', htake, hk, hroot⟩ : ∃ m' root',
      takePlace (m.setChild .right z (ry.root s)) root s z y (ry.root s) = Except.ok (m', root') ∧
      Taken m m' s y z (ry.root s) (l.root s) (ry.root s) .right z c (placeAbove path) ∧
      root' = rootBelow root y path :=
    substitute_taken h hl (h.ne_zero (hin (Or.inr (Or.inr hyr)))) hyz (hout (Or.inr (Or.inr hyr)))
      (hout (Or.inl rfl)) hdeep.root_ne_zero htz (hfocus.parent (by simp)) (fun _ => rfl)
      (if_pos rfl) hdeep.root_ne_zero
  have hll' : Linked m' s l := by
    refine hk.linked hll hnodupl ?_ ?_
    · intro x hx
      exact ⟨hout (Or.inr (Or.inl hx)), fun heq => hlr x hx (heq ▸ hyr), fun heq => hzl (heq ▸ hx)⟩
    · intro x hx hne
      have hxt : x ≠ ry.root s := Holds.ne_root_of_not_mem h (hin (Or.inr (Or.inl hx)))
        fun hmem => hlr x hx (hryr hmem)
      exact ⟨fun _ => hxt, hne, hxt⟩
  have hlry' : Linked m' s ry := by
    refine hk.linked hlry hnodupry ?_ ?_
    · intro x hx
      exact ⟨hout (Or.inr (Or.inr (hryr hx))), fun heq => hyry (heq ▸ hx),
        fun heq => hzr (hryr (heq ▸ hx))⟩
    · intro x hx hne
      have hxl : x ≠ l.root s := Holds.ne_root_of_not_mem h (hin (Or.inr (Or.inr (hryr hx))))
        fun hmem => hlr x hmem (hryr hx)
      exact ⟨fun _ => hne, hxl, hne⟩
  have htp : ry.root s ∉ pathNodes path := by
    intro hmem
    refine Holds.ne_root_of_not_mem (u := ry) h (mem_plug.mpr (Or.inr hmem)) ?_ rfl
    exact fun hry => hout (Or.inr (Or.inr (hryr hry))) hmem
  have hholds := hk.holds h hl hll' hlry' rfl (hout (Or.inl rfl)) htp
  refine ⟨_, m', root', hrun, htake, hroot ▸ hholds, ?_, hk.top, hk.key⟩
  have htl : ry.root s ≠ l.root s :=
    (Holds.ne_root_of_not_mem h (hin (Or.inr (Or.inl (root_mem hl s))))
      fun hmem => hlr _ (root_mem hl s) (hryr hmem)).symm
  have hty : ry.root s ≠ y := (Holds.ne_root_of_not_mem h (hin (Or.inr (Or.inr hyr))) hyry).symm
  rw [hk.parent]
  by_cases hrs : ry.root s ≠ s
  · exact if_pos ⟨hrs, rfl⟩
  · rw [if_neg fun hsame => hrs hsame.1, if_neg htl, if_neg hty, if_pos rfl, if_pos rfl]

/-- The successor is below the right child of `z`. -/
theorem Holds.spliceBelow (h : Holds m s root (plug path (.node c l z (plug (q :: Q) (.node cy .nil y ry)))))
    (hl : l ≠ .nil) (hleft : ∀ f ∈ q :: Q, f.side = .left) :
    ∃ m1 m' root', RbtreeModel.replaceChild .left m y (ry.root s) = Except.ok m1 ∧
      takePlace m1 root s z y (ry.root s) = Except.ok (m', root') ∧
      Holds m' s root' (plug (q :: Q ++ ⟨.right, c, y, l⟩ :: path) ry) ∧
      m'.parent (ry.root s) = q.node ∧ m'.top = m.top ∧ m'.key = m.key := by
  obtain ⟨hinner, -, hdisjoint⟩ := nodup_plug h.nodup
  obtain ⟨hzl, hzr, hnodupl, hnodupr, hlr⟩ := nodup_join (d := .left) hinner
  obtain ⟨hnodupy, -, hyQ⟩ := nodup_plug hnodupr
  obtain ⟨-, hyry, -, -, -⟩ := nodup_join (d := .left) hnodupy
  have hfocus : Holds m s root (plug (q :: Q ++ ⟨.right, c, z, l⟩ :: path) (.node cy .nil y ry)) := by
    rw [plug_append]
    exact h
  have hdeep : Holds m s root
      (plug (⟨.right, cy, y, .nil⟩ :: (q :: Q ++ ⟨.right, c, z, l⟩ :: path)) ry) := hfocus
  obtain ⟨-, -, -, -, -, hll, hlr'⟩ := h.linked.focus
  have hryr {x : ℕ} (hx : x ∈ ry.nodes) : x ∈ (BalancedTrees.Tree.node cy .nil y ry).nodes := by
    simp [Tree.nodes, hx]
  have hyr : y ∈ (BalancedTrees.Tree.node cy .nil y ry).nodes := by simp [Tree.nodes]
  have hqmem : q.node ∈ pathNodes (q :: Q) := mem_pathNodes_cons.mpr (Or.inl rfl)
  have hrmem {x : ℕ}
      (hx : x ∈ (BalancedTrees.Tree.node cy .nil y ry).nodes ∨ x ∈ pathNodes (q :: Q)) :
      x ∈ (plug (q :: Q) (BalancedTrees.Tree.node cy .nil y ry)).nodes := mem_plug.mpr hx
  have hin {x : ℕ}
      (hx : x = z ∨ x ∈ l.nodes ∨ x ∈ (plug (q :: Q) (BalancedTrees.Tree.node cy .nil y ry)).nodes) :
      x ∈ (plug path (BalancedTrees.Tree.node c l z (plug (q :: Q) (.node cy .nil y ry)))).nodes :=
    mem_plug.mpr (Or.inl (mem_join (d := .left) |>.mpr hx))
  have hout {x : ℕ}
      (hx : x = z ∨ x ∈ l.nodes ∨ x ∈ (plug (q :: Q) (BalancedTrees.Tree.node cy .nil y ry)).nodes) :
      x ∉ pathNodes path := hdisjoint x (mem_join (d := .left) |>.mpr hx)
  have hyin := hrmem (Or.inl hyr)
  have hqin := hrmem (Or.inr hqmem)
  have hrymem {x : ℕ} (hx : x ∈ ry.nodes) := hrmem (Or.inl (hryr hx))
  have hyz : y ≠ z := fun heq => hzr (heq ▸ hyin)
  have hqz : q.node ≠ z := fun heq => hzr (heq ▸ hqin)
  have htz : ry.root s ≠ z :=
    (Holds.ne_root_of_not_mem h (hin (Or.inl rfl)) fun hmem => hzr (hrymem hmem)).symm
  have hrrmem : (plug (q :: Q) ry).root s ∈ pathNodes (q :: Q) := root_mem_pathNodes s q Q ry
  have hrrin := hin (Or.inr (Or.inr (hrmem (Or.inr hrrmem))))
  have hrun := Holds.replaceChild hfocus (by simp) (ry.root s)
  have hright :
      (plug (q :: Q) (BalancedTrees.Tree.node cy .nil y ry)).root s = (plug (q :: Q) ry).root s :=
    plug_root Q (by rw [join_root, join_root])
  obtain ⟨m', root', htake, hk, hroot⟩ : ∃ m' root',
      takePlace (m.setChild q.side q.node (ry.root s)) root s z y (ry.root s) =
        Except.ok (m', root') ∧
      Taken m m' s y z (ry.root s) (l.root s) ((plug (q :: Q) ry).root s) q.side q.node c
        (placeAbove path) ∧
      root' = rootBelow root y path :=
    substitute_taken h hl (h.ne_zero (hin (Or.inr (Or.inr hyin)))) hyz
      (hout (Or.inr (Or.inr hyin))) (hout (Or.inr (Or.inr hqin))) hdeep.root_ne_zero htz
      (hfocus.parent (by simp)) (fun heq => absurd heq hqz) ((if_neg hqz).trans hright)
      (h.ne_zero hrrin)
  have hll' : Linked m' s l := by
    refine hk.linked hll hnodupl ?_ ?_
    · intro x hx
      exact ⟨hout (Or.inr (Or.inl hx)), fun heq => hlr x hx (heq ▸ hyin),
        fun heq => hlr x hx (heq ▸ hqin)⟩
    · intro x hx hne
      refine ⟨fun _ heq => hlr x hx (heq ▸ hrmem (Or.inr hrrmem)), hne, ?_⟩
      exact Holds.ne_root_of_not_mem h (hin (Or.inr (Or.inl hx))) fun hmem => hlr x hx (hrymem hmem)
  have hsout : s ∉ (plug (q :: Q) (BalancedTrees.Tree.node cy .nil y ry)).nodes :=
    fun hmem => h.ne_sentinel (hin (Or.inr (Or.inr hmem))) rfl
  have hlr'' : Linked m' s (plug (q :: Q) ry) := by
    refine hk.linked_right hlr' hnodupr rfl hqz (h.ne_sentinel hrrin).symm ?_ hsout
    intro x hx
    exact ⟨hout (Or.inr (Or.inr hx)), fun heq => hlr _ (root_mem hl s) (heq ▸ hx)⟩
  have htp : ry.root s ∉ pathNodes path := by
    intro hmem
    refine Holds.ne_root_of_not_mem (u := ry) h (mem_plug.mpr (Or.inr hmem)) ?_ rfl
    exact fun hry => hout (Or.inr (Or.inr (hrymem hry))) hmem
  have hnodes :
      (plug (q :: Q) (BalancedTrees.Tree.node cy .nil y ry)).nodes = y :: (plug (q :: Q) ry).nodes := by
    rw [plug_nodes, plug_nodes, before_of_left hleft]
    rfl
  have hholds := hk.holds h hl hll' hlr'' hnodes (hout (Or.inr (Or.inr hqin))) htp
  refine ⟨_, m', root', hrun, htake, ?_, ?_, hk.top, hk.key⟩
  · rw [plug_append]
    exact hroot ▸ hholds
  · have htrr : ry.root s ≠ (plug (q :: Q) ry).root s := by
      refine (Holds.ne_root_of_not_mem h hrrin fun hmem => ?_).symm
      exact hyQ _ (hryr hmem) hrrmem
    have htl : ry.root s ≠ l.root s :=
      (Holds.ne_root_of_not_mem h (hin (Or.inr (Or.inl (root_mem hl s))))
        fun hmem => hlr _ (root_mem hl s) (hrymem hmem)).symm
    have hty : ry.root s ≠ y := (Holds.ne_root_of_not_mem h (hin (Or.inr (Or.inr hyin))) hyry).symm
    rw [hk.parent, if_neg fun hsame => htrr hsame.2, if_neg htl, if_neg hty, if_pos rfl, if_neg hqz]

end

end HCore.RbtreeSplice
