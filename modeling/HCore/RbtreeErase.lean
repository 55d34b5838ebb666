import HCore.RbtreeDelete
import HCore.RbtreeSplice

/-!
The whole deletion from a red-black tree: the choice of the node that leaves
its place, the new links, and the balancing of the position it left. The other
nodes stay in their order, and only the cleared node changes its key.
-/

namespace HCore.RbtreeErase

open Machine BalancedTrees RbtreeModel RbtreeLinks RbtreeInsert RbtreeDelete RbtreeSplice

/-- What a node of color `c` leaves behind: `u` hangs in its place. -/
def Vacated (c : Color) (path : List (Frame ℕ)) (u : BalancedTrees.Tree ℕ) : Prop :=
  match c with
  | .red => ∃ h, PathBalanced path h ∧ Balanced u h ∧ u.color = .black
  | .black => ∃ h, PathBalanced path (h + 1) ∧
      ((u.color = .black ∧ Balanced u h) ∨ (u.color = .red ∧ Balanced (u.recolor .black) (h + 1)))

/-- The nodes of the tree and their keys after a deletion. -/
structure Deleted (m m' : NodeMemory) (z : ℕ) (nodes nodes' : List ℕ) : Prop where
  top : m'.top = m.top
  key : ∀ x, x ≠ z → m'.key x = m.key x
  nodes_eq : nodes' = nodes.erase z

section

variable {m m' m1 m2 : NodeMemory} {s root root2 n p y z h : ℕ} {d : Side} {c c' : Color}
  {t u l r : BalancedTrees.Tree ℕ} {path path' : List (Frame ℕ)} {f : Frame ℕ}

theorem vacated (hb : Balanced (plug path (.node c l y r)) h)
    (hblack : (plug path (.node c l y r)).color = .black) (hu : u = l ∨ u = r) : Vacated c path u := by
  obtain ⟨k, hpath, hnode, -, -⟩ := hb.focus hblack
  cases c with
  | red =>
    obtain ⟨hl, hr, hlc, hrc⟩ := balanced_red (d := .left).mp hnode
    rcases hu with rfl | rfl
    · exact ⟨k, hpath, hl, hlc⟩
    · exact ⟨k, hpath, hr, hrc⟩
  | black =>
    obtain ⟨k, rfl, hl, hr⟩ := balanced_black (d := .left).mp hnode
    have hbu : Balanced u k := by
      rcases hu with rfl | rfl
      · exact hl
      · exact hr
    refine ⟨k, hpath, ?_⟩
    cases hc : u.color with
    | red => exact Or.inr ⟨rfl, hbu.blacken_red hc⟩
    | black => exact Or.inl ⟨rfl, hbu⟩

/-- A node with a child missing leaves its own place. -/
theorem chooseSubst_missing (h : Holds m s root (plug path (.node c l z r)))
    (hu : (l = .nil ∧ u = r) ∨ (l ≠ .nil ∧ r = .nil ∧ u = l)) :
    chooseSubst m s z = Except.ok (u.root s, z) := by
  have hview : Holds m s root (plug path (Tree.join .left c l z r)) := h
  obtain ⟨hleft, hright⟩ := hview.loadChild
  refine bind_of_ok hleft ?_
  rcases hu with ⟨rfl, rfl⟩ | ⟨hl, rfl, rfl⟩
  · exact (if_pos rfl).trans (bind_of_ok hright rfl)
  · have hsub : Holds m s root (plug (⟨.left, c, z, .nil⟩ :: path) u) := h
    refine (if_neg (hsub.root_ne_sentinel hl)).trans (bind_of_ok hright ?_)
    exact if_pos rfl

/-- A node with two children gives its place to the least node of the right one. -/
theorem chooseSubst_both (h : Holds m s root (plug path (.node c l z r))) (hl : l ≠ .nil)
    (hr : r ≠ .nil) :
    ∃ path' c' y b, r = plug path' (.node c' .nil y b) ∧ (∀ f ∈ path', f.side = .left) ∧
      chooseSubst m s z = Except.ok (b.root s, y) := by
  have hview : Holds m s root (plug path (Tree.join .left c l z r)) := h
  have hleftview : Holds m s root (plug (⟨.left, c, z, r⟩ :: path) l) := h
  have hrightview : Holds m s root (plug (⟨.right, c, z, l⟩ :: path) r) := h
  obtain ⟨hleft, hright⟩ := hview.loadChild
  have hlength : r.nodes.length ≤ m.top := by
    have hlt := Holds.length_lt hrightview (by
      intro hnil
      have hmem : r.root s ∈ (plug (⟨.right, c, z, l⟩ :: path) r).nodes :=
        mem_plug.mpr (Or.inl (root_mem hr s))
      rw [hnil] at hmem
      cases hmem)
    rw [plug_nodes, List.length_append, List.length_append] at hlt
    omega
  obtain ⟨path', c', y, b, hmin, rfl, hpath'⟩ := rbtreeMin_loop m.top hrightview hr hlength
  have hsub : Holds m s root
      (plug (path' ++ ⟨.right, c, z, l⟩ :: path) (Tree.join .left c' .nil y b)) := by
    rw [plug_append]
    exact h
  obtain ⟨hyleft, hyright⟩ := hsub.loadChild
  refine ⟨path', c', y, b, rfl, hpath', ?_⟩
  refine bind_of_ok hleft ((if_neg (hleftview.root_ne_sentinel hl)).trans ?_)
  refine bind_of_ok hright ((if_neg (hrightview.root_ne_sentinel hr)).trans ?_)
  refine bind_of_ok hmin (bind_of_ok hyleft ?_)
  exact (if_neg (not_not.mpr rfl)).trans (bind_of_ok hyright rfl)

/-- The balancing of a position that lost a level ends in a red-black tree. -/
theorem Lowered.finish {nodes : List ℕ} (hl : Lowered m m s root nodes path u h) (hne : nodes ≠ [])
    (hlength : path.length < m.top) :
    ∃ m4 root' x m', deleteFixup s m.top m root (u.root s) = Except.ok (m4, root', x) ∧
      m4.storeColor x .black = Except.ok m' ∧
      ∃ t', RedBlack m' s root' t' ∧ t'.nodes = nodes ∧ m'.top = m.top ∧ m'.key = m.key := by
  obtain ⟨m4, root4, path4, t4, h4, hrun4, hl4, hend4⟩ := hl.loop m.top (by omega) fun _ => hlength
  have ht4 : t4 ≠ .nil := by
    rintro rfl
    rcases hend4 with rfl | hred
    · exact hne hl4.nodes_eq.symm
    · cases hred
  obtain ⟨m5, hrun5, hholds5, hsame5⟩ := hl4.holds.recolor ht4 .black
  have hbalanced : (∃ h', Balanced (plug path4 (t4.recolor .black)) h') ∧
      (plug path4 (t4.recolor .black)).color = .black := by
    rcases hl4.below with ⟨hblack, hb⟩ | ⟨hred, hb⟩
    · rcases hend4 with rfl | hred
      · have hself : t4.recolor .black = t4 := by
          rw [← hblack]
          exact recolor_self
        rw [hself]
        exact ⟨⟨h4, hb⟩, hblack⟩
      · exact absurd (hblack.symm.trans hred) (by simp)
    · obtain ⟨h', hb', hblack'⟩ := hl4.around.fill hb fun _ => recolor_color .black ht4
      refine ⟨⟨h', hb'⟩, ?_⟩
      by_cases hnil : path4 = []
      · rw [hnil]
        exact recolor_color .black ht4
      · exact hblack' hnil
  refine ⟨m4, root4, _, m5, hrun4, hrun5, _, ⟨hholds5, hbalanced.1, hbalanced.2⟩, ?_, ?_, ?_⟩
  · exact (plug_nodes_congr path4 (recolor_nodes .black t4)).trans hl4.nodes_eq
  · exact hsame5.top.trans hl4.top
  · exact hsame5.key.trans hl4.key

theorem plug_ne_nil (hpath : path ≠ []) (u : BalancedTrees.Tree ℕ) : (plug path u).nodes ≠ [] := by
  cases path with
  | nil => exact absurd rfl hpath
  | cons f path =>
    have hmem : f.node ∈ (plug (f :: path) u).nodes :=
      mem_plug.mpr (Or.inr (mem_pathNodes_cons.mpr (Or.inl rfl)))
    exact List.ne_nil_of_mem hmem

/-- The last lines of the deletion, for a node of color `c` that left its place. -/
theorem Vacated.delete {insert : NodeMemory → ℕ → ℕ → ℕ → Exec NodeMemory} (hvac : Vacated c path u)
    (hchoose : chooseSubst m s z = Except.ok (u.root s, y)) (hy : y ≠ root)
    (hcolor : m.loadColor y = Except.ok c)
    (hreplace : replaceChild .left m y (u.root s) = Except.ok m1)
    (htake : takePlace m1 root s z y (u.root s) = Except.ok (m2, root2))
    (hholds : Holds m2 s root2 (plug path u)) (hpath : path ≠ [])
    (hhangs : ∀ f rest, path = f :: rest → m2.parent (u.root s) = f.node) (hz : z ≠ 0) (hzs : z ≠ s)
    (hout : z ∉ (plug path u).nodes) (htop : m2.top = m.top) (hkey : m2.key = m.key) :
    ∃ m' root' t', rbtreeDelete m ⟨root, s, insert⟩ z = Except.ok (m', ⟨root', s, insert⟩) ∧
      RedBlack m' s root' t' ∧ t'.nodes = (plug path u).nodes ∧ m'.top = m.top ∧
      ∀ x, x ≠ z → m'.key x = m.key x := by
  obtain ⟨m3, hclear, hholds3, htop3, hkey3, hparent3⟩ := Holds.clearNode hholds hz hout
  have hrun {m' : NodeMemory} {root' : ℕ} (hend : (if c = .red then
        Except.ok (m3, (⟨root2, s, insert⟩ : Rbtree))
      else do
        let fixed ← deleteFixup s m3.top m3 root2 (u.root s)
        let m ← fixed.1.storeColor fixed.2.2 .black
        pure (m, (⟨fixed.2.1, s, insert⟩ : Rbtree))) = Except.ok (m', ⟨root', s, insert⟩)) :
      rbtreeDelete m ⟨root, s, insert⟩ z = Except.ok (m', ⟨root', s, insert⟩) := by
    refine bind_of_ok hchoose ((if_neg hy).trans ?_)
    refine bind_of_ok hcolor (bind_of_ok hreplace (bind_of_ok htake ?_))
    exact bind_of_ok hclear hend
  have hne := plug_ne_nil hpath u
  cases c with
  | red =>
    obtain ⟨h, haround, hu, huc⟩ := hvac
    obtain ⟨h', hb, hblack⟩ := haround.fill hu fun _ => huc
    refine ⟨m3, root2, plug path u, hrun (if_pos rfl), ⟨hholds3, ⟨h', hb⟩, hblack hpath⟩, rfl,
      htop3.trans htop, ?_⟩
    intro x hx
    rw [hkey3 x hx, hkey]
  | black =>
    obtain ⟨h, haround, hbelow⟩ := hvac
    have huz : u.root s ≠ z := by
      by_cases hnil : u = .nil
      · rw [hnil]
        exact hzs.symm
      · exact fun heq => hout (mem_plug.mpr (Or.inl (heq ▸ root_mem hnil s)))
    have hl : Lowered m3 m3 s root2 (plug path u).nodes path u h :=
      ⟨hholds3, fun f rest heq => (hparent3 _ huz).trans (hhangs f rest heq), haround, hbelow, rfl,
        rfl, rfl⟩
    have hlength : path.length < m3.top := by
      have hlt := Holds.length_lt hholds3 fun hnil => hne (by rw [hnil]; rfl)
      have hle := length_le_pathNodes path
      rw [plug_nodes, List.length_append, List.length_append] at hlt
      rw [pathNodes, List.length_append] at hle
      omega
    obtain ⟨m4, root', x, m', hfixup, hstore, t', hredblack, hnodes, htop', hkey'⟩ :=
      Lowered.finish hl hne hlength
    refine ⟨m', root', t', hrun ?_, hredblack, hnodes, htop'.trans (htop3.trans htop), ?_⟩
    · exact (if_neg (by simp)).trans (bind_of_ok hfixup (bind_of_ok hstore rfl))
    · intro x hx
      rw [hkey', hkey3 x hx, hkey]

/-- A child takes over the place of the root and becomes black. -/
theorem RedBlack.delete_root {insert : NodeMemory → ℕ → ℕ → ℕ → Exec NodeMemory}
    (h : RedBlack m s root (.node c l z r))
    (hu : (l = .nil ∧ u = r) ∨ (l ≠ .nil ∧ r = .nil ∧ u = l)) :
    ∃ m' root' t', rbtreeDelete m ⟨root, s, insert⟩ z = Except.ok (m', ⟨root', s, insert⟩) ∧
      RedBlack m' s root' t' ∧ t'.nodes = u.nodes ∧ m'.top = m.top ∧
      ∀ x, x ≠ z → m'.key x = m.key x := by
  have hholds : Holds m s root (plug [] (.node c l z r)) := h.holds
  obtain ⟨-, -, -, -, -, hll, hlr⟩ := hholds.linked
  obtain ⟨hzl, hzr, -⟩ := nodup_join (d := .left) hholds.nodup
  obtain ⟨k, hb⟩ := h.balanced
  have hbu : ∃ k, Balanced u k := by
    cases c with
    | red =>
      obtain ⟨hl, hr, -⟩ := balanced_red (d := .left).mp hb
      rcases hu with ⟨-, rfl⟩ | ⟨-, -, rfl⟩
      · exact ⟨_, hr⟩
      · exact ⟨_, hl⟩
    | black =>
      obtain ⟨k, -, hl, hr⟩ := balanced_black (d := .left).mp hb
      rcases hu with ⟨-, rfl⟩ | ⟨-, -, rfl⟩
      · exact ⟨k, hr⟩
      · exact ⟨k, hl⟩
  have hu' : Holds m s (u.root s) u ∧ z ∉ u.nodes := by
    rcases hu with ⟨-, rfl⟩ | ⟨-, -, rfl⟩
    · refine ⟨Holds.sublist hholds hlr rfl rfl rfl ?_, hzr⟩
      exact (List.sublist_cons_self z _).trans (List.sublist_append_right _ _)
    · exact ⟨Holds.sublist hholds hll rfl rfl rfl (List.sublist_append_left _ _), hzl⟩
  obtain ⟨m1, hrun1, hholds1, htop1, hkey1⟩ : ∃ m1, m.storeColor (u.root s) .black = Except.ok m1 ∧
      Holds m1 s (u.root s) (u.recolor .black) ∧ m1.top = m.top ∧ m1.key = m.key := by
    by_cases hnil : u = .nil
    · subst hnil
      refine ⟨_, storeColor_of_ne hholds.sentinel.ne' .black, ⟨trivial, rfl, List.nodup_nil, ?_,
        hholds.sentinel, if_pos rfl⟩, rfl, rfl⟩
      intro x hx
      cases hx
    · have hview : Holds m s (u.root s) (plug [] u) := hu'.1
      obtain ⟨m1, hrun1, hholds1, hsame1⟩ := hview.recolor hnil .black
      exact ⟨m1, hrun1, hholds1, hsame1.top, hsame1.key⟩
  obtain ⟨m2, hclear, hholds2, htop2, hkey2, -⟩ := Holds.clearNode hholds1 hholds.root_ne_zero (by
    rw [recolor_nodes]
    exact hu'.2)
  refine ⟨m2, _, _, ?_, ⟨hholds2, ?_, ?_⟩, recolor_nodes .black u, htop2.trans htop1, ?_⟩
  · refine bind_of_ok (chooseSubst_missing hholds hu) ((if_pos hholds.root_nil).trans ?_)
    exact bind_of_ok hrun1 (bind_of_ok hclear rfl)
  · obtain ⟨k, hbu⟩ := hbu
    exact hbu.blacken
  · by_cases hnil : u = .nil
    · rw [hnil]
      rfl
    · exact recolor_color .black hnil
  · intro x hx
    rw [hkey2 x hx, hkey1]

/-- The nodes around a position lose the node that left. -/
theorem erase_focus (h : (plug path (.node c l z r)).nodes.Nodup) :
    (plug path (.node c l z r)).nodes.erase z =
      before path ++ (l.nodes ++ r.nodes ++ after path) := by
  obtain ⟨hinner, -, hdisjoint⟩ := nodup_plug h
  obtain ⟨hzl, -⟩ := nodup_join (d := .left) hinner
  have hzp : z ∉ pathNodes path := hdisjoint z (by simp [Tree.nodes])
  have hzb : z ∉ before path := fun hmem => hzp (List.mem_append_left _ hmem)
  rw [plug_nodes, List.erase_append_right _ hzb, Tree.nodes, List.append_assoc,
    List.erase_append_right _ hzl, List.cons_append, List.erase_cons_head, List.append_assoc]

/-- A node with a child missing leaves its place to the other child. -/
theorem RedBlack.delete_missing (h : RedBlack m s root (plug path (.node c l z r)))
    (hu : (l = .nil ∧ u = r) ∨ (l ≠ .nil ∧ r = .nil ∧ u = l))
    (insert : NodeMemory → ℕ → ℕ → ℕ → Exec NodeMemory) :
    ∃ m' root' t', rbtreeDelete m ⟨root, s, insert⟩ z = Except.ok (m', ⟨root', s, insert⟩) ∧
      RedBlack m' s root' t' ∧ t'.nodes = (plug path u).nodes ∧ m'.top = m.top ∧
      ∀ x, x ≠ z → m'.key x = m.key x := by
  cases path with
  | nil => exact RedBlack.delete_root h hu
  | cons f path =>
    obtain ⟨k, hb⟩ := h.balanced
    have hvac : Vacated c (f :: path) u := by
      refine vacated hb h.color ?_
      rcases hu with ⟨-, rfl⟩ | ⟨-, -, rfl⟩
      · exact Or.inr rfl
      · exact Or.inl rfl
    obtain ⟨m1, m2, hreplace, htake, hholds, hparent, htop, hkey⟩ := Holds.spliceLeaf h.holds (u := u) (by
      rcases hu with ⟨hl, hu⟩ | ⟨-, hr, hu⟩
      · exact Or.inl ⟨hl, hu⟩
      · exact Or.inr ⟨hr, hu⟩)
    have hzmem : z ∈ (plug (f :: path) (BalancedTrees.Tree.node c l z r)).nodes :=
      mem_plug.mpr (Or.inl (by simp [Tree.nodes]))
    obtain ⟨hinner, -, hdisjoint⟩ := nodup_plug h.holds.nodup
    obtain ⟨hzl, hzr, -⟩ := nodup_join (d := .left) hinner
    refine hvac.delete (chooseSubst_missing h.holds hu) (h.holds.ne_root (by simp)) h.holds.loadColor
      hreplace htake hholds (by simp) ?_ h.holds.root_ne_zero (h.holds.ne_sentinel hzmem) ?_ htop hkey
    · intro g rest heq
      rw [List.cons.injEq] at heq
      rw [hparent, heq.1]
    · intro hmem
      rcases mem_plug.mp hmem with hmem | hmem
      · rcases hu with ⟨-, rfl⟩ | ⟨-, -, rfl⟩
        · exact hzr hmem
        · exact hzl hmem
      · exact hdisjoint z (by simp [Tree.nodes]) hmem

/-- The successor leaves its place to its right child and takes the place of `z`. -/
theorem Holds.splice {Q : List (Frame ℕ)} {cy : Color} {b : BalancedTrees.Tree ℕ}
    (h : Holds m s root (plug path (.node c l z (plug Q (.node cy .nil y b))))) (hl : l ≠ .nil)
    (hleft : ∀ f ∈ Q, f.side = .left) :
    ∃ m1 m2 root2, replaceChild .left m y (b.root s) = Except.ok m1 ∧
      takePlace m1 root s z y (b.root s) = Except.ok (m2, root2) ∧
      Holds m2 s root2 (plug (Q ++ ⟨.right, c, y, l⟩ :: path) b) ∧
      (∀ f rest, Q ++ ⟨.right, c, y, l⟩ :: path = f :: rest → m2.parent (b.root s) = f.node) ∧
      m2.top = m.top ∧ m2.key = m.key := by
  cases Q with
  | nil =>
    obtain ⟨m1, m2, root2, hreplace, htake, hholds, hparent, htop, hkey⟩ := Holds.spliceChild h hl
    refine ⟨m1, m2, root2, hreplace, htake, hholds, ?_, htop, hkey⟩
    intro f rest heq
    rw [List.nil_append, List.cons.injEq] at heq
    rw [hparent, ← heq.1]
  | cons q Q =>
    obtain ⟨m1, m2, root2, hreplace, htake, hholds, hparent, htop, hkey⟩ :=
      Holds.spliceBelow h hl hleft
    refine ⟨m1, m2, root2, hreplace, htake, hholds, ?_, htop, hkey⟩
    intro f rest heq
    rw [List.cons_append, List.cons.injEq] at heq
    rw [hparent, heq.1]

theorem RedBlack.delete_both (h : RedBlack m s root (plug path (.node c l z r))) (hl : l ≠ .nil)
    (hr : r ≠ .nil) (insert : NodeMemory → ℕ → ℕ → ℕ → Exec NodeMemory) :
    ∃ m' root' t', rbtreeDelete m ⟨root, s, insert⟩ z = Except.ok (m', ⟨root', s, insert⟩) ∧
      RedBlack m' s root' t' ∧
      t'.nodes = before path ++ (l.nodes ++ r.nodes ++ after path) ∧ m'.top = m.top ∧
      ∀ x, x ≠ z → m'.key x = m.key x := by
  obtain ⟨Q, cy, y, b, rfl, hleft, hchoose⟩ := chooseSubst_both h.holds hl hr
  obtain ⟨m1, m2, root2, hreplace, htake, hholds, hhangs, htop, hkey⟩ := Holds.splice h.holds hl hleft
  have hview : plug path (BalancedTrees.Tree.node c l z (plug Q (.node cy .nil y b))) =
      plug (Q ++ ⟨.right, c, z, l⟩ :: path) (.node cy .nil y b) := by
    rw [plug_append]
    rfl
  have hnodes : (plug (Q ++ ⟨.right, c, y, l⟩ :: path) b).nodes =
      before path ++
          (l.nodes ++ (plug Q (BalancedTrees.Tree.node cy .nil y b)).nodes ++ after path) := by
    rw [plug_append, plug_cons, plug_nodes]
    simp [Tree.join, Tree.nodes, plug_nodes, before_of_left hleft]
  obtain ⟨k, hb⟩ := h.balanced
  have hblack := h.color
  rw [hview] at hb hblack
  have hvac : Vacated cy (Q ++ ⟨.right, c, y, l⟩ :: path) b := by
    have hvac := vacated hb hblack (Or.inr rfl)
    cases cy with
    | red =>
      obtain ⟨h, haround, hrest⟩ := hvac
      exact ⟨h, haround.rename, hrest⟩
    | black =>
      obtain ⟨h, haround, hrest⟩ := hvac
      exact ⟨h, haround.rename, hrest⟩
  have hfocus := h.holds
  rw [hview] at hfocus
  have hyroot : y ≠ root := by
    cases Q with
    | nil => exact hfocus.ne_root (by simp)
    | cons q Q => exact hfocus.ne_root (by simp)
  have hzmem : z ∈ (plug path (BalancedTrees.Tree.node c l z (plug Q (.node cy .nil y b)))).nodes :=
    mem_plug.mpr (Or.inl (by simp [Tree.nodes]))
  have herase := erase_focus h.holds.nodup
  obtain ⟨m', root', t', hrun, hrb, hnodes', htop', hkey'⟩ := hvac.delete hchoose
    hyroot hfocus.loadColor hreplace htake hholds (by simp) hhangs (h.holds.ne_zero hzmem)
    (h.holds.ne_sentinel hzmem) (by
      rw [hnodes, ← herase]
      exact h.holds.nodup.not_mem_erase) htop hkey
  exact ⟨m', root', t', hrun, hrb, hnodes'.trans hnodes, htop', hkey'⟩

/-- Deletion removes one node and keeps the order of the others. -/
theorem RedBlack.delete (h : RedBlack m s root t) (hz : z ∈ t.nodes)
    (insert : NodeMemory → ℕ → ℕ → ℕ → Exec NodeMemory) :
    ∃ m' root' t', rbtreeDelete m ⟨root, s, insert⟩ z = Except.ok (m', ⟨root', s, insert⟩) ∧
      RedBlack m' s root' t' ∧ Deleted m m' z t.nodes t'.nodes := by
  obtain ⟨path, c, l, r, rfl⟩ := exists_focus hz
  have herase := erase_focus h.holds.nodup
  by_cases hl : l = .nil
  · obtain ⟨m', root', t', hrun, hrb, hnodes, htop, hkey⟩ :=
      RedBlack.delete_missing h (Or.inl ⟨hl, rfl⟩) insert
    refine ⟨m', root', t', hrun, hrb, htop, hkey, ?_⟩
    rw [hnodes, herase, plug_nodes, hl]
    rfl
  · by_cases hr : r = .nil
    · obtain ⟨m', root', t', hrun, hrb, hnodes, htop, hkey⟩ :=
        RedBlack.delete_missing h (Or.inr ⟨hl, hr, rfl⟩) insert
      refine ⟨m', root', t', hrun, hrb, htop, hkey, ?_⟩
      rw [hnodes, herase, plug_nodes, hr, Tree.nodes, List.append_nil]
    · obtain ⟨m', root', t', hrun, hrb, hnodes, htop, hkey⟩ :=
        RedBlack.delete_both h hl hr insert
      exact ⟨m', root', t', hrun, hrb, htop, hkey, hnodes.trans herase.symm⟩

end

end HCore.RbtreeErase
