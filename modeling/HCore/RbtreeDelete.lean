import HCore.RbtreeInsert

/-!
Deletion from a red-black tree. A node with two children is replaced by its
successor, which leaves its own place to its right child. If the place that was
left was black, the paths through it lack a black node; each round of the loop
moves that lack one level up or ends it by rotations around the parent.
-/

namespace HCore.RbtreeDelete

open Machine BalancedTrees RbtreeModel RbtreeLinks RbtreeInsert

/-- The paths through the position lack a black node; a red root of the
position makes up for it when it is blackened. -/
structure Lowered (m₀ m : NodeMemory) (s root : ℕ) (nodes : List ℕ) (path : List (Frame ℕ))
    (t : BalancedTrees.Tree ℕ) (h : ℕ) : Prop where
  holds : Holds m s root (plug path t)
  hangs : ∀ f rest, path = f :: rest → m.parent (t.root s) = f.node
  around : PathBalanced path (h + 1)
  below : (t.color = .black ∧ Balanced t h) ∨
    (t.color = .red ∧ Balanced (t.recolor .black) (h + 1))
  nodes_eq : (plug path t).nodes = nodes
  top : m.top = m₀.top
  key : m.key = m₀.key

section

variable {m₀ m m' : NodeMemory} {s root n p w h : ℕ} {d k : Side} {c c' : Color}
  {t u l r a b : BalancedTrees.Tree ℕ} {path : List (Frame ℕ)} {f : Frame ℕ} {nodes : List ℕ}

/-- A position below a frame keeps its parent when the sentinel does. -/
theorem hangs_of_same (hholds : Holds m' s root (plug (f :: path) t)) (hsame : Same s m m')
    (hhangs : m.parent (t.root s) = f.node) : m'.parent (t.root s) = f.node := by
  by_cases hne : t = .nil
  · rw [hne] at hhangs ⊢
    exact hsame.parent.trans hhangs
  · exact hholds.parent hne

theorem Lowered.loadParent (hl : Lowered m₀ m s root nodes (f :: path) t h) :
    m.loadParent (t.root s) = Except.ok f.node :=
  (loadParent_of_ne hl.holds.root_ne_zero).trans (congrArg Except.ok (hl.hangs f path rfl))

/-- The sibling of a lowered position is not missing. -/
theorem Lowered.sibling (hl : Lowered m₀ m s root nodes (⟨d, c, p, u⟩ :: path) t h) :
    Balanced u (h + 1) ∧ u ≠ .nil ∧ PathBalanced path (h + 1 + c.height) ∧
      m.loadChild d.opposite p = Except.ok (u.root s) := by
  obtain ⟨hu, hpath, -⟩ := hl.around.cons_inv
  have hview : Holds m s root (plug path (Tree.join d c t p u)) := hl.holds
  exact ⟨hu, hu.ne_nil, hpath, hview.loadChild.2⟩

/-- The sibling that is looked at next is black. -/
theorem Lowered.raise (hl : Lowered m₀ m s root nodes (⟨d, c, p, u⟩ :: path) t h) :
    ∃ m' root' c' u' path', raiseSibling d m root s (t.root s) p (u.root s) =
        Except.ok (m', root', u'.root s) ∧
      Lowered m₀ m' s root' nodes (⟨d, c', p, u'⟩ :: path') t h ∧ u'.color = .black ∧
      (c' = .red ∨ path' = path) := by
  obtain ⟨hu, hne, hpath, -⟩ := hl.sibling
  have hview : Holds m s root (plug (⟨d.opposite, c, p, t⟩ :: path) u) := by
    rw [plug_opposite]
    exact hl.holds
  have hcolor := hview.loadColor
  cases hc : u.color with
  | black =>
    rw [hc] at hcolor
    exact ⟨m, root, c, u, path, bind_of_ok hcolor (if_neg (by simp)), hl, hc, Or.inr rfl⟩
  | red =>
    rw [hc] at hcolor
    obtain ⟨-, -, hred⟩ := hl.around.cons_inv
    obtain rfl : c = .black := by
      cases c with
      | black => rfl
      | red => exact absurd ((hred rfl).1.symm.trans hc) (by simp)
    obtain ⟨x, y, z, hjoin⟩ := exists_join d hne
    rw [hc] at hjoin
    subst hjoin
    obtain ⟨hx, hz, hxc, hzc⟩ := balanced_red.mp hu
    obtain ⟨m1, hrun1, h1, hsame1⟩ := hview.recolor join_ne_nil .black
    rw [join_root] at hrun1
    rw [join_recolor, plug_opposite, plug_cons] at h1
    obtain ⟨m2, hrun2, h2, hsame2⟩ := h1.recolor join_ne_nil .red
    rw [join_root] at hrun2
    rw [join_recolor] at h2
    obtain ⟨m3, root3, hrun3, h3, hsame3⟩ := h2.rotate
    have hsame := hsame1.trans (hsame2.trans hsame3)
    have h3' : Holds m3 s root3 (plug (⟨d, .red, p, x⟩ :: ⟨d, .black, y, z⟩ :: path) t) := h3
    have hold : m.parent (t.root s) = p := hl.hangs _ _ rfl
    have hparent := hangs_of_same h3' hsame hold
    have hview3 : Holds m3 s root3 (plug (⟨d, .black, y, z⟩ :: path) (Tree.join d .red t p x)) := h3
    refine ⟨m3, root3, .red, x, ⟨d, .black, y, z⟩ :: path, ?_, ⟨h3', ?_, .red hx hxc (.black hz hpath),
      hl.below, ?_, hsame.top.trans hl.top, hsame.key.trans hl.key⟩, hxc, Or.inl rfl⟩
    · unfold raiseSibling
      rw [join_root]
      refine bind_of_ok (by rwa [join_root] at hcolor) ?_
      rw [if_pos rfl]
      refine bind_of_ok hrun1 (bind_of_ok hrun2 (bind_of_ok hrun3 ?_))
      refine bind_of_ok ((loadParent_of_ne h3'.root_ne_zero).trans (congrArg Except.ok hparent)) ?_
      exact bind_of_ok hview3.loadChild.2 rfl
    · rintro _ _ ⟨⟩
      exact hparent
    · rw [← hl.nodes_eq, plug_cons, plug_cons, plug_cons]
      refine plug_nodes_congr path ?_
      cases d <;> simp [Tree.join, Tree.nodes]

/-- The far child of the sibling is red afterwards. -/
theorem Lowered.turn {near far : BalancedTrees.Tree ℕ}
    (hl : Lowered m₀ m s root nodes (⟨d, c, p, Tree.join d .black near w far⟩ :: path) t h)
    (hred : near.color = .red ∨ far.color = .red) :
    ∃ m' root' near' w' far', turnSibling d m root s (t.root s) w (near.root s) far.color =
        Except.ok (m', root', w') ∧
      Lowered m₀ m' s root' nodes (⟨d, c, p, Tree.join d .black near' w' far'⟩ :: path) t h ∧
      far'.color = .red := by
  cases hfar : far.color with
  | red => exact ⟨m, root, near, w, far, if_neg (by simp), hl, hfar⟩
  | black =>
    have hnear := hred.resolve_right (by simp [hfar])
    obtain ⟨hu, -, hpath, -⟩ := hl.sibling
    obtain ⟨-, -, hframe⟩ := hl.around.cons_inv
    obtain ⟨k, hk, hbn, hbf⟩ := balanced_black.mp hu
    obtain rfl := Nat.succ.inj hk
    obtain ⟨x, y, z, hjoin⟩ := exists_join d (ne_nil_of_red hnear)
    rw [hnear] at hjoin
    subst hjoin
    obtain ⟨hx, hz, hxc, hzc⟩ := balanced_red.mp hbn
    have hview : Holds m s root (plug (⟨d, .black, w, far⟩ :: ⟨d.opposite, c, p, t⟩ :: path)
        (Tree.join d .red x y z)) := by
      rw [plug_cons, plug_opposite]
      exact hl.holds
    obtain ⟨m1, hrun1, h1, hsame1⟩ := hview.recolor join_ne_nil .black
    rw [join_root] at hrun1
    rw [join_recolor, plug_cons] at h1
    obtain ⟨m2, hrun2, h2, hsame2⟩ := h1.recolor join_ne_nil .red
    rw [join_root] at hrun2
    rw [join_recolor, ← join_opposite d .red, ← join_opposite d .black] at h2
    obtain ⟨m3, root3, hrun3, h3, hsame3⟩ := h2.rotate
    rw [join_opposite, join_opposite] at h3
    have hsame := hsame1.trans (hsame2.trans hsame3)
    have h3' : Holds m3 s root3 (plug (⟨d, c, p, Tree.join d .black x y (Tree.join d .red z w far)⟩ ::
        path) t) := by
      rw [← plug_opposite]
      exact h3
    have hold : m.parent (t.root s) = p := hl.hangs _ _ rfl
    have hparent := hangs_of_same h3' hsame hold
    have hview3 : Holds m3 s root3 (plug path (Tree.join d c t p
        (Tree.join d .black x y (Tree.join d .red z w far)))) := h3'
    have hloads := hview3.loadChild.2
    rw [join_root] at hloads
    refine ⟨m3, root3, x, y, Tree.join d .red z w far, ?_, ⟨h3', ?_, ?_, hl.below, ?_,
      hsame.top.trans hl.top, hsame.key.trans hl.key⟩, join_color⟩
    · unfold turnSibling
      rw [if_pos rfl, join_root]
      refine bind_of_ok hrun1 (bind_of_ok hrun2 (bind_of_ok hrun3 ?_))
      refine bind_of_ok ((loadParent_of_ne h3'.root_ne_zero).trans (congrArg Except.ok hparent)) ?_
      exact bind_of_ok hloads rfl
    · rintro _ _ ⟨⟩
      exact hparent
    · refine .cons (balanced_black.mpr ⟨h, rfl, hx, balanced_red.mpr ⟨hz, hbf, hzc, hfar⟩⟩) hpath ?_
      intro hc
      exact ⟨join_color, (hframe hc).2⟩
    · rw [← hl.nodes_eq, plug_cons, plug_cons]
      refine plug_nodes_congr path ?_
      cases d <;> simp [Tree.join, Tree.nodes]

theorem Lowered.balanced_of_black (hl : Lowered m₀ m s root nodes path t h)
    (ht : t.color = .black) : Balanced t h := by
  rcases hl.below with ⟨-, hbt⟩ | ⟨hred, -⟩
  · exact hbt
  · exact absurd (ht.symm.trans hred) (by simp)

/-- Two black children: the lack moves up to the parent. -/
theorem Lowered.lift {near far : BalancedTrees.Tree ℕ}
    (hl : Lowered m₀ m s root nodes (⟨d, c, p, Tree.join d .black near w far⟩ :: path) t h)
    (ht : t.color = .black) (hnear : near.color = .black) (hfar : far.color = .black) :
    ∃ m', m.storeColor w .red = Except.ok m' ∧ m'.loadParent (t.root s) = Except.ok p ∧
      Lowered m₀ m' s root nodes path
        (Tree.join d c t p (Tree.join d .red near w far)) (h + c.height) := by
  obtain ⟨hu, -, hpath, -⟩ := hl.sibling
  obtain ⟨k, hk, hbn, hbf⟩ := balanced_black.mp hu
  obtain rfl := Nat.succ.inj hk
  have hbt := hl.balanced_of_black ht
  have hview : Holds m s root (plug (⟨d.opposite, c, p, t⟩ :: path) (Tree.join d .black near w far)) := by
    rw [plug_opposite]
    exact hl.holds
  obtain ⟨m1, hrun1, h1, hsame1⟩ := hview.recolor join_ne_nil .red
  rw [join_root] at hrun1
  rw [join_recolor, plug_opposite] at h1
  have hred : Balanced (Tree.join d .red near w far) h := balanced_red.mpr ⟨hbn, hbf, hnear, hfar⟩
  have hold : m.parent (t.root s) = p := hl.hangs _ _ rfl
  have hparent := hangs_of_same h1 hsame1 hold
  refine ⟨m1, hrun1, ?_, h1, ?_, ?_, ?_, ?_, hsame1.top.trans hl.top, hsame1.key.trans hl.key⟩
  · exact (loadParent_of_ne h1.root_ne_zero).trans (congrArg Except.ok hparent)
  · rintro g rest rfl
    have hview1 : Holds m1 s root (plug (g :: rest) (Tree.join d c t p (Tree.join d .red near w far))) := h1
    exact hview1.parent join_ne_nil
  · rw [Nat.add_right_comm]
    exact hpath
  · cases c with
    | red =>
      refine Or.inr ⟨join_color, ?_⟩
      rw [join_recolor]
      exact balanced_black.mpr ⟨h, rfl, hbt, hred⟩
    | black => exact Or.inl ⟨join_color, balanced_black.mpr ⟨h, rfl, hbt, hred⟩⟩
  · rw [← hl.nodes_eq, plug_cons]
    refine plug_nodes_congr path ?_
    cases d <;> simp [Tree.join, Tree.nodes]

/-- A red far child: a rotation around the parent ends the loop. -/
theorem Lowered.settle {near far : BalancedTrees.Tree ℕ}
    (hl : Lowered m₀ m s root nodes (⟨d, c, p, Tree.join d .black near w far⟩ :: path) t h)
    (ht : t.color = .black) (hfar : far.color = .red) :
    ∃ m1 m2 m3 m4 root', m.loadColor p = Except.ok c ∧ m.storeColor w c = Except.ok m1 ∧
      m1.storeColor p .black = Except.ok m2 ∧
      m2.loadChild d.opposite w = Except.ok (far.root s) ∧
      m2.storeColor (far.root s) .black = Except.ok m3 ∧
      rotate d m3 root s p = Except.ok (m4, root') ∧
      ∃ t' h', Lowered m₀ m4 s root' nodes [] t' h' ∧ t'.root s = root' := by
  obtain ⟨hu, -, hpath, -⟩ := hl.sibling
  obtain ⟨-, -, hframe⟩ := hl.around.cons_inv
  obtain ⟨k, hk, hbn, hbf⟩ := balanced_black.mp hu
  obtain rfl := Nat.succ.inj hk
  have hbt := hl.balanced_of_black ht
  have hwhole : Holds m s root (plug path (Tree.join d c t p (Tree.join d .black near w far))) :=
    hl.holds
  have hcolor := hwhole.loadColor
  rw [join_root, join_color] at hcolor
  have hview : Holds m s root (plug (⟨d.opposite, c, p, t⟩ :: path) (Tree.join d .black near w far)) := by
    rw [plug_opposite]
    exact hl.holds
  obtain ⟨m1, hrun1, h1, hsame1⟩ := hview.recolor join_ne_nil c
  rw [join_root] at hrun1
  rw [join_recolor, plug_opposite, plug_cons] at h1
  obtain ⟨m2, hrun2, h2, hsame2⟩ := h1.recolor join_ne_nil .black
  rw [join_root] at hrun2
  rw [join_recolor] at h2
  have hview2 : Holds m2 s root
      (plug (⟨d.opposite, c, w, near⟩ :: ⟨d.opposite, .black, p, t⟩ :: path) far) := by
    rw [plug_opposite, plug_cons, plug_opposite]
    exact h2
  have hsibling : Holds m2 s root
      (plug (⟨d.opposite, .black, p, t⟩ :: path) (Tree.join d c near w far)) := by
    rw [plug_opposite]
    exact h2
  obtain ⟨m3, hrun3, h3, hsame3⟩ := hview2.recolor (ne_nil_of_red hfar) .black
  rw [plug_opposite, plug_cons, plug_opposite, plug_cons] at h3
  obtain ⟨m4, root4, hrun4, h4, hsame4⟩ := h3.rotate
  have hsame := hsame1.trans (hsame2.trans (hsame3.trans hsame4))
  have hbfar := hbf.blacken_red hfar
  have hcfar := recolor_color .black (ne_nil_of_red hfar)
  have hjoin : Balanced (Tree.join d c (Tree.join d .black t p near) w (far.recolor .black))
      (h + 1 + c.height) :=
    balanced_join (balanced_black.mpr ⟨h, rfl, hbt, hbn⟩) hbfar fun _ => ⟨join_color, hcfar⟩
  obtain ⟨h', hb, hblack⟩ := hpath.fill hjoin (by
    intro hhead
    rw [join_color]
    cases c with
    | black => rfl
    | red => exact absurd ((hframe rfl).2.1.symm.trans hhead) (by simp))
  refine ⟨m1, m2, m3, m4, root4, hcolor, hrun1, hrun2, hsibling.loadChild.2, hrun3, hrun4,
    plug path (Tree.join d c (Tree.join d .black t p near) w (far.recolor .black)), h',
    ⟨h4, by simp, .nil, Or.inl ⟨?_, hb⟩, ?_, hsame.top.trans hl.top, hsame.key.trans hl.key⟩,
    h4.root_eq⟩
  · by_cases hnil : path = []
    · subst hnil
      change Tree.color (Tree.join ..) = _
      rw [join_color]
      cases c with
      | black => rfl
      | red => exact absurd rfl (hframe rfl).2.2
    · exact hblack hnil
  · rw [← hl.nodes_eq, plug_cons]
    refine plug_nodes_congr path ?_
    cases d <;> simp [Tree.join, Tree.nodes, recolor_nodes]

/-- A round of the loop. -/
theorem Lowered.balance (hl : Lowered m₀ m s root nodes (⟨d, c, p, u⟩ :: path) t h)
    (ht : t.color = .black) :
    ∃ m' root' path' t' h', deleteBalance d m root s (t.root s) =
        Except.ok (m', root', t'.root s) ∧
      Lowered m₀ m' s root' nodes path' t' h' ∧
      (t'.color = .red ∨ path'.length ≤ path.length) := by
  obtain ⟨-, -, -, hsibling⟩ := hl.sibling
  obtain ⟨m1, root1, c1, u1, path1, hrun1, h1, hu1, hkind⟩ := hl.raise
  obtain ⟨hbu, hune, -⟩ := h1.sibling
  obtain ⟨near, w, far, hjoin⟩ := exists_join d hune
  rw [hu1] at hjoin
  subst hjoin
  have hview : Holds m1 s root1 (plug (⟨d.opposite, c1, p, t⟩ :: path1)
      (Tree.join d .black near w far)) := by
    rw [plug_opposite]
    exact h1.holds
  have hnearview : Holds m1 s root1 (plug (⟨d, .black, w, far⟩ :: ⟨d.opposite, c1, p, t⟩ :: path1)
      near) := hview
  have hfarview : Holds m1 s root1 (plug (⟨d.opposite, .black, w, near⟩ :: ⟨d.opposite, c1, p, t⟩ ::
      path1) far) := by
    rw [plug_opposite]
    exact hview
  obtain ⟨hloadnear, hloadfar⟩ := hview.loadChild
  have hrun {result : Exec (NodeMemory × ℕ × ℕ)}
      (hrest : (if near.color = .black ∧ far.color = .black then do
          let m ← m1.storeColor w .red
          let temp ← m.loadParent (t.root s)
          pure (m, root1, temp)
        else do
          let turned ← turnSibling d m1 root1 s (t.root s) w (near.root s) far.color
          let parent ← turned.1.loadParent (t.root s)
          let color ← turned.1.loadColor parent
          let m ← turned.1.storeColor turned.2.2 color
          let m ← m.storeColor parent .black
          let far ← m.loadChild d.opposite turned.2.2
          let m ← m.storeColor far .black
          let rotated ← rotate d m turned.2.1 s parent
          pure (rotated.1, rotated.2, rotated.2)) = result) :
      deleteBalance d m root s (t.root s) = result := by
    unfold deleteBalance
    refine bind_of_ok hl.loadParent (bind_of_ok hsibling (bind_of_ok hrun1 ?_))
    rw [join_root]
    refine bind_of_ok hloadnear (bind_of_ok hloadfar ?_)
    exact bind_of_ok hnearview.loadColor (bind_of_ok hfarview.loadColor hrest)
  by_cases hblack : near.color = .black ∧ far.color = .black
  · obtain ⟨m2, hrun2, hparent, h2⟩ := h1.lift ht hblack.1 hblack.2
    refine ⟨m2, root1, path1, _, _, hrun ?_, h2, ?_⟩
    · rw [if_pos hblack, join_root]
      exact bind_of_ok hrun2 (bind_of_ok hparent rfl)
    · rcases hkind with rfl | rfl
      · exact Or.inl join_color
      · exact Or.inr (le_refl _)
  · have hred : near.color = .red ∨ far.color = .red := by
      cases hnear : near.color with
      | red => exact Or.inl rfl
      | black =>
        cases hfar : far.color with
        | red => exact Or.inr rfl
        | black => exact absurd ⟨hnear, hfar⟩ hblack
    obtain ⟨m2, root2, near2, w2, far2, hrun2, h2, hfar2⟩ := h1.turn hred
    obtain ⟨m3, m4, m5, m6, root6, hcolor, hrun3, hrun4, hload, hrun5, hrun6, t', h', h6, hroot⟩ :=
      h2.settle ht hfar2
    refine ⟨m6, root6, [], t', h', hrun ?_, h6, Or.inr (Nat.zero_le _)⟩
    rw [if_neg hblack, hroot]
    refine bind_of_ok hrun2 (bind_of_ok h2.loadParent (bind_of_ok hcolor (bind_of_ok hrun3 ?_)))
    exact bind_of_ok hrun4 (bind_of_ok hload (bind_of_ok hrun5 (bind_of_ok hrun6 rfl)))

/-- The loop ends with a position that makes up for the lack when it is
blackened. -/
theorem Lowered.loop (hl : Lowered m₀ m s root nodes path t h) (fuel : ℕ) (hfuel : 0 < fuel)
    (hlength : t.color = .black → path.length < fuel) :
    ∃ m' root' path' t' h', deleteFixup s fuel m root (t.root s) =
        Except.ok (m', root', t'.root s) ∧
      Lowered m₀ m' s root' nodes path' t' h' ∧ (path' = [] ∨ t'.color = .red) := by
  induction fuel generalizing m root path t h with
  | zero => omega
  | succ fuel ih =>
    cases path with
    | nil => exact ⟨m, root, [], t, h, if_pos hl.holds.root_nil, hl, Or.inl rfl⟩
    | cons f path =>
      obtain ⟨d, c, p, u⟩ := f
      obtain ⟨-, hune, -, -⟩ := hl.sibling
      have hroot : t.root s ≠ root := by
        by_cases hnil : t = .nil
        · subst hnil
          have hmem := root_mem_pathNodes s ⟨d, c, p, u⟩ path BalancedTrees.Tree.nil
          rw [hl.holds.root_eq] at hmem
          exact (hl.holds.ne_sentinel (mem_plug.mpr (Or.inr hmem))).symm
        · exact hl.holds.ne_root hnil
      have hcolor := hl.holds.loadColor
      cases hc : t.color with
      | red =>
        refine ⟨m, root, ⟨d, c, p, u⟩ :: path, t, h, ?_, hl, Or.inr hc⟩
        rw [deleteFixup, if_neg hroot]
        refine bind_of_ok hcolor ?_
        rw [hc, if_neg (by simp)]
        rfl
      | black =>
        have hlt := hlength hc
        rw [List.length_cons] at hlt
        obtain ⟨m1, root1, path1, t1, h1, hrun1, hl1, hshort⟩ := hl.balance hc
        obtain ⟨m2, root2, path2, t2, h2, hrun2, hl2, hend⟩ := ih hl1 (by omega) (by
          intro hblack
          rcases hshort with hred | hle
          · exact absurd (hblack.symm.trans hred) (by simp)
          · omega)
        have hview : Holds m s root (plug path (Tree.join d c t p u)) := hl.holds
        obtain ⟨left, hleft, hside⟩ := hview.side (Or.inr hune)
        refine ⟨m2, root2, path2, t2, h2, ?_, hl2, hend⟩
        rw [deleteFixup, if_neg hroot]
        refine bind_of_ok hcolor ?_
        rw [hc, if_pos rfl]
        refine bind_of_ok hl.loadParent (bind_of_ok hleft ?_)
        dsimp only
        rw [hside]
        exact bind_of_ok hrun1 hrun2

end

end HCore.RbtreeDelete
