import HCore.RbtreeLinks

/-!
Insertion into a red-black tree. The descent finds the empty position behind
all nodes that the new key is not less than; the new red node may lie under a
red parent, and each round of the loop moves that fault two levels up or ends
it by one or two rotations.
-/

namespace HCore.RbtreeInsert

open Machine BalancedTrees RbtreeModel RbtreeLinks

section

variable {m m' : NodeMemory} {s root n p z : ℕ} {d : Side} {c c' : Color} {t u : BalancedTrees.Tree ℕ}
  {path : List (Frame ℕ)} {f : Frame ℕ} {less : ℕ → ℕ → Bool}

/-- There are fewer nodes than addresses. -/
theorem Holds.length_lt (h : Holds m s root t) (hne : t ≠ .nil) : t.nodes.length < m.top := by
  have hsub : t.nodes ⊆ List.range' 1 (m.top - 1) := by
    intro x hx
    obtain ⟨hpos, hlt, -⟩ := h.bound x hx
    rw [List.mem_range'_1]
    omega
  have hle := (h.nodup.subperm hsub).length_le
  rw [List.length_range'] at hle
  obtain ⟨hpos, hlt, -⟩ := h.bound _ (root_mem hne s)
  omega

/-- Along the tree, once the key is less than that of a node it stays so. -/
def Separates (less : ℕ → ℕ → Bool) (m : NodeMemory) (key : ℕ) (nodes : List ℕ) : Prop :=
  nodes.Pairwise (fun x y => less key (m.key x) = true → less key (m.key y) = true)

/-- The empty position for a key: the nodes before it are not greater, and
those behind it are. -/
structure Position (less : ℕ → ℕ → Bool) (m : NodeMemory) (key : ℕ) (path : List (Frame ℕ)) :
    Prop where
  low : ∀ x ∈ before path, less key (m.key x) = false
  high : ∀ x ∈ after path, less key (m.key x) = true

/-- One more step down to the side of the comparison. -/
theorem Position.down {key x : ℕ} {l r : BalancedTrees.Tree ℕ}
    (hpos : Position less m key path)
    (hsep : Separates less m key (plug path (.node c l x r)).nodes) :
    (less key (m.key x) = true → Position less m key (⟨.left, c, x, r⟩ :: path)) ∧
      (less key (m.key x) = false → Position less m key (⟨.right, c, x, l⟩ :: path)) := by
  rw [Separates, plug_nodes, List.pairwise_append] at hsep
  obtain ⟨-, hmiddle, -⟩ := hsep
  obtain ⟨hinner, -, -⟩ := List.pairwise_append.mp hmiddle
  rw [Tree.nodes, List.pairwise_append, List.pairwise_cons] at hinner
  obtain ⟨-, ⟨hxr, -⟩, hlx⟩ := hinner
  constructor
  · intro hless
    refine ⟨hpos.low, ?_⟩
    intro y hy
    rw [after, List.cons_append, List.mem_cons, List.mem_append] at hy
    rcases hy with rfl | hy | hy
    · exact hless
    · exact hxr y hy hless
    · exact hpos.high y hy
  · intro hless
    refine ⟨?_, hpos.high⟩
    intro y hy
    rw [before, List.mem_append, List.mem_append, List.mem_singleton] at hy
    rcases hy with hy | hy | rfl
    · exact hpos.low y hy
    · rw [← Bool.not_eq_true]
      intro htrue
      rw [hlx y hy x List.mem_cons_self htrue] at hless
      cases hless
    · exact hless

/-- The descent ends at an empty position, which is that of the key when the
order of the nodes allows one. -/
theorem descend_loop (less : ℕ → ℕ → Bool) (hz : z ≠ 0) (fuel : ℕ)
    (h : Holds m s root (plug path t)) (hne : t ≠ .nil) (hfuel : t.nodes.length ≤ fuel) :
    ∃ p d c u rest, descend less m z s fuel (t.root s) = Except.ok (p, d) ∧
      plug (⟨d, c, p, u⟩ :: rest) .nil = plug path t ∧
      (Separates less m (m.key z) (plug path t).nodes → Position less m (m.key z) path →
        Position less m (m.key z) (⟨d, c, p, u⟩ :: rest)) := by
  induction fuel generalizing t path with
  | zero =>
    have hmem := root_mem hne s
    rw [List.eq_nil_of_length_eq_zero (Nat.le_zero.mp hfuel)] at hmem
    cases hmem
  | succ fuel ih =>
    cases t with
    | nil => exact absurd rfl hne
    | node c l x r =>
      have hx : x ≠ 0 := h.ne_zero (mem_plug.mpr (Or.inl (root_mem hne s)))
      obtain ⟨-, hl, hr, -⟩ := h.linked.focus
      simp only [Tree.nodes, List.length_append, List.length_cons] at hfuel
      have hrun {e : Side} {next : ℕ} {result : Exec (ℕ × Side)}
          (hside : (if less (m.key z) (m.key x) then Side.left else Side.right) = e)
          (hnext : m.child e x = next)
          (hresult : (if next = s then pure (x, e) else descend less m z s fuel next) = result) :
          descend less m z s (fuel + 1) x = result := by
        rw [descend]
        refine bind_of_ok (if_neg hz) ?_
        refine bind_of_ok (if_neg hx) ?_
        dsimp only
        rw [hside]
        refine bind_of_ok (loadChild_of_ne _ hx) ?_
        rw [hnext, hresult]
      cases hless : less (m.key z) (m.key x) with
      | true =>
        by_cases hnil : l = .nil
        · subst hnil
          exact ⟨x, .left, c, r, path, hrun (by rw [hless]; rfl) hl (if_pos rfl), rfl,
            fun hsep hpos => (hpos.down hsep).1 hless⟩
        · have hroot : l.root s ≠ s := h.ne_sentinel (mem_plug.mpr (Or.inl (by
            simp [Tree.nodes, root_mem hnil s])))
          have hsub : Holds m s root (plug (⟨.left, c, x, r⟩ :: path) l) := h
          obtain ⟨p, d, c', u, rest, hdescend, hplug, hfound⟩ := ih hsub hnil (by omega)
          exact ⟨p, d, c', u, rest,
            hrun (by rw [hless]; rfl) hl ((if_neg hroot).trans hdescend), hplug,
            fun hsep hpos => hfound hsep ((hpos.down hsep).1 hless)⟩
      | false =>
        by_cases hnil : r = .nil
        · subst hnil
          exact ⟨x, .right, c, l, path, hrun (by rw [hless]; rfl) hr (if_pos rfl), rfl,
            fun hsep hpos => (hpos.down hsep).2 hless⟩
        · have hroot : r.root s ≠ s := h.ne_sentinel (mem_plug.mpr (Or.inl (by
            simp [Tree.nodes, root_mem hnil s])))
          have hsub : Holds m s root (plug (⟨.right, c, x, l⟩ :: path) r) := h
          obtain ⟨p, d, c', u, rest, hdescend, hplug, hfound⟩ := ih hsub hnil (by omega)
          exact ⟨p, d, c', u, rest,
            hrun (by rw [hless]; rfl) hr ((if_neg hroot).trans hdescend), hplug,
            fun hsep hpos => hfound hsep ((hpos.down hsep).2 hless)⟩

/-- A new red node. -/
def leaf (z : ℕ) : BalancedTrees.Tree ℕ := .node .red .nil z .nil

/-- The links of a new node in an empty position. -/
theorem Holds.link {u : BalancedTrees.Tree ℕ}
    (h : Holds m s root (plug (⟨d, c, p, u⟩ :: path) .nil)) (hz : 0 < z)
    (htop : z < m.top) (hzs : z ≠ s)
    (hnew : z ∉ (plug (⟨d, c, p, u⟩ :: path) BalancedTrees.Tree.nil).nodes) :
    ∃ m', (do
        let m ← m.storeChild d p z
        let m ← m.storeParent z p
        let m ← m.storeChild .left z s
        let m ← m.storeChild .right z s
        m.storeColor z .red) = Except.ok m' ∧
      Holds m' s root (plug (⟨d, c, p, u⟩ :: path) (leaf z)) ∧ Same s m m' := by
  have hpmem : p ∈ (plug (⟨d, c, p, u⟩ :: path) BalancedTrees.Tree.nil).nodes :=
    mem_plug.mpr (Or.inr (mem_pathNodes_cons.mpr (Or.inl rfl)))
  have hp0 : p ≠ 0 := h.ne_zero hpmem
  have hpz : p ≠ z := fun heq => hnew (heq ▸ hpmem)
  have hps : p ≠ s := h.ne_sentinel hpmem
  have hout {x : ℕ} (hx : x ∈ pathNodes (⟨d, c, p, u⟩ :: path)) : x ≠ z :=
    fun heq => hnew (mem_plug.mpr (Or.inr (heq ▸ hx)))
  have hnodes : (plug (⟨d, c, p, u⟩ :: path) (leaf z)).nodes =
      before (⟨d, c, p, u⟩ :: path) ++ z :: after (⟨d, c, p, u⟩ :: path) := by
    rw [plug_nodes]
    rfl
  have hold : (plug (⟨d, c, p, u⟩ :: path) BalancedTrees.Tree.nil).nodes =
      before (⟨d, c, p, u⟩ :: path) ++ after (⟨d, c, p, u⟩ :: path) := plug_nodes ..
  refine ⟨_, bind_of_ok (storeChild_of_ne d hp0 z) (bind_of_ok (storeParent_of_ne hz.ne' p)
    (bind_of_ok (storeChild_of_ne .left hz.ne' s) (bind_of_ok (storeChild_of_ne .right hz.ne' s)
      (storeColor_of_ne hz.ne' .red)))), ⟨?_, ?_, ?_, ?_, h.sentinel, ?_⟩, rfl, rfl, ?_⟩
  · refine h.linked.graft h.nodup ⟨if_pos rfl, if_pos ⟨rfl, rfl⟩, if_pos ⟨rfl, rfl⟩,
      trivial, trivial, trivial, trivial⟩ (if_pos rfl) ?_ ?_ ?_ ?_ ?_
    · refine (if_neg fun hsame => hpz hsame.2).trans ?_
      refine (if_neg fun hsame => hpz hsame.2).trans ?_
      exact if_pos ⟨rfl, rfl⟩
    · refine (if_neg fun hsame => hpz hsame.2).trans ?_
      refine (if_neg fun hsame => hpz hsame.2).trans ?_
      exact if_neg fun hsame => opposite_ne d hsame.1
    · intro x hx
      exact if_neg (hout hx)
    · intro k x hx hne
      refine (if_neg fun hsame => hout hx hsame.2).trans ?_
      refine (if_neg fun hsame => hout hx hsame.2).trans ?_
      exact if_neg fun hsame => hne hsame.2
    · intro x hx
      exact if_neg (hout hx)
  · refine Eq.trans ?_ h.root_eq
    exact plug_root path (by rw [join_root, join_root])
  · rw [hnodes]
    refine List.nodup_middle.mpr (List.nodup_cons.mpr ?_)
    rw [← hold]
    exact ⟨hnew, h.nodup⟩
  · intro x hx
    rw [hnodes, List.mem_append, List.mem_cons, or_left_comm, ← List.mem_append, ← hold] at hx
    rcases hx with rfl | hx
    · exact ⟨hz, htop, hzs⟩
    · exact h.bound x hx
  · exact (if_neg (Ne.symm hzs)).trans h.black
  · exact if_neg (Ne.symm hzs)

/-- `hcore_rbtree_insert_value` and its siblings put the node at an empty
position, that of its key. -/
theorem Holds.insertBelow (less : ℕ → ℕ → Bool) (h : Holds m s root t) (hne : t ≠ .nil)
    (hz : 0 < z) (htop : z < m.top) (hzs : z ≠ s) (hnew : z ∉ t.nodes) :
    ∃ m' path, insertBelow less m root z s = Except.ok m' ∧ plug path .nil = t ∧ path ≠ [] ∧
      (Separates less m (m.key z) t.nodes → Position less m (m.key z) path) ∧
      Holds m' s root (plug path (leaf z)) ∧ Same s m m' := by
  have hwhole : Holds m s root (plug [] t) := h
  obtain ⟨p, d, c, u, rest, hdescend, rfl, hposition⟩ :=
    descend_loop less hz.ne' m.top hwhole hne (Holds.length_lt h hne).le
  obtain ⟨m', hrun, hholds, hsame⟩ := Holds.link h hz htop hzs hnew
  rw [h.root_eq] at hdescend
  exact ⟨m', ⟨d, c, p, u⟩ :: rest, bind_of_ok hdescend hrun, rfl, by simp,
    fun hsep => hposition hsep ⟨by simp [before], by simp [after]⟩, hholds, hsame⟩

/-- The loop at a red node: only its parent may be red as well. -/
structure Raised (m₀ m : NodeMemory) (s root : ℕ) (nodes : List ℕ) (path : List (Frame ℕ))
    (t : BalancedTrees.Tree ℕ) (h : ℕ) : Prop where
  holds : Holds m s root (plug path t)
  red : t.color = .red
  around : PathBalanced path h
  below : Balanced t h
  nodes_eq : (plug path t).nodes = nodes
  same : Same s m₀ m

variable {m₀ : NodeMemory} {nodes : List ℕ} {h g : ℕ} {k : Side} {v : BalancedTrees.Tree ℕ}

theorem join_ne_nil : Tree.join d c t n u ≠ .nil := by cases d <;> simp [Tree.join]

/-- The nodes that a round of the loop looks at. -/
theorem Raised.loads (hr : Raised m₀ m s root nodes (⟨d, .red, p, u⟩ :: ⟨k, .black, g, v⟩ :: path) t h) :
    m.loadParent (t.root s) = Except.ok p ∧ m.loadParent p = Except.ok g ∧
      m.loadColor p = Except.ok .red ∧ m.loadChild k g = Except.ok p ∧
      m.loadChild k.opposite g = Except.ok (v.root s) ∧ m.loadColor (v.root s) = Except.ok v.color := by
  have hne := ne_nil_of_red hr.red
  have hholds := hr.holds
  have hparent := hholds.parent hne
  have hjoin : Holds m s root (plug (⟨k, .black, g, v⟩ :: path) (Tree.join d .red t p u)) := hholds
  have hgrand := hjoin.parent join_ne_nil
  have huncle : Holds m s root (plug (⟨k.opposite, .black, g, Tree.join d .red t p u⟩ :: path) v) := by
    rw [plug_opposite]
    exact hholds
  have hchild : Holds m s root (plug path (Tree.join k .black (Tree.join d .red t p u) g v)) := hholds
  have hcolor := hjoin.loadColor
  have hloads := hchild.loadChild
  have hp0 := hjoin.root_ne_zero
  rw [join_root] at hgrand hp0 hloads
  rw [join_root, join_color] at hcolor
  refine ⟨?_, ?_, hcolor, hloads.1, hloads.2, huncle.loadColor⟩
  · exact (loadParent_of_ne hholds.root_ne_zero).trans (congrArg Except.ok hparent)
  · exact (loadParent_of_ne hp0).trans (congrArg Except.ok hgrand)

/-- A red uncle: the fault moves up to the grandparent. -/
theorem Raised.recolor (hr : Raised m₀ m s root nodes (⟨d, .red, p, u⟩ :: ⟨k, .black, g, v⟩ :: path) t h)
    (hv : v.color = .red) :
    ∃ m', insertBalance k m root s (t.root s) = Except.ok (m', root, g) ∧
      Raised m₀ m' s root nodes path
        (Tree.join k .red (Tree.join d .black t p u) g (v.recolor .black)) (h + 1) := by
  obtain ⟨hparent, hgrand, -, -, huncle, hcolor⟩ := hr.loads
  have h0 : Holds m s root (plug (⟨k, .black, g, v⟩ :: path) (Tree.join d .red t p u)) := hr.holds
  obtain ⟨m1, hrun1, h1, hsame1⟩ := h0.recolor join_ne_nil .black
  rw [join_root] at hrun1
  rw [join_recolor, ← plug_opposite] at h1
  obtain ⟨m2, hrun2, h2, hsame2⟩ := h1.recolor (ne_nil_of_red hv) .black
  rw [plug_opposite, plug_cons] at h2
  obtain ⟨m3, hrun3, h3, hsame3⟩ := h2.recolor join_ne_nil .red
  rw [join_root] at hrun3
  rw [join_recolor] at h3
  obtain ⟨hu, hpath, hred⟩ := hr.around.cons_inv
  obtain ⟨huc, -, -⟩ := hred rfl
  obtain ⟨hvb, hrest, -⟩ := hpath.cons_inv
  refine ⟨m3, ?_, h3, join_color, hrest, ?_, ?_, hr.same.trans (hsame1.trans (hsame2.trans hsame3))⟩
  · unfold insertBalance
    refine bind_of_ok hparent (bind_of_ok hgrand (bind_of_ok huncle (bind_of_ok hcolor ?_)))
    rw [if_pos hv]
    exact bind_of_ok hrun1 (bind_of_ok hrun2 (bind_of_ok hrun3 rfl))
  · refine balanced_red.mpr ⟨balanced_black.mpr ⟨h, rfl, hr.below, hu⟩, ?_, join_color, ?_⟩
    · exact hvb.blacken_red hv
    · exact recolor_color .black (ne_nil_of_red hv)
  · rw [← hr.nodes_eq, plug_cons, plug_cons]
    refine plug_nodes_congr path ?_
    cases k <;> cases d <;> simp [Tree.join, Tree.nodes, recolor_nodes]

/-- An inner red child is rotated to the outside. -/
theorem Raised.turn (hr : Raised m₀ m s root nodes (⟨d, .red, p, u⟩ :: ⟨k, .black, g, v⟩ :: path) t h) :
    ∃ m' root' p' u' t', turnOutside k m root s (t.root s) p = Except.ok (m', root', t'.root s) ∧
      Raised m₀ m' s root' nodes (⟨k, .red, p', u'⟩ :: ⟨k, .black, g, v⟩ :: path) t' h := by
  have hne := ne_nil_of_red hr.red
  have hchild : Holds m s root (plug (⟨k, .black, g, v⟩ :: path) (Tree.join d .red t p u)) := hr.holds
  obtain ⟨hu, hpath, hred⟩ := hr.around.cons_inv
  obtain ⟨huc, -, -⟩ := hred rfl
  obtain ⟨hloadt, hloadu⟩ := hchild.loadChild
  by_cases hside : d = k
  · subst hside
    have hinner := hchild.sibling_ne (Or.inl hne)
    exact ⟨m, root, p, u, t, bind_of_ok hloadu (if_neg hinner), hr⟩
  · obtain rfl := eq_opposite_of_ne hside
    rw [opposite_opposite] at hloadu
    obtain ⟨a, z, b, ht⟩ := exists_join k hne
    rw [hr.red] at ht
    subst ht
    have hview := hchild
    rw [join_opposite] at hview
    obtain ⟨m', root', hrun, hholds, hsame⟩ := hview.rotate
    obtain ⟨ha, hb, hac, hbc⟩ := balanced_red.mp hr.below
    refine ⟨m', root', z, b, Tree.join k .red u p a, ?_, hholds, join_color,
      .red hb hbc hpath, balanced_red.mpr ⟨hu, ha, huc, hac⟩, ?_, hr.same.trans hsame⟩
    · unfold turnOutside
      rw [join_root]
      refine bind_of_ok hloadt ?_
      rw [join_root, if_pos rfl, join_root]
      exact bind_of_ok hrun rfl
    · rw [← hr.nodes_eq, plug_cons, plug_cons, plug_cons, plug_cons]
      refine plug_nodes_congr path ?_
      cases k <;> simp [Tree.join, Tree.nodes, Side.opposite]

/-- A black uncle: the grandparent is rotated below the parent. -/
theorem Raised.rotate (hr : Raised m₀ m s root nodes (⟨d, .red, p, u⟩ :: ⟨k, .black, g, v⟩ :: path) t h)
    (hv : v.color = .black) :
    ∃ m' root' p' u' t', insertBalance k m root s (t.root s) = Except.ok (m', root', t'.root s) ∧
      Raised m₀ m' s root' nodes (⟨k, .black, p', Tree.join k .red u' g v⟩ :: path) t' h := by
  obtain ⟨hparent, hgrand, -, -, huncle, hcolor⟩ := hr.loads
  obtain ⟨m1, root1, p1, u1, t1, hrun1, h1⟩ := hr.turn
  obtain ⟨hparent1, hgrand1, -, -, -, -⟩ := h1.loads
  have hview : Holds m1 s root1 (plug (⟨k, .black, g, v⟩ :: path) (Tree.join k .red t1 p1 u1)) := h1.holds
  obtain ⟨m2, hrun2, h2, hsame2⟩ := hview.recolor join_ne_nil .black
  rw [join_root] at hrun2
  rw [join_recolor, plug_cons] at h2
  have hgrand2 : m2.loadParent p1 = Except.ok g := by
    have hparent2 := Holds.parent (show Holds m2 s root1
      (plug (⟨k, .black, g, v⟩ :: path) (Tree.join k .black t1 p1 u1)) from h2) join_ne_nil
    rw [join_root] at hparent2
    have hp0 : p1 ≠ 0 := by
      have hzero := hview.root_ne_zero
      rwa [join_root] at hzero
    exact (loadParent_of_ne hp0).trans (congrArg Except.ok hparent2)
  obtain ⟨m3, hrun3, h3, hsame3⟩ := h2.recolor join_ne_nil .red
  rw [join_root] at hrun3
  rw [join_recolor, ← join_opposite k .red, ← join_opposite k .black] at h3
  obtain ⟨m4, root4, hrun4, h4, hsame4⟩ := h3.rotate
  rw [join_opposite, join_opposite] at h4
  obtain ⟨hu, hpath, hred⟩ := h1.around.cons_inv
  obtain ⟨huc, -, -⟩ := hred rfl
  obtain ⟨hvb, hrest, -⟩ := hpath.cons_inv
  refine ⟨m4, root4, p1, u1, t1, ?_, h4, h1.red, .black (balanced_red.mpr ⟨hu, hvb, huc, hv⟩) hrest,
    h1.below, ?_, h1.same.trans (hsame2.trans (hsame3.trans hsame4))⟩
  · unfold insertBalance
    refine bind_of_ok hparent (bind_of_ok hgrand (bind_of_ok huncle (bind_of_ok hcolor ?_)))
    rw [if_neg (by simp [hv])]
    refine bind_of_ok hrun1 (bind_of_ok hparent1 (bind_of_ok hrun2 (bind_of_ok hgrand2 ?_)))
    exact bind_of_ok hrun3 (bind_of_ok hrun4 rfl)
  · rw [← h1.nodes_eq, plug_cons, plug_cons, plug_cons]
    refine plug_nodes_congr path ?_
    cases k <;> simp [Tree.join, Tree.nodes]

/-- Below a black node, or at the top, the tree is balanced once its root is black. -/
theorem Raised.settled (hr : Raised m₀ m s root nodes path t h) (hhead : headColor path = .black) :
    Holds m s root (plug path t) ∧ (plug path t).nodes = nodes ∧ Same s m₀ m ∧
      plug path t ≠ .nil ∧ ∃ h', Balanced ((plug path t).recolor .black) h' := by
  refine ⟨hr.holds, hr.nodes_eq, hr.same, ?_, hr.around.settle hr.below hhead⟩
  intro hnil
  have hmem : t.root s ∈ (plug path t).nodes :=
    mem_plug.mpr (Or.inl (root_mem (ne_nil_of_red hr.red) s))
  rw [hnil] at hmem
  cases hmem

/-- The loop ends with a tree that is balanced once its root is black. -/
theorem Raised.loop (hr : Raised m₀ m s root nodes path t h) (fuel : ℕ) (hfuel : path.length < fuel) :
    ∃ m' root' t', insertFixup s fuel m root (t.root s) = Except.ok (m', root') ∧
      Holds m' s root' t' ∧ t'.nodes = nodes ∧ Same s m₀ m' ∧ t' ≠ .nil ∧
      ∃ h', Balanced (t'.recolor .black) h' := by
  induction fuel generalizing m root path t h with
  | zero => omega
  | succ fuel ih =>
    have hne := ne_nil_of_red hr.red
    cases path with
    | nil => exact ⟨m, root, t, if_pos hr.holds.root_nil, hr.settled rfl⟩
    | cons f path =>
      obtain ⟨d, c, p, u⟩ := f
      have hroot := hr.holds.ne_root hne
      have hparent : m.loadParent (t.root s) = Except.ok p :=
        (loadParent_of_ne hr.holds.root_ne_zero).trans (congrArg Except.ok (hr.holds.parent hne))
      have hcolor : m.loadColor p = Except.ok c := by
        have hview : Holds m s root (plug path (Tree.join d c t p u)) := hr.holds
        have hload := hview.loadColor
        rwa [join_root, join_color] at hload
      cases c with
      | black =>
        refine ⟨m, root, _, ?_, hr.settled rfl⟩
        rw [insertFixup, if_neg hroot]
        refine bind_of_ok hparent (bind_of_ok hcolor ?_)
        rw [if_neg (by simp)]
        rfl
      | red =>
        obtain ⟨-, -, hred⟩ := hr.around.cons_inv
        obtain ⟨-, hblack, hmore⟩ := hred rfl
        cases path with
        | nil => exact absurd rfl hmore
        | cons f path =>
          obtain ⟨k, c, g, v⟩ := f
          obtain rfl : c = .black := hblack
          obtain ⟨-, hgrand, -⟩ := hr.loads
          have hview : Holds m s root (plug path (Tree.join k .black (Tree.join d .red t p u) g v)) :=
            hr.holds
          obtain ⟨left, hleft, hside⟩ := hview.side (Or.inl join_ne_nil)
          rw [join_root] at hside
          have hrun {m' : NodeMemory} {root' node' : ℕ} {result : Exec (NodeMemory × ℕ)}
              (hbalance : insertBalance k m root s (t.root s) = Except.ok (m', root', node'))
              (hrest : insertFixup s fuel m' root' node' = result) :
              insertFixup s (fuel + 1) m root (t.root s) = result := by
            rw [insertFixup, if_neg hroot]
            refine bind_of_ok hparent (bind_of_ok hcolor ?_)
            rw [if_pos rfl]
            refine bind_of_ok hgrand (bind_of_ok hleft ?_)
            dsimp only
            rw [hside]
            exact bind_of_ok hbalance hrest
          rw [List.length_cons, List.length_cons] at hfuel
          cases hv : v.color with
          | red =>
            obtain ⟨m', hbalance, hr'⟩ := hr.recolor hv
            obtain ⟨m2, root2, t2, hrest, hresult⟩ := ih hr' (by omega)
            rw [join_root] at hrest
            exact ⟨m2, root2, t2, hrun hbalance hrest, hresult⟩
          | black =>
            obtain ⟨m', root', p', u', t', hbalance, hr'⟩ := hr.rotate hv
            obtain ⟨m2, root2, t2, hrest, hresult⟩ := ih hr' (by rw [List.length_cons]; omega)
            exact ⟨m2, root2, t2, hrun hbalance hrest, hresult⟩

/-- What an insertion leaves: the node lies behind all nodes that its key is
not less than. -/
structure Inserted (less : ℕ → ℕ → Bool) (m m' : NodeMemory) (z : ℕ) (nodes nodes' : List ℕ) :
    Prop where
  top : m'.top = m.top
  key : m'.key = m.key
  place : ∃ l r, nodes = l ++ r ∧ nodes' = l ++ z :: r ∧
    (∀ x ∈ l, less (m.key z) (m.key x) = false) ∧ ∀ x ∈ r, less (m.key z) (m.key x) = true

/-- The same for any comparison: where the node lies is said only for nodes
whose order allows a place. -/
structure Added (less : ℕ → ℕ → Bool) (m m' : NodeMemory) (z : ℕ) (nodes nodes' : List ℕ) :
    Prop where
  top : m'.top = m.top
  key : m'.key = m.key
  place : ∃ l r, nodes = l ++ r ∧ nodes' = l ++ z :: r ∧
    (Separates less m (m.key z) nodes →
      (∀ x ∈ l, less (m.key z) (m.key x) = false) ∧ ∀ x ∈ r, less (m.key z) (m.key x) = true)

/-- The first node of a tree. -/
theorem RedBlack.insert_first (h : RedBlack m s root .nil) (hz : 0 < z) (htop : z < m.top)
    (hzs : z ≠ s) (insert : NodeMemory → ℕ → ℕ → ℕ → Exec NodeMemory) :
    ∃ m' root' t', rbtreeInsert m ⟨root, s, insert⟩ z = Except.ok (m', ⟨root', s, insert⟩) ∧
      RedBlack m' s root' t' ∧ Added less m m' z [] t'.nodes := by
  have hroot : s = root := h.holds.root_eq
  let m' := (((m.setParent z 0).setChild .left z s).setChild .right z s).setColor z .black
  have hlinked : Linked m' s (.node .black .nil z .nil) :=
    ⟨if_pos rfl, if_pos ⟨rfl, rfl⟩, if_pos ⟨rfl, rfl⟩, trivial, trivial, trivial, trivial⟩
  refine ⟨m', z, .node .black .nil z .nil, ?_, ⟨⟨hlinked, rfl, ?_, ?_, h.holds.sentinel, ?_⟩,
    ⟨1, .black .nil .nil⟩, rfl⟩, rfl, rfl, [], [], rfl, rfl, by simp⟩
  · unfold rbtreeInsert
    rw [if_pos hroot.symm]
    exact bind_of_ok (storeParent_of_ne hz.ne' 0) (bind_of_ok (storeChild_of_ne .left hz.ne' s)
      (bind_of_ok (storeChild_of_ne .right hz.ne' s)
        (bind_of_ok (storeColor_of_ne hz.ne' .black) rfl)))
  · exact List.nodup_singleton z
  · intro n hn
    obtain rfl := List.mem_singleton.mp hn
    exact ⟨hz, htop, hzs⟩
  · exact (if_neg (Ne.symm hzs)).trans h.holds.black

/-- `hcore_rbtree_insert` with a descent by any comparison. -/
theorem RedBlack.insert_any (less : ℕ → ℕ → Bool) (h : RedBlack m s root t) (hz : 0 < z)
    (htop : z < m.top) (hzs : z ≠ s) (hnew : z ∉ t.nodes) :
    ∃ m' root' t', rbtreeInsert m ⟨root, s, insertBelow less⟩ z =
        Except.ok (m', ⟨root', s, insertBelow less⟩) ∧
      RedBlack m' s root' t' ∧ Added less m m' z t.nodes t'.nodes := by
  by_cases hne : t = .nil
  · subst hne
    exact RedBlack.insert_first h hz htop hzs _
  · obtain ⟨hholds, ⟨k, hbalanced⟩, hblack⟩ := h
    obtain ⟨m1, path, hrun1, rfl, hpath, hposition, hholds1, hsame1⟩ :=
      Holds.insertBelow less hholds hne hz htop hzs hnew
    obtain ⟨j, haround, hnil, -⟩ := hbalanced.focus hblack
    obtain rfl : j = 0 := by
      cases hnil
      rfl
    have hraised : Raised m m1 s root (plug path (leaf z)).nodes path (leaf z) 0 :=
      ⟨hholds1, rfl, haround, .red .nil .nil rfl rfl, rfl, hsame1⟩
    have hlength := Holds.length_lt hholds hne
    have hle := length_le_pathNodes path
    rw [plug_nodes, List.length_append, List.length_append] at hlength
    rw [pathNodes, List.length_append] at hle
    obtain ⟨m2, root2, t2, hrun2, hholds2, hnodes, hsame2, hne2, k', hbalanced2⟩ :=
      hraised.loop m1.top (by rw [hsame1.top]; omega)
    obtain ⟨m3, hrun3, hholds3, hsame3⟩ := Holds.recolor (show Holds m2 s root2 (plug [] t2) from hholds2) hne2 .black
    have hsame := hsame2.trans hsame3
    have hroot2 : t2.root s = root2 := hholds2.root_eq
    rw [hroot2] at hrun3
    refine ⟨m3, root2, t2.recolor .black, ?_, ⟨hholds3, ⟨k', hbalanced2⟩, ?_⟩, hsame.top, hsame.key,
      before path, after path, plug_nodes _ _, ?_,
      fun hsep => ⟨(hposition hsep).low, (hposition hsep).high⟩⟩
    · have hroot : root ≠ s := by
        rw [← hholds.root_eq]
        exact hholds.ne_sentinel (root_mem hne s)
      unfold rbtreeInsert
      rw [if_neg hroot]
      exact bind_of_ok hrun1 (bind_of_ok hrun2 (bind_of_ok hrun3 rfl))
    · exact recolor_color .black hne2
    · rw [recolor_nodes, hnodes, plug_nodes]
      rfl

/-- `hcore_rbtree_insert` with a descent by keys. -/
theorem RedBlack.insert (h : RedBlack m s root t) (hz : 0 < z) (htop : z < m.top) (hzs : z ≠ s)
    (hnew : z ∉ t.nodes) (hsep : Separates less m (m.key z) t.nodes) :
    ∃ m' root' t', rbtreeInsert m ⟨root, s, insertBelow less⟩ z =
        Except.ok (m', ⟨root', s, insertBelow less⟩) ∧
      RedBlack m' s root' t' ∧ Inserted less m m' z t.nodes t'.nodes := by
  obtain ⟨m', root', t', hrun, htree, hadded⟩ := RedBlack.insert_any less h hz htop hzs hnew
  obtain ⟨l, r, hnodes, hnodes', hplace⟩ := hadded.place
  obtain ⟨hlow, hhigh⟩ := hplace hsep
  exact ⟨m', root', t', hrun, htree, hadded.top, hadded.key, l, r, hnodes, hnodes', hlow, hhigh⟩

end

end HCore.RbtreeInsert
