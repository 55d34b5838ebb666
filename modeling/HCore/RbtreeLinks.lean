import HCore.RbtreeModel

/-!
The memory of a red-black tree. A tree is linked when each of its nodes has its
color and its children in memory and every child points back at its parent; the
parent of the root is free. What an edit below a position leaves around it
stays linked. Recoloring and rotation at any position are edits of the tree.
-/

namespace HCore.RbtreeLinks

open Machine BalancedTrees RbtreeModel

/-- The root of `t`, if there is one, points at `n`. -/
def Under (m : NodeMemory) (n : ℕ) : BalancedTrees.Tree ℕ → Prop
  | .nil => True
  | .node _ _ x _ => m.parent x = n

/-- The nodes of `t` have their colors, children and parents in memory. -/
def Linked (m : NodeMemory) (s : ℕ) : BalancedTrees.Tree ℕ → Prop
  | .nil => True
  | .node c l n r => m.color n = c ∧ m.child .left n = l.root s ∧ m.child .right n = r.root s ∧
      Under m n l ∧ Under m n r ∧ Linked m s l ∧ Linked m s r

/-- The tree is in memory, below `root`, with the sentinel `s`. -/
structure Holds (m : NodeMemory) (s root : ℕ) (t : BalancedTrees.Tree ℕ) : Prop where
  linked : Linked m s t
  root_eq : t.root s = root
  nodup : t.nodes.Nodup
  bound : ∀ n ∈ t.nodes, 0 < n ∧ n < m.top ∧ n ≠ s
  sentinel : 0 < s
  black : m.color s = .black

/-- A red-black tree in memory. -/
structure RedBlack (m : NodeMemory) (s root : ℕ) (t : BalancedTrees.Tree ℕ) : Prop where
  holds : Holds m s root t
  balanced : ∃ h, Balanced t h
  color : t.color = .black

/-- The keys, and the parent of the sentinel, are the same. -/
structure Same (s : ℕ) (m m' : NodeMemory) : Prop where
  top : m'.top = m.top
  key : m'.key = m.key
  parent : m'.parent s = m.parent s

section

variable {m m' : NodeMemory} {s root n p : ℕ} {d : Side} {c c' : Color} {t t' u u' : BalancedTrees.Tree ℕ}
  {path : List (Frame ℕ)} {f : Frame ℕ}

theorem Same.trans {m'' : NodeMemory} (h : Same s m m') (h' : Same s m' m'') : Same s m m'' :=
  ⟨h'.top.trans h.top, h'.key.trans h.key, h'.parent.trans h.parent⟩

theorem linked_join : Linked m s (Tree.join d c t n u) ↔
    m.color n = c ∧ m.child d n = t.root s ∧ m.child d.opposite n = u.root s ∧ Under m n t ∧
      Under m n u ∧ Linked m s t ∧ Linked m s u := by
  cases d
  · exact Iff.rfl
  · constructor
    · rintro ⟨hc, hl, hr, hul, hur, hll, hlr⟩
      exact ⟨hc, hr, hl, hur, hul, hlr, hll⟩
    · rintro ⟨hc, hr, hl, hur, hul, hlr, hll⟩
      exact ⟨hc, hl, hr, hul, hur, hll, hlr⟩

theorem under_join : Under m p (Tree.join d c t n u) ↔ m.parent n = p := by
  cases d <;> exact Iff.rfl

theorem root_mem (h : t ≠ .nil) (s : ℕ) : t.root s ∈ t.nodes := by
  cases t with
  | nil => exact absurd rfl h
  | node c l n r => simp [Tree.root, Tree.nodes]

/-- A linked tree stays linked when its nodes keep their color, their children,
and, but for the root, their parents. -/
theorem Linked.congr (h : Linked m s t) (hnodup : t.nodes.Nodup)
    (hcolor : ∀ x ∈ t.nodes, m'.color x = m.color x)
    (hchild : ∀ e, ∀ x ∈ t.nodes, m'.child e x = m.child e x)
    (hparent : ∀ x ∈ t.nodes, x ≠ t.root s → m'.parent x = m.parent x) : Linked m' s t := by
  induction t with
  | nil => trivial
  | node c l n r ihl ihr =>
    obtain ⟨hc, hl, hr, hul, hur, hll, hlr⟩ := h
    obtain ⟨hnl, hnr, hnodupl, hnodupr, -⟩ := nodup_join (d := .left) hnodup
    have hmem : n ∈ (BalancedTrees.Tree.node c l n r).nodes := by simp [Tree.nodes]
    have hleft {x : ℕ} (hx : x ∈ l.nodes) : x ∈ (BalancedTrees.Tree.node c l n r).nodes ∧ x ≠ n :=
      ⟨by simp [Tree.nodes, hx], fun heq => hnl (heq ▸ hx)⟩
    have hright {x : ℕ} (hx : x ∈ r.nodes) : x ∈ (BalancedTrees.Tree.node c l n r).nodes ∧ x ≠ n :=
      ⟨by simp [Tree.nodes, hx], fun heq => hnr (heq ▸ hx)⟩
    refine ⟨(hcolor n hmem).trans hc, (hchild _ n hmem).trans hl, (hchild _ n hmem).trans hr, ?_, ?_,
      ?_, ?_⟩
    · cases l with
      | nil => trivial
      | node _ _ x _ =>
        obtain ⟨hx, hne⟩ := hleft (x := x) (by simp [Tree.nodes])
        exact (hparent x hx hne).trans hul
    · cases r with
      | nil => trivial
      | node _ _ x _ =>
        obtain ⟨hx, hne⟩ := hright (x := x) (by simp [Tree.nodes])
        exact (hparent x hx hne).trans hur
    · exact ihl hll hnodupl (fun x hx => hcolor x (hleft hx).1)
        (fun e x hx => hchild e x (hleft hx).1)
        (fun x hx _ => hparent x (hleft hx).1 (hleft hx).2)
    · exact ihr hlr hnodupr (fun x hx => hcolor x (hright hx).1)
        (fun e x hx => hchild e x (hright hx).1)
        (fun x hx _ => hparent x (hright hx).1 (hright hx).2)

theorem Linked.focus (h : Linked m s (plug path t)) : Linked m s t := by
  induction path generalizing t with
  | nil => exact h
  | cons f path ih => exact (linked_join.mp (ih h)).2.2.2.2.2.1

/-- What lies around a position stays linked when another tree with the same
root and the same parent comes there. -/
theorem Linked.above (h : Linked m s (plug path t)) (hnodup : (plug path t).nodes.Nodup)
    (ht : Linked m' s t') (hroot : t'.root s = t.root s)
    (hunder : ∀ p, Under m p t → Under m' p t')
    (hcolor : ∀ x ∈ pathNodes path, m'.color x = m.color x)
    (hchild : ∀ e, ∀ x ∈ pathNodes path, m'.child e x = m.child e x)
    (hparent : ∀ x ∈ pathNodes path, m'.parent x = m.parent x) : Linked m' s (plug path t') := by
  induction path generalizing t t' with
  | nil => exact ht
  | cons f path ih =>
    obtain ⟨d, c, n, u⟩ := f
    rw [plug_cons] at h hnodup
    obtain ⟨hc, hl, hr, hut, huu, -, hlu⟩ := linked_join.mp h.focus
    have hn : n ∈ pathNodes (⟨d, c, n, u⟩ :: path) := mem_pathNodes_cons.mpr (Or.inl rfl)
    have hsub {x : ℕ} (hx : x ∈ u.nodes) : x ∈ pathNodes (⟨d, c, n, u⟩ :: path) :=
      mem_pathNodes_cons.mpr (Or.inr (Or.inl hx))
    have hrest {x : ℕ} (hx : x ∈ pathNodes path) : x ∈ pathNodes (⟨d, c, n, u⟩ :: path) :=
      mem_pathNodes_cons.mpr (Or.inr (Or.inr hx))
    obtain ⟨-, -, -, hnodupu, -⟩ := nodup_join (nodup_plug hnodup).1
    have hunder' : Under m' n u := by
      cases u with
      | nil => trivial
      | node _ _ x _ => exact (hparent x (hsub (by simp [Tree.nodes]))).trans huu
    have hlu' : Linked m' s u := hlu.congr hnodupu (fun x hx => hcolor x (hsub hx))
      (fun e x hx => hchild e x (hsub hx)) (fun x hx _ => hparent x (hsub hx))
    refine ih h hnodup ?_ ?_ ?_ (fun x hx => hcolor x (hrest hx))
      (fun e x hx => hchild e x (hrest hx)) (fun x hx => hparent x (hrest hx))
    · exact linked_join.mpr ⟨(hcolor n hn).trans hc, (hchild d n hn).trans (hl.trans hroot.symm),
        (hchild d.opposite n hn).trans hr, hunder n hut, hunder', ht, hlu'⟩
    · rw [join_root, join_root]
    · intro p hp
      exact under_join.mpr ((hparent n hn).trans (under_join.mp hp))

/-- The same for a tree with another root, to which the frame above points. -/
theorem Linked.graft (h : Linked m s (plug (f :: path) t))
    (hnodup : (plug (f :: path) t).nodes.Nodup) (ht : Linked m' s t')
    (hunder : Under m' f.node t') (hlink : m'.child f.side f.node = t'.root s)
    (hother : m'.child f.side.opposite f.node = m.child f.side.opposite f.node)
    (hcolor : ∀ x ∈ pathNodes (f :: path), m'.color x = m.color x)
    (hchild : ∀ e, ∀ x ∈ pathNodes (f :: path), x ≠ f.node → m'.child e x = m.child e x)
    (hparent : ∀ x ∈ pathNodes (f :: path), m'.parent x = m.parent x) :
    Linked m' s (plug (f :: path) t') := by
  obtain ⟨d, c, n, u⟩ := f
  dsimp only at hunder hlink hother hchild
  rw [plug_cons] at h hnodup
  obtain ⟨hc, -, hr, -, huu, -, hlu⟩ := linked_join.mp h.focus
  have hn : n ∈ pathNodes (⟨d, c, n, u⟩ :: path) := mem_pathNodes_cons.mpr (Or.inl rfl)
  obtain ⟨hjoin, -, hdisjoint⟩ := nodup_plug hnodup
  obtain ⟨-, hnu, -, hnodupu, -⟩ := nodup_join hjoin
  have hsub {x : ℕ} (hx : x ∈ u.nodes) : x ∈ pathNodes (⟨d, c, n, u⟩ :: path) ∧ x ≠ n :=
    ⟨mem_pathNodes_cons.mpr (Or.inr (Or.inl hx)), fun heq => hnu (heq ▸ hx)⟩
  have hrest {x : ℕ} (hx : x ∈ pathNodes path) : x ∈ pathNodes (⟨d, c, n, u⟩ :: path) ∧ x ≠ n :=
    ⟨mem_pathNodes_cons.mpr (Or.inr (Or.inr hx)),
      fun heq => hdisjoint n (mem_join.mpr (Or.inl rfl)) (heq ▸ hx)⟩
  have hunder' : Under m' n u := by
    cases u with
    | nil => trivial
    | node _ _ x _ => exact (hparent x (hsub (by simp [Tree.nodes])).1).trans huu
  have hlu' : Linked m' s u := hlu.congr hnodupu (fun x hx => hcolor x (hsub hx).1)
    (fun e x hx => hchild e x (hsub hx).1 (hsub hx).2) (fun x hx _ => hparent x (hsub hx).1)
  rw [plug_cons]
  refine h.above hnodup ?_ ?_ ?_ (fun x hx => hcolor x (hrest hx).1)
    (fun e x hx => hchild e x (hrest hx).1 (hrest hx).2) (fun x hx => hparent x (hrest hx).1)
  · exact linked_join.mpr ⟨(hcolor n hn).trans hc, hlink, hother.trans hr, hunder, hunder', ht, hlu'⟩
  · rw [join_root, join_root]
  · intro p hp
    exact under_join.mpr ((hparent n hn).trans (under_join.mp hp))

theorem Holds.ne_zero (h : Holds m s root t) (hn : n ∈ t.nodes) : n ≠ 0 := (h.bound n hn).1.ne'

theorem Holds.ne_sentinel (h : Holds m s root t) (hn : n ∈ t.nodes) : n ≠ s := (h.bound n hn).2.2

/-- The root of a position is a node or the sentinel. -/
theorem Holds.root_ne_zero (h : Holds m s root (plug path t)) : t.root s ≠ 0 := by
  by_cases ht : t = .nil
  · rw [ht]
    exact h.sentinel.ne'
  · exact h.ne_zero (mem_plug.mpr (Or.inl (root_mem ht s)))

theorem Holds.loadColor (h : Holds m s root (plug path t)) :
    m.loadColor (t.root s) = Except.ok t.color := by
  rw [NodeMemory.loadColor, if_neg h.root_ne_zero]
  cases t with
  | nil => exact congrArg Except.ok h.black
  | node c l n r => exact congrArg Except.ok h.linked.focus.1

theorem Holds.loadChild (h : Holds m s root (plug path (Tree.join d c t n u))) :
    m.loadChild d n = Except.ok (t.root s) ∧ m.loadChild d.opposite n = Except.ok (u.root s) := by
  have hn : n ≠ 0 := h.ne_zero (mem_plug.mpr (Or.inl (mem_join.mpr (Or.inl rfl))))
  obtain ⟨-, ht, hu, -⟩ := linked_join.mp h.linked.focus
  rw [NodeMemory.loadChild, NodeMemory.loadChild, if_neg hn, if_neg hn, ht, hu]
  exact ⟨rfl, rfl⟩

/-- The parent of a node below a frame. -/
theorem Holds.parent (h : Holds m s root (plug (f :: path) t)) (ht : t ≠ .nil) :
    m.parent (t.root s) = f.node := by
  obtain ⟨-, -, -, hunder, -⟩ := linked_join.mp (Linked.focus (show Linked m s (plug path _) from h.linked))
  cases t with
  | nil => exact absurd rfl ht
  | node c l n r => exact hunder

theorem loadParent_of_ne (hp : p ≠ 0) : m.loadParent p = Except.ok (m.parent p) := if_neg hp

theorem storeParent_of_ne (hp : p ≠ 0) (q : ℕ) : m.storeParent p q = Except.ok (m.setParent p q) :=
  if_neg hp

theorem storeChild_of_ne (d : Side) (hp : p ≠ 0) (q : ℕ) :
    m.storeChild d p q = Except.ok (m.setChild d p q) := if_neg hp

theorem storeColor_of_ne (hp : p ≠ 0) (c : Color) :
    m.storeColor p c = Except.ok (m.setColor p c) := if_neg hp

/-- A position below a frame is not the root of the tree. -/
theorem Holds.ne_root (h : Holds m s root (plug (f :: path) t)) (ht : t ≠ .nil) : t.root s ≠ root := by
  intro heq
  have habove := root_mem_pathNodes s f path t
  rw [h.root_eq, ← heq] at habove
  exact (nodup_plug h.nodup).2.2 _ (root_mem ht s) habove

theorem Holds.root_ne_sentinel (h : Holds m s root (plug path t)) (ht : t ≠ .nil) : t.root s ≠ s :=
  h.ne_sentinel (mem_plug.mpr (Or.inl (root_mem ht s)))

/-- The children of a node differ, unless both are missing. -/
theorem Holds.sibling_ne (h : Holds m s root (plug path (Tree.join d c t n u)))
    (hne : t ≠ .nil ∨ u ≠ .nil) : t.root s ≠ u.root s := by
  have hview : Holds m s root (plug (⟨d, c, n, u⟩ :: path) t) := h
  have hview' : Holds m s root (plug (⟨d.opposite, c, n, t⟩ :: path) u) := by rwa [plug_opposite]
  obtain ⟨-, -, -, -, hdisjoint⟩ := nodup_join (nodup_plug h.nodup).1
  intro heq
  by_cases ht : t = .nil
  · have hu := hne.resolve_left (not_not.mpr ht)
    rw [ht] at heq
    exact hview'.root_ne_sentinel hu heq.symm
  · by_cases hu : u = .nil
    · rw [hu] at heq
      exact hview.root_ne_sentinel ht heq
    · exact hdisjoint _ (root_mem ht s) (heq ▸ root_mem hu s)

/-- The test which child of its parent a node is. -/
theorem Holds.side (h : Holds m s root (plug path (Tree.join d c t n u)))
    (hne : t ≠ .nil ∨ u ≠ .nil) :
    ∃ left, m.loadChild .left n = Except.ok left ∧
      (if t.root s = left then Side.left else Side.right) = d := by
  obtain ⟨ht, hu⟩ := h.loadChild
  cases d with
  | left => exact ⟨_, ht, if_pos rfl⟩
  | right => exact ⟨_, hu, if_neg (h.sibling_ne hne)⟩

theorem Holds.root_nil (h : Holds m s root (plug [] t)) : t.root s = root := h.root_eq

/-- The root of a position gets another color. -/
theorem Holds.recolor (h : Holds m s root (plug path t)) (ht : t ≠ .nil) (c : Color) :
    ∃ m', m.storeColor (t.root s) c = Except.ok m' ∧ Holds m' s root (plug path (t.recolor c)) ∧
      Same s m m' := by
  have hnodes : (plug path (t.recolor c)).nodes = (plug path t).nodes := by
    rw [plug_nodes, plug_nodes, recolor_nodes]
  have hmem := root_mem ht s
  have hne := h.ne_sentinel (mem_plug.mpr (Or.inl hmem))
  obtain ⟨hnodup, -, hdisjoint⟩ := nodup_plug h.nodup
  refine ⟨_, storeColor_of_ne h.root_ne_zero c, ⟨?_, ?_, ?_, ?_, h.sentinel, ?_⟩, rfl, rfl, rfl⟩
  · have hfocus := h.linked.focus
    cases t with
    | nil => exact absurd rfl ht
    | node c0 l n r =>
      obtain ⟨-, hl, hr, hul, hur, hll, hlr⟩ := hfocus
      obtain ⟨hnl, hnr, hnodupl, hnodupr, -⟩ := nodup_join (d := .left) hnodup
      refine h.linked.above h.nodup ⟨if_pos rfl, hl, hr, ?_, ?_, ?_, ?_⟩ rfl (fun p hp => hp) ?_
        (fun _ _ _ => rfl) (fun _ _ => rfl)
      · cases l with
        | nil => trivial
        | node _ _ x _ => exact hul
      · cases r with
        | nil => trivial
        | node _ _ x _ => exact hur
      · exact hll.congr hnodupl (fun x hx => if_neg (fun heq : x = n => hnl (heq ▸ hx))) (fun _ _ _ => rfl)
          (fun _ _ _ => rfl)
      · exact hlr.congr hnodupr (fun x hx => if_neg (fun heq : x = n => hnr (heq ▸ hx))) (fun _ _ _ => rfl)
          (fun _ _ _ => rfl)
      · intro x hx
        exact if_neg (fun heq : x = n => hdisjoint n hmem (heq ▸ hx))
  · rw [← h.root_eq]
    refine plug_root path ?_
    cases t <;> rfl
  · rw [hnodes]
    exact h.nodup
  · rw [hnodes]
    exact h.bound
  · exact (if_neg (Ne.symm hne)).trans h.black

theorem Under.congr (h : Under m n t) (hparent : t ≠ .nil → m'.parent (t.root s) = m.parent (t.root s)) :
    Under m' n t := by
  cases t with
  | nil => trivial
  | node c l x r => exact (hparent (by simp)).trans h

variable {a b e : BalancedTrees.Tree ℕ} {x y : ℕ}

/-- The links of a rotated tree. -/
theorem Linked.rotate (h : Linked m s (Tree.join d c a x (Tree.join d c' b y e)))
    (hnodup : (Tree.join d c a x (Tree.join d c' b y e)).nodes.Nodup) (hs : s ∉ a.nodes ∧ s ∉ e.nodes)
    (hcolor : m'.color = m.color) (hxd : m'.child d x = m.child d x)
    (hxo : m'.child d.opposite x = b.root s) (hyd : m'.child d y = x)
    (hyo : m'.child d.opposite y = m.child d.opposite y)
    (hchild : ∀ k, ∀ z ∈ a.nodes ++ (b.nodes ++ e.nodes), m'.child k z = m.child k z)
    (hpx : m'.parent x = y) (hpb : b ≠ .nil → m'.parent (b.root s) = x)
    (hparent : ∀ z ∈ a.nodes ++ (b.nodes ++ e.nodes), z ≠ b.root s → m'.parent z = m.parent z) :
    Linked m' s (Tree.join d c' (Tree.join d c a x b) y e) := by
  obtain ⟨hc, ha, -, hua, huy, hla, hly⟩ := linked_join.mp h
  obtain ⟨hc', hb, he, hub, hue, hlb, hle⟩ := linked_join.mp hly
  obtain ⟨-, -, hnodupa, hnodupy, hay⟩ := nodup_join hnodup
  obtain ⟨-, -, hnodupb, hnodupe, hbe⟩ := nodup_join hnodupy
  have hina {z : ℕ} (hz : z ∈ a.nodes) : z ∈ a.nodes ++ (b.nodes ++ e.nodes) ∧ z ≠ b.root s := by
    refine ⟨List.mem_append_left _ hz, ?_⟩
    rintro rfl
    by_cases hnil : b = .nil
    · rw [hnil] at hz
      exact hs.1 hz
    · exact hay _ hz (mem_join.mpr (Or.inr (Or.inl (root_mem hnil s))))
  have hinb {z : ℕ} (hz : z ∈ b.nodes) : z ∈ a.nodes ++ (b.nodes ++ e.nodes) :=
    List.mem_append_right _ (List.mem_append_left _ hz)
  have hine {z : ℕ} (hz : z ∈ e.nodes) : z ∈ a.nodes ++ (b.nodes ++ e.nodes) ∧ z ≠ b.root s := by
    refine ⟨List.mem_append_right _ (List.mem_append_right _ hz), ?_⟩
    rintro rfl
    by_cases hnil : b = .nil
    · rw [hnil] at hz
      exact hs.2 hz
    · exact hbe _ (root_mem hnil s) hz
  have hla' : Linked m' s a := hla.congr hnodupa (fun z _ => by rw [hcolor])
    (fun k z hz => hchild k z (hina hz).1) (fun z hz _ => hparent z (hina hz).1 (hina hz).2)
  have hlb' : Linked m' s b := hlb.congr hnodupb (fun z _ => by rw [hcolor])
    (fun k z hz => hchild k z (hinb hz)) (fun z hz hne => hparent z (hinb hz) hne)
  have hle' : Linked m' s e := hle.congr hnodupe (fun z _ => by rw [hcolor])
    (fun k z hz => hchild k z (hine hz).1) (fun z hz _ => hparent z (hine hz).1 (hine hz).2)
  have hua' : Under m' x a := hua.congr (s := s) fun hnil =>
    hparent _ (hina (root_mem hnil s)).1 (hina (root_mem hnil s)).2
  have hue' : Under m' y e := hue.congr (s := s) fun hnil =>
    hparent _ (hine (root_mem hnil s)).1 (hine (root_mem hnil s)).2
  have hub' : Under m' x b := by
    cases b with
    | nil => trivial
    | node _ _ z _ => exact hpb (by simp)
  refine linked_join.mpr ⟨by rw [hcolor, hc'], ?_, hyo.trans he, under_join.mpr hpx, hue', ?_, hle'⟩
  · rw [hyd, join_root]
  · exact linked_join.mpr ⟨by rw [hcolor, hc], hxd.trans ha, hxo, hua', hub', hla', hlb'⟩

theorem rotate_nodes : (Tree.join d c' (Tree.join d c a x b) y e).nodes =
    (Tree.join d c a x (Tree.join d c' b y e)).nodes := by
  cases d <;> simp [Tree.join, Tree.nodes]

/-- A child below a frame is replaced. -/
theorem replaceChild_eq {g q : ℕ} {k : Side} (hp : p ≠ 0) (hg : g ≠ 0) (hparent : m.parent p = g)
    (hchild : m.child k g = p) (hother : m.child k.opposite g ≠ p) (d : Side) :
    replaceChild d m p q = Except.ok (m.setChild k g q) := by
  unfold replaceChild
  refine bind_of_ok (loadParent_of_ne hp) ?_
  rw [hparent]
  refine bind_of_ok (if_neg hg) ?_
  by_cases hk : k = d
  · rw [if_pos (by rw [← hk, hchild]), ← hk]
    exact storeChild_of_ne k hg q
  · obtain rfl := eq_opposite_of_ne hk
    rw [opposite_opposite] at hother
    rw [if_neg (Ne.symm hother)]
    exact storeChild_of_ne _ hg q

theorem loadChild_of_ne (d : Side) (hp : p ≠ 0) : m.loadChild d p = Except.ok (m.child d p) :=
  if_neg hp

/-- A subtree gets a parent, if it is not empty. -/
theorem linkParent_subtree (hb : b ≠ .nil → b.root s ≠ 0 ∧ b.root s ≠ s) (m : NodeMemory) (x : ℕ) :
    ∃ m', linkParent m s (b.root s) x = Except.ok m' ∧
      m'.top = m.top ∧ m'.key = m.key ∧ m'.color = m.color ∧ m'.child = m.child ∧
      (b ≠ .nil → m'.parent (b.root s) = x) ∧
      (∀ z, (b ≠ .nil → z ≠ b.root s) → m'.parent z = m.parent z) := by
  unfold linkParent
  by_cases hnil : b = .nil
  · have hroot : ¬ b.root s ≠ s := by
      rw [hnil]
      exact not_not.mpr rfl
    rw [if_neg hroot]
    exact ⟨m, rfl, rfl, rfl, rfl, rfl, fun hne => absurd hnil hne, fun _ _ => rfl⟩
  · obtain ⟨hzero, hroot⟩ := hb hnil
    rw [if_pos hroot]
    exact ⟨_, storeParent_of_ne hzero x, rfl, rfl, rfl, rfl, fun _ => if_pos rfl,
      fun z hz => if_neg (hz hnil)⟩

/-- The rotation, up to the place above, which `replace` points at `y`. -/
theorem rotate_eq {m2 m4 : NodeMemory} {root' q : ℕ} (hx : x ≠ 0) (hy : y ≠ 0) (hxy : x ≠ y)
    (hxo : m.child d.opposite x = y) (hyd : m.child d y = q)
    (hadopt : linkParent (m.setChild d.opposite x q) s q x = Except.ok m2)
    (hpx : m2.parent x = m.parent x)
    (hreplace : replace d (m2.setParent y (m.parent x)) root x y = Except.ok (m4, root')) :
    rotate d m root s x = Except.ok ((m4.setChild d y x).setParent x y, root') := by
  have hyd1 : (m.setChild d.opposite x q).child d y = q := by
    rw [← hyd]
    exact if_neg (fun hsame => hxy hsame.2.symm)
  unfold rotate
  refine bind_of_ok (loadChild_of_ne _ hx) ?_
  rw [hxo]
  refine bind_of_ok (loadChild_of_ne _ hy) ?_
  rw [hyd]
  refine bind_of_ok (storeChild_of_ne _ hx _) ?_
  refine bind_of_ok (loadChild_of_ne _ hy) ?_
  rw [hyd1]
  refine bind_of_ok hadopt ?_
  refine bind_of_ok (loadParent_of_ne hx) ?_
  rw [hpx]
  refine bind_of_ok (storeParent_of_ne hy _) ?_
  refine bind_of_ok hreplace ?_
  refine bind_of_ok (storeChild_of_ne _ hy _) ?_
  exact bind_of_ok (storeParent_of_ne hx _) rfl

/-- In `m2` the node `x` has `b` for its other child, and `b` has `x` for its parent. -/
structure Adopted (d : Side) (s x : ℕ) (b : BalancedTrees.Tree ℕ) (m m2 : NodeMemory) : Prop where
  top : m2.top = m.top
  key : m2.key = m.key
  color : m2.color = m.color
  child : m2.child = (m.setChild d.opposite x (b.root s)).child
  root : b ≠ .nil → m2.parent (b.root s) = x
  parent : ∀ z, (b ≠ .nil → z ≠ b.root s) → m2.parent z = m.parent z

/-- What the memory says below the position after the rotation, once the place
above points at `y`. -/
theorem Linked.rotated {m2 m4 : NodeMemory} {g : ℕ}
    (h : Linked m s (Tree.join d c a x (Tree.join d c' b y e)))
    (hnodup : (Tree.join d c a x (Tree.join d c' b y e)).nodes.Nodup) (hs : s ∉ a.nodes ∧ s ∉ e.nodes)
    (hadopted : Adopted d s x b m m2)
    (hcolor : m4.color = m.color) (hparent4 : m4.parent = (m2.setParent y g).parent)
    (hchild : ∀ k, ∀ z ∈ (Tree.join d c a x (Tree.join d c' b y e)).nodes,
      m4.child k z = (m.setChild d.opposite x (b.root s)).child k z) :
    Linked ((m4.setChild d y x).setParent x y) s
      (Tree.join d c' (Tree.join d c a x b) y e) := by
  obtain ⟨hxa, hxye, -, hnodupy, hay⟩ := nodup_join hnodup
  obtain ⟨hyb, hye, -, -, -⟩ := nodup_join hnodupy
  rw [mem_join, not_or, not_or] at hxye
  obtain ⟨hxy, hxb, hxe⟩ := hxye
  have hya : y ∉ a.nodes := fun hy => hay y hy (mem_join.mpr (Or.inl rfl))
  have hins {z : ℕ} (hz : z ∈ a.nodes ++ (b.nodes ++ e.nodes)) : z ≠ x ∧ z ≠ y ∧
      z ∈ (Tree.join d c a x (Tree.join d c' b y e)).nodes := by
    rw [List.mem_append, List.mem_append] at hz
    refine ⟨?_, ?_, mem_join.mpr (Or.inr (hz.imp_right fun hz => mem_join.mpr (Or.inr hz)))⟩
    · rintro rfl
      exact hz.elim hxa (fun hz => hz.elim hxb hxe)
    · rintro rfl
      exact hz.elim hya (fun hz => hz.elim hyb hye)
  have hxmem : x ∈ (Tree.join d c a x (Tree.join d c' b y e)).nodes := mem_join.mpr (Or.inl rfl)
  have hymem : y ∈ (Tree.join d c a x (Tree.join d c' b y e)).nodes :=
    mem_join.mpr (Or.inr (Or.inr (mem_join.mpr (Or.inl rfl))))
  refine h.rotate hnodup hs hcolor ?_ ?_ ?_ ?_ ?_ ?_ ?_ ?_
  · refine (if_neg fun hsame => hxy hsame.2).trans ((hchild d x hxmem).trans ?_)
    exact if_neg fun hsame => ne_opposite d hsame.1
  · refine (if_neg fun hsame => hxy hsame.2).trans ((hchild d.opposite x hxmem).trans ?_)
    exact if_pos ⟨rfl, rfl⟩
  · exact if_pos ⟨rfl, rfl⟩
  · refine (if_neg fun hsame => opposite_ne d hsame.1).trans ((hchild _ y hymem).trans ?_)
    exact if_neg fun hsame => hxy hsame.2.symm
  · intro k z hz
    obtain ⟨hzx, hzy, hzmem⟩ := hins hz
    refine (if_neg fun hsame => hzy hsame.2).trans ((hchild k z hzmem).trans ?_)
    exact if_neg fun hsame => hzx hsame.2
  · exact if_pos rfl
  · intro hnil
    have hxbroot : b.root s ≠ x := fun heq => hxb (heq ▸ root_mem hnil s)
    have hybroot : b.root s ≠ y := fun heq => hyb (heq ▸ root_mem hnil s)
    refine (if_neg hxbroot).trans ?_
    change m4.parent _ = x
    rw [hparent4]
    exact (if_neg hybroot).trans (hadopted.root hnil)
  · intro z hz hne
    obtain ⟨hzx, hzy, -⟩ := hins hz
    refine (if_neg hzx).trans ?_
    change m4.parent z = m.parent z
    rw [hparent4]
    exact (if_neg hzy).trans (hadopted.parent z fun _ => hne)

/-- What a rotation leaves as it was, next to the links. -/
theorem Holds.rotated {root' : ℕ}
    (h : Holds m s root (plug path (Tree.join d c a x (Tree.join d c' b y e))))
    (hlinked : Linked m' s (plug path (Tree.join d c' (Tree.join d c a x b) y e)))
    (hroot : (plug path (Tree.join d c' (Tree.join d c a x b) y e)).root s = root')
    (hcolor : m'.color = m.color) (hsame : Same s m m') :
    Holds m' s root' (plug path (Tree.join d c' (Tree.join d c a x b) y e)) := by
  have hnodes : (plug path (Tree.join d c' (Tree.join d c a x b) y e)).nodes =
      (plug path (Tree.join d c a x (Tree.join d c' b y e))).nodes := by
    rw [plug_nodes, rotate_nodes, ← plug_nodes]
  refine ⟨hlinked, hroot, ?_, ?_, h.sentinel, ?_⟩
  · rw [hnodes]
    exact h.nodup
  · intro n hn
    rw [hnodes] at hn
    obtain ⟨hpos, hlt, hne⟩ := h.bound n hn
    exact ⟨hpos, hlt.trans_eq hsame.top.symm, hne⟩
  · rw [hcolor]
    exact h.black

theorem mem_rotation {z : ℕ} (hz : z = x ∨ z ∈ a.nodes ∨ z = y ∨ z ∈ b.nodes ∨ z ∈ e.nodes) :
    z ∈ (Tree.join d c a x (Tree.join d c' b y e)).nodes := by
  rw [mem_join, mem_join]
  exact hz

theorem Holds.rotation_ne {z : ℕ}
    (h : Holds m s root (plug path (Tree.join d c a x (Tree.join d c' b y e))))
    (hz : z = x ∨ z ∈ a.nodes ∨ z = y ∨ z ∈ b.nodes ∨ z ∈ e.nodes) : z ≠ 0 ∧ z ≠ s := by
  have hmem : z ∈ (plug path (Tree.join d c a x (Tree.join d c' b y e))).nodes :=
    mem_plug.mpr (Or.inl (mem_rotation hz))
  exact ⟨h.ne_zero hmem, h.ne_sentinel hmem⟩

theorem Holds.rotation_distinct
    (h : Holds m s root (plug path (Tree.join d c a x (Tree.join d c' b y e)))) :
    x ≠ y ∧ x ∉ b.nodes := by
  obtain ⟨-, hxye, -, -, -⟩ := nodup_join (nodup_plug h.nodup).1
  rw [mem_join, not_or, not_or] at hxye
  exact ⟨hxye.1, hxye.2.1⟩

/-- The first half of a rotation: `x` adopts `b`. -/
theorem Holds.adopt (h : Holds m s root (plug path (Tree.join d c a x (Tree.join d c' b y e)))) :
    ∃ m2, Adopted d s x b m m2 ∧
      ∀ m4 root', replace d (m2.setParent y (m.parent x)) root x y = Except.ok (m4, root') →
        rotate d m root s x = Except.ok ((m4.setChild d y x).setParent x y, root') := by
  have hx0 : x ≠ 0 := (h.rotation_ne (Or.inl rfl)).1
  have hy0 : y ≠ 0 := (h.rotation_ne (Or.inr (Or.inr (Or.inl rfl)))).1
  have hbroot (hnil : b ≠ .nil) : b.root s ≠ 0 ∧ b.root s ≠ s :=
    h.rotation_ne (Or.inr (Or.inr (Or.inr (Or.inl (root_mem hnil s)))))
  obtain ⟨hxy, hxb⟩ := h.rotation_distinct
  obtain ⟨-, -, hxo, -, -, -, hly⟩ := linked_join.mp h.linked.focus
  obtain ⟨-, hyd, -, -, -, -, -⟩ := linked_join.mp hly
  rw [join_root] at hxo
  obtain ⟨m2, hlink, htop, hkey, hcolor, hchild, hroot, hparent⟩ :=
    linkParent_subtree hbroot (m.setChild d.opposite x (b.root s)) x
  have hpx : m2.parent x = m.parent x :=
    hparent x fun hnil heq => hxb (heq ▸ root_mem hnil s)
  exact ⟨m2, ⟨htop, hkey, hcolor, hchild, hroot, hparent⟩,
    fun m4 root' hreplace => rotate_eq hx0 hy0 hxy hxo hyd hlink hpx hreplace⟩

/-- The sentinel is not in the trees of a rotation. -/
theorem Holds.sentinel_outside
    (h : Holds m s root (plug path (Tree.join d c a x (Tree.join d c' b y e)))) :
    s ∉ a.nodes ∧ s ∉ e.nodes :=
  ⟨fun hs => (h.rotation_ne (Or.inr (Or.inl hs))).2 rfl,
    fun hs => (h.rotation_ne (Or.inr (Or.inr (Or.inr (Or.inr hs))))).2 rfl⟩

theorem Holds.same_rotated {m2 m4 : NodeMemory}
    (h : Holds m s root (plug path (Tree.join d c a x (Tree.join d c' b y e))))
    (hadopted : Adopted d s x b m m2) (htop : m4.top = m2.top) (hkey : m4.key = m2.key)
    (hparent : m4.parent = (m2.setParent y (m.parent x)).parent) :
    Same s m ((m4.setChild d y x).setParent x y) := by
  have hxs : x ≠ s := (h.rotation_ne (Or.inl rfl)).2
  have hys : y ≠ s := (h.rotation_ne (Or.inr (Or.inr (Or.inl rfl)))).2
  have hbs (hnil : b ≠ .nil) : b.root s ≠ s :=
    (h.rotation_ne (Or.inr (Or.inr (Or.inr (Or.inl (root_mem hnil s)))))).2
  refine ⟨htop.trans hadopted.top, hkey.trans hadopted.key, ?_⟩
  refine (if_neg hxs.symm).trans ?_
  change m4.parent s = m.parent s
  rw [hparent]
  exact (if_neg hys.symm).trans (hadopted.parent s fun hnil => (hbs hnil).symm)

/-- The second half at the root of the tree, which is now `y`. -/
theorem Holds.rotate_root {m2 : NodeMemory}
    (h : Holds m s root (plug [] (Tree.join d c a x (Tree.join d c' b y e))))
    (hadopted : Adopted d s x b m m2) :
    ∃ m4 root', replace d (m2.setParent y (m.parent x)) root x y = Except.ok (m4, root') ∧
      Holds ((m4.setChild d y x).setParent x y) s root'
        (plug [] (Tree.join d c' (Tree.join d c a x b) y e)) ∧
      Same s m ((m4.setChild d y x).setParent x y) := by
  have hroot : x = root := by
    rw [← h.root_nil, join_root]
  have hsame : Same s m (((m2.setParent y (m.parent x)).setChild d y x).setParent x y) :=
    h.same_rotated hadopted rfl rfl rfl
  refine ⟨_, y, if_pos hroot, h.rotated ?_ join_root hadopted.color hsame, hsame⟩
  refine h.linked.rotated h.nodup h.sentinel_outside hadopted hadopted.color rfl ?_
  intro k z _
  exact congrFun (congrFun hadopted.child k) z

/-- The nodes around the position are not those that the rotation writes. -/
theorem Holds.path_apart {z : ℕ}
    (h : Holds m s root (plug (f :: path) (Tree.join d c a x (Tree.join d c' b y e))))
    (hz : z ∈ pathNodes (f :: path)) : z ≠ x ∧ z ≠ y ∧ (b ≠ .nil → z ≠ b.root s) := by
  have hne {w : ℕ} (hw : w = x ∨ w ∈ a.nodes ∨ w = y ∨ w ∈ b.nodes ∨ w ∈ e.nodes) : z ≠ w :=
    fun heq => (nodup_plug h.nodup).2.2 w (mem_rotation hw) (heq ▸ hz)
  exact ⟨hne (Or.inl rfl), hne (Or.inr (Or.inr (Or.inl rfl))),
    fun hnil => hne (Or.inr (Or.inr (Or.inr (Or.inl (root_mem hnil s)))))⟩

theorem Holds.rotation_parent
    (h : Holds m s root (plug (f :: path) (Tree.join d c a x (Tree.join d c' b y e)))) :
    x ≠ root ∧ m.parent x = f.node := by
  have hnil : Tree.join d c a x (Tree.join d c' b y e) ≠ .nil := by
    cases d <;> simp [Tree.join]
  have hne := h.ne_root hnil
  have hparent := h.parent hnil
  rw [join_root] at hne hparent
  exact ⟨hne, hparent⟩

theorem Holds.path_child {m2 : NodeMemory} {z : ℕ}
    (h : Holds m s root (plug (f :: path) (Tree.join d c a x (Tree.join d c' b y e))))
    (hadopted : Adopted d s x b m m2) (hz : z ∈ pathNodes (f :: path)) (k : Side) :
    m2.child k z = m.child k z := by
  rw [hadopted.child]
  exact if_neg fun hsame => (h.path_apart hz).1 hsame.2

/-- Below a frame, its node points at `y` in the end. -/
theorem Holds.replace_below {m2 : NodeMemory}
    (h : Holds m s root (plug (f :: path) (Tree.join d c a x (Tree.join d c' b y e))))
    (hadopted : Adopted d s x b m m2) :
    replace d (m2.setParent y (m.parent x)) root x y =
      Except.ok ((m2.setParent y (m.parent x)).setChild f.side f.node y, root) := by
  obtain ⟨hx0, hxs⟩ := h.rotation_ne (Or.inl rfl)
  obtain ⟨hxy, hxb⟩ := h.rotation_distinct
  obtain ⟨hxroot, hpf⟩ := h.rotation_parent
  have hfmem : f.node ∈ pathNodes (f :: path) := mem_pathNodes_cons.mpr (Or.inl rfl)
  have hf0 : f.node ≠ 0 := h.ne_zero (mem_plug.mpr (Or.inr hfmem))
  have hpx : m2.parent x = m.parent x :=
    hadopted.parent x fun hnil heq => hxb (heq ▸ root_mem hnil s)
  obtain ⟨-, hside, hopposite, -⟩ :=
    linked_join.mp (Linked.focus (show Linked m s (plug path _) from h.linked))
  rw [join_root] at hside
  unfold replace
  rw [if_neg hxroot]
  refine bind_of_ok (replaceChild_eq hx0 hf0 ?_ ?_ ?_ d) rfl
  · exact (if_neg hxy).trans (hpx.trans hpf)
  · exact (h.path_child hadopted hfmem _).trans hside
  · refine ne_of_eq_of_ne ((h.path_child hadopted hfmem _).trans hopposite) ?_
    by_cases hsib : f.sibling = .nil
    · rw [hsib]
      exact hxs.symm
    · exact (h.path_apart (mem_pathNodes_cons.mpr (Or.inr (Or.inl (root_mem hsib s))))).1

/-- The second half below a frame. -/
theorem Holds.rotate_below {m2 : NodeMemory}
    (h : Holds m s root (plug (f :: path) (Tree.join d c a x (Tree.join d c' b y e))))
    (hadopted : Adopted d s x b m m2) :
    ∃ m4 root', replace d (m2.setParent y (m.parent x)) root x y = Except.ok (m4, root') ∧
      Holds ((m4.setChild d y x).setParent x y) s root'
        (plug (f :: path) (Tree.join d c' (Tree.join d c a x b) y e)) ∧
      Same s m ((m4.setChild d y x).setParent x y) := by
  obtain ⟨hxy, -⟩ := h.rotation_distinct
  obtain ⟨hnodup, -, hdisjoint⟩ := nodup_plug h.nodup
  have hfmem : f.node ∈ pathNodes (f :: path) := mem_pathNodes_cons.mpr (Or.inl rfl)
  obtain ⟨-, hfy, -⟩ := h.path_apart hfmem
  have hsame : Same s m
      ((((m2.setParent y (m.parent x)).setChild f.side f.node y).setChild d y x).setParent x y) :=
    h.same_rotated hadopted rfl rfl rfl
  refine ⟨_, root, h.replace_below hadopted, h.rotated ?_ ?_ hadopted.color hsame, hsame⟩
  · refine h.linked.graft h.nodup ?_ ?_ ?_ ?_ ?_ ?_ ?_
    · refine h.linked.focus.rotated hnodup h.sentinel_outside hadopted hadopted.color rfl ?_
      intro k z hz
      refine (if_neg fun hsame => ?_).trans (congrFun (congrFun hadopted.child k) z)
      exact hdisjoint z hz (hsame.2 ▸ hfmem)
    · rw [under_join]
      refine (if_neg (Ne.symm hxy)).trans ?_
      exact (if_pos rfl).trans h.rotation_parent.2
    · rw [join_root]
      refine (if_neg fun hsame => hfy hsame.2).trans ?_
      exact if_pos ⟨rfl, rfl⟩
    · refine (if_neg fun hsame => hfy hsame.2).trans ?_
      refine (if_neg fun hsame => opposite_ne _ hsame.1).trans ?_
      exact h.path_child hadopted hfmem _
    · intro z _
      exact congrFun hadopted.color z
    · intro k z hz hne
      refine (if_neg fun hsame => (h.path_apart hz).2.1 hsame.2).trans ?_
      refine (if_neg fun hsame => hne hsame.2).trans ?_
      exact h.path_child hadopted hz k
    · intro z hz
      obtain ⟨hzx, hzy, hzb⟩ := h.path_apart hz
      refine (if_neg hzx).trans ?_
      exact (if_neg hzy).trans (hadopted.parent z hzb)
  · refine Eq.trans ?_ h.root_eq
    exact plug_root path (by rw [join_root, join_root])

/-- A rotation at any position. -/
theorem Holds.rotate (h : Holds m s root (plug path (Tree.join d c a x (Tree.join d c' b y e)))) :
    ∃ m' root', rotate d m root s x = Except.ok (m', root') ∧
      Holds m' s root' (plug path (Tree.join d c' (Tree.join d c a x b) y e)) ∧ Same s m m' := by
  obtain ⟨m2, hadopted, hrun⟩ := h.adopt
  cases path with
  | nil =>
    obtain ⟨m4, root', hreplace, hholds, hsame⟩ := h.rotate_root hadopted
    exact ⟨_, root', hrun m4 root' hreplace, hholds, hsame⟩
  | cons f path =>
    obtain ⟨m4, root', hreplace, hholds, hsame⟩ := h.rotate_below hadopted
    exact ⟨_, root', hrun m4 root' hreplace, hholds, hsame⟩

end

end HCore.RbtreeLinks
