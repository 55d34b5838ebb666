import Mathlib.Data.List.Nodup
import Mathlib.Data.List.Perm.Subperm

/-!
Red-black trees of labelled nodes, and their contexts. A context is the list of
frames from a position up to the root; each frame has the side on which the
position lies, so that a rotation and its mirror image are one statement. A
context is balanced for a height when every tree of that height that may hang
there completes it to a balanced tree.
-/

namespace HCore.BalancedTrees

inductive Side
  | left
  | right
  deriving DecidableEq, Repr

def Side.opposite : Side → Side
  | left => right
  | right => left

inductive Color
  | red
  | black
  deriving DecidableEq, Repr

inductive Tree (α : Type*)
  | nil
  | node (c : Color) (l : Tree α) (n : α) (r : Tree α)

variable {α : Type*}

namespace Tree

/-- The root, or `s` for the empty tree. -/
def root (s : α) : Tree α → α
  | nil => s
  | node _ _ n _ => n

/-- An empty tree is black. -/
def color : Tree α → Color
  | nil => .black
  | node c _ _ _ => c

def recolor (c : Color) : Tree α → Tree α
  | nil => nil
  | node _ l n r => node c l n r

/-- The nodes in order. -/
def nodes : Tree α → List α
  | nil => []
  | node _ l n r => l.nodes ++ n :: r.nodes

/-- A node with `t` on the side `d` and `u` on the other. -/
def join (d : Side) (c : Color) (t : Tree α) (n : α) (u : Tree α) : Tree α :=
  match d with
  | .left => node c t n u
  | .right => node c u n t

end Tree

/-- One step up: the position lies on `side` of `node`. -/
structure Frame (α : Type*) where
  side : Side
  color : Color
  node : α
  sibling : Tree α

/-- The tree with `t` at the position. -/
def plug : List (Frame α) → Tree α → Tree α
  | [], t => t
  | f :: path, t => plug path (Tree.join f.side f.color t f.node f.sibling)

/-- The nodes before the position. -/
def before : List (Frame α) → List α
  | [] => []
  | ⟨.left, _, _, _⟩ :: path => before path
  | ⟨.right, _, n, u⟩ :: path => before path ++ (u.nodes ++ [n])

/-- The nodes behind the position. -/
def after : List (Frame α) → List α
  | [] => []
  | ⟨.left, _, n, u⟩ :: path => n :: u.nodes ++ after path
  | ⟨.right, _, _, _⟩ :: path => after path

/-- The nodes of a context. -/
def pathNodes (path : List (Frame α)) : List α := before path ++ after path

/-- Red-black trees with `h` black nodes on every path. -/
inductive Balanced : Tree α → ℕ → Prop
  | nil : Balanced .nil 0
  | red {l r : Tree α} {n : α} {h : ℕ} (hl : Balanced l h) (hr : Balanced r h)
      (hlc : l.color = .black) (hrc : r.color = .black) : Balanced (.node .red l n r) h
  | black {l r : Tree α} {n : α} {h : ℕ} (hl : Balanced l h) (hr : Balanced r h) :
      Balanced (.node .black l n r) (h + 1)

/-- Contexts that a tree of height `h` completes, a black one under a red frame. -/
inductive PathBalanced : List (Frame α) → ℕ → Prop
  | nil {h : ℕ} : PathBalanced [] h
  | red {d d' : Side} {n n' : α} {u u' : Tree α} {path : List (Frame α)} {h : ℕ}
      (hu : Balanced u h) (huc : u.color = .black)
      (hpath : PathBalanced (⟨d', .black, n', u'⟩ :: path) h) :
      PathBalanced (⟨d, .red, n, u⟩ :: ⟨d', .black, n', u'⟩ :: path) h
  | black {d : Side} {n : α} {u : Tree α} {path : List (Frame α)} {h : ℕ} (hu : Balanced u h)
      (hpath : PathBalanced path (h + 1)) : PathBalanced (⟨d, .black, n, u⟩ :: path) h

/-- The color above a position. -/
def headColor : List (Frame α) → Color
  | [] => .black
  | f :: _ => f.color

section

variable {d : Side} {c c' : Color} {n s : α} {t u l r : Tree α} {path : List (Frame α)} {h : ℕ}

@[simp] theorem opposite_opposite (d : Side) : d.opposite.opposite = d := by cases d <;> rfl

@[simp] theorem opposite_ne (d : Side) : d.opposite ≠ d := by cases d <;> simp [Side.opposite]

@[simp] theorem ne_opposite (d : Side) : d ≠ d.opposite := (opposite_ne d).symm

theorem eq_opposite_of_ne {d e : Side} (h : e ≠ d) : e = d.opposite := by
  cases d <;> cases e <;> simp [Side.opposite] at h ⊢

theorem join_opposite (d : Side) (c : Color) (t : Tree α) (n : α) (u : Tree α) :
    Tree.join d.opposite c u n t = Tree.join d c t n u := by cases d <;> rfl

@[simp] theorem join_root : (Tree.join d c t n u).root s = n := by cases d <;> rfl

@[simp] theorem join_color : (Tree.join d c t n u).color = c := by cases d <;> rfl

@[simp] theorem join_recolor : (Tree.join d c t n u).recolor c' = Tree.join d c' t n u := by
  cases d <;> rfl

theorem exists_join (d : Side) (h : t ≠ .nil) : ∃ a n b, t = Tree.join d t.color a n b := by
  cases t with
  | nil => exact absurd rfl h
  | node c l n r =>
    cases d with
    | left => exact ⟨l, n, r, rfl⟩
    | right => exact ⟨r, n, l, rfl⟩

theorem ne_nil_of_red (h : t.color = .red) : t ≠ .nil := by
  rintro rfl
  cases h

theorem recolor_nodes (c : Color) (t : Tree α) : (t.recolor c).nodes = t.nodes := by
  cases t <;> rfl

theorem recolor_self : t.recolor t.color = t := by cases t <;> rfl

theorem plug_cons (d : Side) (c : Color) (n : α) (u : Tree α) (path : List (Frame α)) (t : Tree α) :
    plug (⟨d, c, n, u⟩ :: path) t = plug path (Tree.join d c t n u) := rfl

theorem plug_opposite (d : Side) (c : Color) (n : α) (t u : Tree α) (path : List (Frame α)) :
    plug (⟨d.opposite, c, n, t⟩ :: path) u = plug (⟨d, c, n, u⟩ :: path) t :=
  congrArg (plug path) (join_opposite d c t n u)

theorem plug_append (path path' : List (Frame α)) (t : Tree α) :
    plug (path ++ path') t = plug path' (plug path t) := by
  induction path generalizing t with
  | nil => rfl
  | cons f path ih => exact ih _

theorem plug_nodes (path : List (Frame α)) (t : Tree α) :
    (plug path t).nodes = before path ++ (t.nodes ++ after path) := by
  induction path generalizing t with
  | nil =>
    rw [before, after, List.append_nil]
    rfl
  | cons f path ih =>
    obtain ⟨d, c, n, u⟩ := f
    rw [plug_cons, ih]
    cases d <;> simp [Tree.join, Tree.nodes, before, after, List.append_assoc]

theorem plug_nodes_congr (path : List (Frame α)) (h : u.nodes = t.nodes) :
    (plug path u).nodes = (plug path t).nodes := by
  rw [plug_nodes, plug_nodes, h]

theorem plug_root (path : List (Frame α)) (h : u.root s = t.root s) :
    (plug path u).root s = (plug path t).root s := by
  induction path generalizing t u with
  | nil => exact h
  | cons f path ih =>
    refine ih ?_
    rw [join_root, join_root]

theorem mem_join {x : α} : x ∈ (Tree.join d c t n u).nodes ↔ x = n ∨ x ∈ t.nodes ∨ x ∈ u.nodes := by
  cases d <;> simp [Tree.join, Tree.nodes] <;> tauto

theorem mem_pathNodes_cons {x : α} : x ∈ pathNodes (⟨d, c, n, u⟩ :: path) ↔
    x = n ∨ x ∈ u.nodes ∨ x ∈ pathNodes path := by
  cases d <;> simp [pathNodes, before, after] <;> tauto

/-- The root of a tree is around every position below it. -/
theorem root_mem_pathNodes (s : α) (f : Frame α) (path : List (Frame α)) (t : Tree α) :
    (plug (f :: path) t).root s ∈ pathNodes (f :: path) := by
  induction path generalizing f t with
  | nil =>
    rw [plug, plug, join_root]
    exact mem_pathNodes_cons.mpr (Or.inl rfl)
  | cons g path ih =>
    exact mem_pathNodes_cons.mpr (Or.inr (Or.inr (ih g (Tree.join f.side f.color t f.node f.sibling))))

theorem mem_plug {x : α} : x ∈ (plug path t).nodes ↔ x ∈ t.nodes ∨ x ∈ pathNodes path := by
  rw [plug_nodes]
  simp only [pathNodes, List.mem_append]
  tauto

theorem join_perm (d : Side) (c : Color) (t : Tree α) (n : α) (u : Tree α) :
    (Tree.join d c t n u).nodes.Perm (n :: (t.nodes ++ u.nodes)) := by
  cases d with
  | left => exact List.perm_middle
  | right => exact List.perm_middle.trans (List.perm_append_comm.cons n)

/-- In a tree without repetitions the nodes below and around a position differ. -/
theorem nodup_plug (h : (plug path t).nodes.Nodup) :
    t.nodes.Nodup ∧ (pathNodes path).Nodup ∧ ∀ x ∈ t.nodes, x ∉ pathNodes path := by
  rw [plug_nodes] at h
  have hperm : (before path ++ (t.nodes ++ after path)).Perm (t.nodes ++ pathNodes path) :=
    List.perm_append_comm_assoc ..
  obtain ⟨ht, hpath, hdisjoint⟩ := List.nodup_append.mp (hperm.nodup_iff.mp h)
  exact ⟨ht, hpath, fun x hx hx' => hdisjoint x hx x hx' rfl⟩

theorem nodup_join (h : (Tree.join d c t n u).nodes.Nodup) :
    n ∉ t.nodes ∧ n ∉ u.nodes ∧ t.nodes.Nodup ∧ u.nodes.Nodup ∧ ∀ x ∈ t.nodes, x ∉ u.nodes := by
  obtain ⟨hn, hrest⟩ := List.nodup_cons.mp ((join_perm d c t n u).nodup_iff.mp h)
  obtain ⟨ht, hu, hdisjoint⟩ := List.nodup_append.mp hrest
  simp only [List.mem_append, not_or] at hn
  exact ⟨hn.1, hn.2, ht, hu, fun x hx hx' => hdisjoint x hx x hx' rfl⟩

theorem balanced_red : Balanced (Tree.join d .red t n u) h ↔
    Balanced t h ∧ Balanced u h ∧ t.color = .black ∧ u.color = .black := by
  constructor
  · intro hb
    cases d with
    | left => cases hb with | red hl hr hlc hrc => exact ⟨hl, hr, hlc, hrc⟩
    | right => cases hb with | red hl hr hlc hrc => exact ⟨hr, hl, hrc, hlc⟩
  · rintro ⟨ht, hu, htc, huc⟩
    cases d with
    | left => exact .red ht hu htc huc
    | right => exact .red hu ht huc htc

theorem balanced_black : Balanced (Tree.join d .black t n u) h ↔
    ∃ k, h = k + 1 ∧ Balanced t k ∧ Balanced u k := by
  constructor
  · intro hb
    cases d with
    | left => cases hb with | black hl hr => exact ⟨_, rfl, hl, hr⟩
    | right => cases hb with | black hl hr => exact ⟨_, rfl, hr, hl⟩
  · rintro ⟨k, rfl, ht, hu⟩
    cases d with
    | left => exact .black ht hu
    | right => exact .black hu ht

/-- The height that a node of this color adds. -/
def Color.height : Color → ℕ
  | .red => 0
  | .black => 1

/-- A node over trees of one height, black ones if it is red. -/
theorem balanced_join (ht : Balanced t h) (hu : Balanced u h)
    (hred : c = .red → t.color = .black ∧ u.color = .black) :
    Balanced (Tree.join d c t n u) (h + c.height) := by
  cases c with
  | red => exact balanced_red.mpr ⟨ht, hu, hred rfl⟩
  | black => exact balanced_black.mpr ⟨h, rfl, ht, hu⟩

/-- Any balanced tree can be made black. -/
theorem Balanced.blacken (hb : Balanced t h) : ∃ h', Balanced (t.recolor .black) h' := by
  cases hb with
  | nil => exact ⟨0, .nil⟩
  | red hl hr hlc hrc => exact ⟨_, .black hl hr⟩
  | black hl hr => exact ⟨_, .black hl hr⟩

theorem Balanced.blacken_red (hb : Balanced t h) (hred : t.color = .red) :
    Balanced (t.recolor .black) (h + 1) := by
  cases hb with
  | nil => cases hred
  | red hl hr hlc hrc => exact .black hl hr
  | black hl hr => cases hred

theorem recolor_color (c : Color) (hne : t ≠ .nil) : (t.recolor c).color = c := by
  cases t with
  | nil => exact absurd rfl hne
  | node c' l n r => rfl

theorem Balanced.ne_nil (hb : Balanced t (h + 1)) : t ≠ .nil := by
  rintro rfl
  cases hb

/-- A frame over its context. -/
theorem PathBalanced.cons_inv (hp : PathBalanced (⟨d, c, n, u⟩ :: path) h) :
    Balanced u h ∧ PathBalanced path (h + c.height) ∧
      (c = .red → u.color = .black ∧ headColor path = .black ∧ path ≠ []) := by
  cases hp with
  | red hu huc hpath => exact ⟨hu, hpath, fun _ => ⟨huc, rfl, by simp⟩⟩
  | black hu hpath => exact ⟨hu, hpath, by simp⟩

theorem PathBalanced.cons (hu : Balanced u h) (hpath : PathBalanced path (h + c.height))
    (hred : c = .red → u.color = .black ∧ headColor path = .black ∧ path ≠ []) :
    PathBalanced (⟨d, c, n, u⟩ :: path) h := by
  cases c with
  | black => exact .black hu hpath
  | red =>
    obtain ⟨huc, hhead, hne⟩ := hred rfl
    cases path with
    | nil => exact absurd rfl hne
    | cons f path =>
      obtain ⟨d', c', n', u'⟩ := f
      obtain rfl : c' = .black := hhead
      exact .red hu huc hpath

/-- A balanced context is completed to a balanced tree, with a black root. -/
theorem PathBalanced.fill (hp : PathBalanced path h) (hb : Balanced t h)
    (hred : headColor path = .red → t.color = .black) :
    ∃ h', Balanced (plug path t) h' ∧ (path ≠ [] → (plug path t).color = .black) := by
  induction path generalizing t h with
  | nil => exact ⟨h, hb, fun hne => absurd rfl hne⟩
  | cons f path ih =>
    obtain ⟨d, c, n, u⟩ := f
    obtain ⟨hu, hpath, hfred⟩ := hp.cons_inv
    have hjoin : Balanced (Tree.join d c t n u) (h + c.height) :=
      balanced_join hb hu fun hc => ⟨hred hc, (hfred hc).1⟩
    obtain ⟨h', hb', hcolor⟩ := ih hpath hjoin (fun hhead => by
      rw [join_color]
      cases c with
      | black => rfl
      | red => exact absurd ((hfred rfl).2.1.symm.trans hhead) (by simp))
    refine ⟨h', hb', fun _ => ?_⟩
    cases path with
    | nil =>
      change (Tree.join d c t n u).color = .black
      rw [join_color]
      cases c with
      | black => rfl
      | red => exact absurd rfl (hfred rfl).2.2
    | cons g path => exact hcolor (by simp)

/-- Under a black frame, or at the root, the tree is balanced once its root is
black. -/
theorem PathBalanced.settle (hp : PathBalanced path h) (hb : Balanced t h)
    (hhead : headColor path = .black) : ∃ h', Balanced ((plug path t).recolor .black) h' := by
  obtain ⟨h', hb', hcolor⟩ := hp.fill hb (fun hred => absurd (hhead.symm.trans hred) (by simp))
  cases path with
  | nil => exact hb.blacken
  | cons f path =>
    have hblack := hcolor (by simp)
    rw [← hblack, recolor_self]
    exact ⟨h', hb'⟩

/-- A balanced tree with a black root is balanced below and around every
position. -/
theorem Balanced.focus (hb : Balanced (plug path t) h) (hblack : (plug path t).color = .black) :
    ∃ k, PathBalanced path k ∧ Balanced t k ∧ (headColor path = .red → t.color = .black) ∧
      (path = [] → t.color = .black) := by
  induction path generalizing t with
  | nil => exact ⟨h, .nil, hb, fun _ => hblack, fun _ => hblack⟩
  | cons f path ih =>
    obtain ⟨d, c, n, u⟩ := f
    obtain ⟨k, hpath, hjoin, hred, hroot⟩ := ih hb hblack
    rw [join_color] at hred hroot
    cases c with
    | red =>
      obtain ⟨ht, hu, htc, huc⟩ := balanced_red.mp hjoin
      have hhead : headColor path = .black := by
        cases hc : headColor path with
        | black => rfl
        | red => exact absurd (hred hc) (by simp)
      refine ⟨k, .cons hu hpath fun _ => ⟨huc, hhead, fun hnil => absurd (hroot hnil) (by simp)⟩, ht,
        fun _ => htc, by simp⟩
    | black =>
      obtain ⟨k, rfl, ht, hu⟩ := balanced_black.mp hjoin
      exact ⟨k, .black hu hpath, ht, fun hhead => absurd hhead (by simp [headColor]), by simp⟩

theorem length_le_pathNodes (path : List (Frame α)) : path.length ≤ (pathNodes path).length := by
  induction path with
  | nil => exact Nat.zero_le _
  | cons f path ih =>
    obtain ⟨d, c, n, u⟩ := f
    simp only [pathNodes, List.length_append, List.length_cons] at ih ⊢
    cases d <;> simp only [before, after, List.length_append, List.length_cons, List.length_nil] <;>
      omega

theorem exists_focus {x : α} (hx : x ∈ t.nodes) : ∃ path c l r, t = plug path (.node c l x r) := by
  induction t with
  | nil => cases hx
  | node c l n r ihl ihr =>
    rw [Tree.nodes, List.mem_append, List.mem_cons] at hx
    rcases hx with hx | rfl | hx
    · obtain ⟨path, c', l', r', rfl⟩ := ihl hx
      refine ⟨path ++ [⟨.left, c, n, r⟩], c', l', r', ?_⟩
      rw [plug_append]
      rfl
    · exact ⟨[], c, l, r, rfl⟩
    · obtain ⟨path, c', l', r', rfl⟩ := ihr hx
      refine ⟨path ++ [⟨.right, c, n, l⟩], c', l', r', ?_⟩
      rw [plug_append]
      rfl

theorem before_of_left (hleft : ∀ f ∈ path, f.side = .left) : before path = [] := by
  induction path with
  | nil => rfl
  | cons f path ih =>
    obtain ⟨d, c, n, u⟩ := f
    obtain rfl : d = .left := hleft _ List.mem_cons_self
    exact ih fun f hf => hleft f (List.mem_cons_of_mem _ hf)

/-- The balance of a context does not depend on its nodes. -/
theorem PathBalanced.rename {path' : List (Frame α)} {n' : α}
    (hp : PathBalanced (path ++ ⟨d, c, n, u⟩ :: path') h) :
    PathBalanced (path ++ ⟨d, c, n', u⟩ :: path') h := by
  induction path generalizing h with
  | nil =>
    obtain ⟨hu, hpath, hred⟩ := hp.cons_inv
    exact .cons hu hpath hred
  | cons f path ih =>
    obtain ⟨d', c', m, v⟩ := f
    obtain ⟨hv, hpath, hred⟩ := hp.cons_inv
    refine .cons hv (ih hpath) ?_
    intro hc
    obtain ⟨hvc, hhead, -⟩ := hred hc
    refine ⟨hvc, ?_, by simp⟩
    cases path with
    | nil => exact hhead
    | cons g path => exact hhead

end

end HCore.BalancedTrees
