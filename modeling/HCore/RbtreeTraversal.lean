import HCore.RbtreeTimers

/-!
The traversal of a red-black tree. The successor of a node is the first node of
its right subtree; without one the search climbs to the first ancestor that it
reaches from the left, and ends at the root, whose own parent is never used.
From the first node on, the successors are the nodes in order.
-/

namespace HCore.RbtreeTraversal

open Machine BalancedTrees RbtreeModel RbtreeLinks RbtreeInsert RbtreeSplice RbtreeRuns RbtreeTimers

/-- The loop of `hcore_rbtree_next`; NULL is 0. -/
def climb (m : NodeMemory) (root : ℕ) : ℕ → ℕ → Exec ℕ
  | 0, _ => outOfFuel
  | fuel + 1, node => do
    let parent ← m.loadParent node
    if node = root then pure 0
    else
      let left ← m.loadChild .left parent
      if node = left then pure parent else climb m root fuel parent

/-- `hcore_rbtree_next` -/
def rbtreeNext (m : NodeMemory) (tree : Rbtree) (node : ℕ) : Exec ℕ := do
  let right ← m.loadChild .right node
  if right ≠ tree.sentinel then rbtreeMin m tree.sentinel m.top right
  else climb m tree.root m.top node

/-- The nodes from `node` on, up to NULL. -/
def traverseFrom (m : NodeMemory) (tree : Rbtree) : ℕ → ℕ → Exec (List ℕ)
  | 0, _ => outOfFuel
  | fuel + 1, node =>
    if node = 0 then pure []
    else do
      let next ← rbtreeNext m tree node
      let rest ← traverseFrom m tree fuel next
      pure (node :: rest)

/-- All nodes, from `hcore_rbtree_min` of the root on. -/
def traverse (m : NodeMemory) (tree : Rbtree) (fuel : ℕ) : Exec (List ℕ) := do
  let first ← rbtreeMin m tree.sentinel m.top tree.root
  traverseFrom m tree fuel first

/-- The traversal visits each node of the sequence once, in order, and then
returns NULL. -/
structure Visits (st : NodeMemory × Rbtree) (xs : List (ℕ × ℕ)) : Prop where
  once : (xs.map Prod.fst).Nodup
  visited : ∀ fuel, xs.length < fuel → traverse st.1 st.2 fuel = Except.ok (xs.map Prod.fst)

section

variable {m : NodeMemory} {tree : Rbtree} {top s root fuel x : ℕ} {c : Color}
  {t l r : BalancedTrees.Tree ℕ} {path : List (Frame ℕ)} {less : ℕ → ℕ → Bool}

/-- The first node of a sequence, or NULL. -/
def headOrNull (nodes : List ℕ) : ℕ := nodes.head?.getD 0

@[simp] theorem headOrNull_cons (x : ℕ) (nodes : List ℕ) : headOrNull (x :: nodes) = x := rfl

/-- The climb ends at the first node behind the position. -/
theorem climb_after (h : Holds m s root (plug path t)) (hne : t ≠ .nil) (hfuel : path.length < fuel) :
    climb m root fuel (t.root s) = Except.ok (headOrNull (after path)) := by
  induction path generalizing t fuel with
  | nil =>
    obtain ⟨fuel, rfl⟩ := Nat.exists_eq_add_of_lt hfuel
    exact bind_of_ok (loadParent_of_ne h.root_ne_zero) (if_pos h.root_nil)
  | cons f path ih =>
    obtain ⟨d, c, n, u⟩ := f
    obtain ⟨fuel, rfl⟩ := Nat.exists_eq_succ_of_ne_zero (Nat.ne_zero_of_lt hfuel)
    have hview : Holds m s root (plug path (Tree.join d c t n u)) := h
    obtain ⟨hself, hother⟩ := hview.loadChild
    refine bind_of_ok (loadParent_of_ne h.root_ne_zero) ?_
    rw [h.parent hne, if_neg (h.ne_root hne)]
    cases d with
    | left => exact bind_of_ok hself (if_pos rfl)
    | right =>
      refine bind_of_ok hother ?_
      rw [if_neg (hview.sibling_ne (Or.inl hne))]
      have hrest := ih hview (by simp [Tree.join]) (Nat.lt_of_succ_lt_succ hfuel)
      rwa [join_root] at hrest

/-- The first node of a subtree. -/
theorem rbtreeMin_subtree (h : Holds m s root (plug path t)) (hne : t ≠ .nil)
    (hfuel : t.nodes.length ≤ fuel) (rest : List ℕ) :
    rbtreeMin m s fuel (t.root s) = Except.ok (headOrNull (t.nodes ++ rest)) := by
  obtain ⟨path', c, y, r, hmin, rfl, hleft⟩ := rbtreeMin_loop fuel h hne hfuel
  rw [hmin, plug_nodes, before_of_left hleft]
  rfl

/-- `hcore_rbtree_next` finds the node behind `x` in order. -/
theorem rbtreeNext_eq (h : Holds m s tree.root (plug path (.node c l x r))) (hs : tree.sentinel = s) :
    rbtreeNext m tree x = Except.ok (headOrNull (r.nodes ++ after path)) := by
  have hlength := Holds.length_lt (t := plug path (.node c l x r)) h (by
    intro hnil
    have hx : x ∈ (plug path (.node c l x r)).nodes := mem_plug.mpr (Or.inl (by simp [Tree.nodes]))
    rw [hnil] at hx
    cases hx)
  rw [plug_nodes] at hlength
  simp only [Tree.nodes, List.length_append, List.length_cons] at hlength
  have hview : Holds m s tree.root (plug path (Tree.join .left c l x r)) := h
  obtain ⟨-, hright⟩ := hview.loadChild
  refine bind_of_ok hright ?_
  rw [hs]
  by_cases hr : r = .nil
  · subst hr
    have hpath : path.length < m.top := by
      have hle := length_le_pathNodes path
      rw [pathNodes, List.length_append] at hle
      omega
    refine (if_neg ?_).trans (climb_after h (by simp) hpath)
    exact not_not.mpr rfl
  · have hbelow : Holds m s tree.root (plug (⟨.right, c, x, l⟩ :: path) r) := h
    rw [if_pos (hbelow.root_ne_sentinel hr)]
    exact rbtreeMin_subtree hbelow hr (by omega) (after path)

/-- The rest of the sequence is visited from its first node on. -/
theorem traverseFrom_eq (h : Holds m s tree.root t) (hs : tree.sentinel = s) {a b : List ℕ}
    (hnodes : t.nodes = a ++ b) (hfuel : b.length < fuel) :
    traverseFrom m tree fuel (headOrNull b) = Except.ok b := by
  induction b generalizing a fuel with
  | nil =>
    obtain ⟨fuel, rfl⟩ := Nat.exists_eq_succ_of_ne_zero (Nat.ne_zero_of_lt hfuel)
    rfl
  | cons x b ih =>
    obtain ⟨fuel, rfl⟩ := Nat.exists_eq_succ_of_ne_zero (Nat.ne_zero_of_lt hfuel)
    have hx : x ∈ t.nodes := by simp [hnodes]
    have hnext : rbtreeNext m tree x = Except.ok (headOrNull b) := by
      obtain ⟨path, c, l, r, rfl⟩ := exists_focus hx
      have hnodup := h.nodup
      rw [hnodes, List.nodup_middle, List.nodup_cons, List.mem_append, not_or] at hnodup
      obtain ⟨⟨hxa, hxb⟩, -⟩ := hnodup
      have hsplit : a ++ x :: b = (before path ++ l.nodes) ++ x :: (r.nodes ++ after path) := by
        rw [← hnodes, plug_nodes]
        simp [Tree.nodes]
      obtain ⟨-, -, rfl⟩ := (List.append_cons_inj_of_notMem hxa hxb).mp hsplit
      exact rbtreeNext_eq h hs
    have hrest := ih (a := a ++ [x]) (by simp [hnodes]) (Nat.lt_of_succ_lt_succ hfuel)
    rw [headOrNull_cons, traverseFrom, if_neg (h.ne_zero hx)]
    exact bind_of_ok hnext (bind_of_ok hrest rfl)

/-- A tree that holds a sequence with a first node is traversed along it. -/
theorem represents_visits {st : NodeMemory × Rbtree} {xs : List (ℕ × ℕ)}
    (h : Represents less top s st xs) (hne : xs ≠ []) : Visits st xs := by
  obtain ⟨y, rest, rfl⟩ := List.exists_cons_of_ne_nil hne
  have hmin := rbtreeMin_head h
  obtain ⟨⟨t, htree, hxs⟩, hs, -, -⟩ := h
  have hnodes : t.nodes = (y :: rest).map Prod.fst := by
    rw [← hxs, List.map_map]
    exact (List.map_id _).symm
  refine ⟨hnodes ▸ htree.holds.nodup, fun fuel hfuel => bind_of_ok hmin ?_⟩
  have hlength : ((y :: rest).map Prod.fst).length < fuel := by rwa [List.length_map]
  exact traverseFrom_eq htree.holds hs (a := []) hnodes hlength

variable {op : Op} {st : NodeMemory × Rbtree} {xs ys zs : List (ℕ × ℕ)}

theorem register_perm (op : Op) (h : xs.Perm ys) : (Op.register op xs).Perm (Op.register op ys) := by
  cases op with
  | insert z key => exact h.append_right [(z, key)]
  | delete z => exact h.filter _

theorem apply_perm_register (less : ℕ → ℕ → Bool) (op : Op) (xs : List (ℕ × ℕ)) :
    (op.apply less xs).Perm (Op.register op xs) := by
  cases op with
  | insert z key =>
    have hsplit := List.filter_append_perm (fun x : ℕ × ℕ => less key x.2) xs
    have hmoved := List.perm_middle.trans ((List.perm_append_comm.trans hsplit).cons (z, key))
    exact hmoved.trans (List.perm_append_singleton (z, key) xs).symm
  | delete z => exact List.Perm.refl _

/-- Which calls are allowed does not depend on the order of the nodes. -/
theorem allowed_perm (h : xs.Perm ys) : op.Allowed top s xs ↔ op.Allowed top s ys := by
  have hmem (z : ℕ) : z ∈ xs.map Prod.fst ↔ z ∈ ys.map Prod.fst := (h.map Prod.fst).mem_iff
  cases op with
  | insert z key => exact and_congr_right' (and_congr_right' (and_congr_right' (not_congr (hmem z))))
  | delete z => exact hmem z

/-- A call for any comparison; with an ascending sequence the new one is known. -/
theorem step_any (op : Op) (h : Represents less top s st xs) (hallowed : op.Allowed top s xs) :
    ∃ st' xs', step op st = Except.ok st' ∧ Represents less top s st' xs' ∧
      xs'.Perm (Op.register op xs) ∧ (Ready less top s op xs → xs' = op.apply less xs) := by
  cases op with
  | insert z key =>
    obtain ⟨st', l, r, hstep, rfl, hst', hplace⟩ := step_insert_any h hallowed
    refine ⟨st', l ++ (z, key) :: r, hstep, hst', ?_, ?_⟩
    · exact List.perm_middle.trans (List.perm_append_singleton (z, key) (l ++ r)).symm
    · rintro ⟨-, hasc⟩
      obtain ⟨hlow, hhigh⟩ := hplace hasc
      exact (apply_insert hlow hhigh).symm
  | delete z =>
    obtain ⟨st', hstep, hst'⟩ := step_delete h hallowed
    exact ⟨st', _, hstep, hst', List.Perm.refl _, fun _ => rfl⟩

/-- Calls for any comparison: the tree holds the nodes that were inserted and
not deleted, in some order. -/
theorem run_any (ops : List Op) (h : Represents less top s st xs) (hys : xs.Perm ys)
    (hzs : xs.Perm zs) (hops : Along less (Op.Allowed top s) ops zs) :
    ∃ st' xs', run ops st = Except.ok st' ∧ Represents less top s st' xs' ∧
      xs'.Perm (ops.foldl (fun ys op => Op.register op ys) ys) ∧
      (xs = zs → Along less (Ready less top s) ops zs →
        xs' = ops.foldl (fun zs op => op.apply less zs) zs) := by
  induction ops generalizing st xs ys zs with
  | nil => exact ⟨st, xs, rfl, h, hys, fun heq _ => heq⟩
  | cons op ops ih =>
    obtain ⟨hallowed, hrest⟩ := hops
    obtain ⟨st₁, xs₁, hstep, h₁, hperm, happly⟩ := step_any op h ((allowed_perm hzs).mpr hallowed)
    have hys₁ := hperm.trans (register_perm op hys)
    have hzs₁ := (hperm.trans (register_perm op hzs)).trans (apply_perm_register less op zs).symm
    obtain ⟨st', xs', hrun, h', hperm', hfold⟩ := ih h₁ hys₁ hzs₁ hrest
    refine ⟨st', xs', bind_of_ok hstep hrun, h', hperm', ?_⟩
    rintro rfl ⟨hready, hreadies⟩
    exact hfold (happly hready) hreadies

end

/-- After any calls that leave a node in the tree, the traversal visits each of
these nodes once, in order, whatever the comparison. That is the order of the
keys for values, and for timers that of every window that has them all. -/
theorem traversal_contract {less : ℕ → ℕ → Bool} {m₀ m : NodeMemory} {s : ℕ} {tree : Rbtree}
    (hinit : rbtreeInit m₀ s (insertBelow less) = Except.ok (m, tree)) (ops : List Op)
    (hops : Along less (Op.Allowed m.top s) ops []) (hne : pending ops ≠ []) :
    ∃ st xs, run ops (m, tree) = Except.ok st ∧ Represents less m.top s st xs ∧
      xs.Perm (pending ops) ∧ Visits st xs ∧ (less = valueLess → Sorted xs) ∧
      (less = timerLess → Along timerLess (TimerAllowed m.top s) ops [] →
        TimerQueue xs (pending ops)) := by
  have hempty : Represents less m.top s (m, tree) [] := init_represents hinit
  obtain ⟨st, xs, hrun, hst, hperm, hfold⟩ :=
    run_any ops hempty (List.Perm.refl []) (List.Perm.refl []) hops
  have hxs : xs ≠ [] := by
    rintro rfl
    exact hne (List.nil_perm.mp hperm)
  refine ⟨st, xs, hrun, hst, hperm, represents_visits hst hxs, ?_, ?_⟩
  · rintro rfl
    obtain ⟨hready, hsorted⟩ := along_values ops hops
    rw [hfold rfl hready]
    exact hsorted
  · rintro rfl htimers
    have horder : TimerOrder [] [] := ⟨⟨0, by simp [InWindow]⟩, List.Pairwise.nil, fun _ => rfl⟩
    obtain ⟨hready, hend⟩ := along_timers ops horder htimers
    rw [hfold rfl hready]
    exact hend.queue

theorem traversal_contract_duplicates : ∃ st xs,
    run [.insert 2 5, .insert 3 5, .insert 4 1, .insert 5 7, .delete 2]
      (blankMemory.setColor 1 .black, ⟨1, 1, rbtreeInsertValue⟩) = Except.ok st ∧
    Represents valueLess 8 1 st xs ∧ xs.Perm [(3, 5), (4, 1), (5, 7)] ∧ Visits st xs ∧ Sorted xs := by
  have hinit : rbtreeInit blankMemory 1 (insertBelow valueLess) =
      Except.ok (blankMemory.setColor 1 .black, ⟨1, 1, rbtreeInsertValue⟩) := rfl
  obtain ⟨st, xs, hrun, hst, hperm, hvisits, hsorted, -⟩ := traversal_contract hinit
    [.insert 2 5, .insert 3 5, .insert 4 1, .insert 5 7, .delete 2]
    ⟨by decide, by decide, by decide, by decide, by decide, trivial⟩ (by decide)
  exact ⟨st, xs, hrun, hst, hperm, hvisits, hsorted rfl⟩

/-- In an emptied tree the search for the first node reads through NULL. -/
theorem emptied_tree_undefined : ∃ st,
    run [.insert 2 5, .delete 2]
      (blankMemory.setColor 1 .black, ⟨1, 1, rbtreeInsertValue⟩) = Except.ok st ∧
    st.2.root = st.2.sentinel ∧
    rbtreeMin st.1 st.2.sentinel st.1.top st.2.root = undefined ∧ ¬ Visits st [] := by
  refine ⟨_, rfl, rfl, rfl, ?_⟩
  intro hvisits
  have htraverse := hvisits.visited 1 (by decide)
  cases htraverse

end HCore.RbtreeTraversal
