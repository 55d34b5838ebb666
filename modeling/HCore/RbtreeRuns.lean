import HCore.RbtreeErase

/-!
The red-black tree over whole sequences of calls. The calls give a sequence of
nodes with their keys: an inserted node comes behind all nodes that its key is
not less than, and a deleted one goes. The tree holds this sequence in order.
-/

namespace HCore.RbtreeRuns

open Machine BalancedTrees RbtreeModel RbtreeLinks RbtreeInsert RbtreeErase

/-- A call; the caller sets the key of a node before it is inserted. -/
inductive Op
  | insert (z key : ℕ)
  | delete (z : ℕ)
  deriving DecidableEq, Repr

def step : Op → NodeMemory × Rbtree → Exec (NodeMemory × Rbtree)
  | .insert z key, (m, tree) => do
    let m ← m.storeKey z key
    rbtreeInsert m tree z
  | .delete z, (m, tree) => rbtreeDelete m tree z

def run : List Op → NodeMemory × Rbtree → Exec (NodeMemory × Rbtree)
  | [], s => pure s
  | op :: ops, s => do
    let s ← step op s
    run ops s

/-- What a call makes of the sequence of nodes with their keys. -/
def Op.apply (less : ℕ → ℕ → Bool) : Op → List (ℕ × ℕ) → List (ℕ × ℕ)
  | .insert z key, xs => xs.filter (fun x => !less key x.2) ++ (z, key) :: xs.filter fun x => less key x.2
  | .delete z, xs => xs.filter fun x => x.1 ≠ z

def contents (less : ℕ → ℕ → Bool) (ops : List Op) : List (ℕ × ℕ) :=
  ops.foldl (fun xs op => op.apply less xs) []

/-- A node is inserted when it is not in the tree, and deleted when it is. -/
def Op.Allowed (top s : ℕ) : Op → List (ℕ × ℕ) → Prop
  | .insert z _, xs => 0 < z ∧ z < top ∧ z ≠ s ∧ z ∉ xs.map Prod.fst
  | .delete z, xs => z ∈ xs.map Prod.fst

instance (top s : ℕ) (op : Op) (xs : List (ℕ × ℕ)) : Decidable (op.Allowed top s xs) := by
  cases op
  · exact inferInstanceAs (Decidable (_ ∧ _ ∧ _ ∧ _))
  · exact inferInstanceAs (Decidable (_ ∈ _))

/-- Every call of the sequence meets `P` when its turn comes. -/
def Along (less : ℕ → ℕ → Bool) (P : Op → List (ℕ × ℕ) → Prop) : List Op → List (ℕ × ℕ) → Prop
  | [], _ => True
  | op :: ops, xs => P op xs ∧ Along less P ops (op.apply less xs)

/-- Along the sequence, once the key is less than another it stays so. -/
def Ascends (less : ℕ → ℕ → Bool) (key : ℕ) (xs : List (ℕ × ℕ)) : Prop :=
  xs.Pairwise fun x y => less key x.2 = true → less key y.2 = true

/-- The tree is a valid red-black tree that holds the sequence in order. -/
structure Represents (less : ℕ → ℕ → Bool) (top s : ℕ) (st : NodeMemory × Rbtree)
    (xs : List (ℕ × ℕ)) : Prop where
  tree : ∃ t, RedBlack st.1 s st.2.root t ∧ t.nodes.map (fun n => (n, st.1.key n)) = xs
  sentinel : st.2.sentinel = s
  insert : st.2.insert = insertBelow less
  top_eq : st.1.top = top

section

variable {less : ℕ → ℕ → Bool} {top s : ℕ} {m : NodeMemory} {st : NodeMemory × Rbtree}
  {xs : List (ℕ × ℕ)}

/-- A key can be set in a node outside the tree. -/
theorem RedBlack.setKey {root : ℕ} {t : BalancedTrees.Tree ℕ} (h : RedBlack m s root t)
    (z key : ℕ) :
    RedBlack (m.setKey z key) s root t := by
  refine ⟨⟨?_, h.holds.root_eq, h.holds.nodup, h.holds.bound, h.holds.sentinel, h.holds.black⟩,
    h.balanced, h.color⟩
  exact h.holds.linked.congr h.holds.nodup (fun _ _ => rfl) (fun _ _ _ => rfl) fun _ _ _ => rfl

theorem map_setKey {z key : ℕ} {nodes : List ℕ} (hz : z ∉ nodes) :
    nodes.map (fun n => (n, (m.setKey z key).key n)) = nodes.map fun n => (n, m.key n) := by
  refine List.map_congr_left fun n hn => ?_
  have hne : n ≠ z := fun heq => hz (heq ▸ hn)
  exact congrArg (Prod.mk n) (if_neg hne)

/-- Where a node comes in an ascending sequence. -/
theorem apply_insert {z key : ℕ} {l r : List (ℕ × ℕ)} (hl : ∀ x ∈ l, less key x.2 = false)
    (hr : ∀ x ∈ r, less key x.2 = true) :
    (Op.insert z key).apply less (l ++ r) = l ++ (z, key) :: r := by
  have hll : l.filter (fun x => !less key x.2) = l := List.filter_eq_self.mpr fun x hx => by simp [hl x hx]
  have hlr : l.filter (fun x => less key x.2) = [] := List.filter_eq_nil_iff.mpr fun x hx => by simp [hl x hx]
  have hrl : r.filter (fun x => !less key x.2) = [] := List.filter_eq_nil_iff.mpr fun x hx => by simp [hr x hx]
  have hrr : r.filter (fun x => less key x.2) = r := List.filter_eq_self.mpr fun x hx => by simp [hr x hx]
  simp only [Op.apply, List.filter_append, hll, hlr, hrl, hrr, List.append_nil, List.nil_append]

/-- An insertion by any comparison puts the node somewhere into the sequence,
and at the place of its key where the sequence ascends for it. -/
theorem step_insert_any {z key : ℕ} (h : Represents less top s st xs)
    (hallowed : (Op.insert z key).Allowed top s xs) :
    ∃ st' l r, step (.insert z key) st = Except.ok st' ∧ xs = l ++ r ∧
      Represents less top s st' (l ++ (z, key) :: r) ∧
      (Ascends less key xs →
        (∀ x ∈ l, less key x.2 = false) ∧ ∀ x ∈ r, less key x.2 = true) := by
  obtain ⟨hz, htop, hzs, hnew⟩ := hallowed
  obtain ⟨⟨t, htree, rfl⟩, hsentinel, hinsert, htop_eq⟩ := h
  obtain ⟨m, root, sentinel, insert⟩ := st
  obtain rfl : sentinel = s := hsentinel
  obtain rfl : insert = insertBelow less := hinsert
  obtain rfl : m.top = top := htop_eq
  have hout : z ∉ t.nodes := by
    intro hmem
    refine hnew (List.mem_map.mpr ⟨(z, m.key z), ?_, rfl⟩)
    exact List.mem_map.mpr ⟨z, hmem, rfl⟩
  have hkeyz : (m.setKey z key).key z = key := if_pos rfl
  obtain ⟨m', root', t', hrun, htree', hadded⟩ :=
    RedBlack.insert_any less (RedBlack.setKey htree z key) hz htop hzs hout
  obtain ⟨l, r, hnodes, hnodes', hplace⟩ := hadded.place
  rw [hkeyz] at hplace
  refine ⟨(m', ⟨root', sentinel, insertBelow less⟩),
    l.map (fun n => (n, (m.setKey z key).key n)), r.map (fun n => (n, (m.setKey z key).key n)),
    ?_, ?_, ⟨⟨t', htree', ?_⟩, rfl, rfl, hadded.top⟩, ?_⟩
  · exact bind_of_ok (if_neg hz.ne') hrun
  · rw [← List.map_append, ← hnodes, map_setKey hout]
  · rw [hadded.key, hnodes', List.map_append, List.map_cons, hkeyz]
  · intro hasc
    have hsep : Separates less (m.setKey z key) key t.nodes := by
      have hpairs := List.pairwise_map.mp hasc
      refine hpairs.imp_of_mem ?_
      intro x y hx hy hxy hless
      have hkeyx : (m.setKey z key).key x = m.key x := if_neg fun heq : x = z => hout (heq ▸ hx)
      have hkeyy : (m.setKey z key).key y = m.key y := if_neg fun heq : y = z => hout (heq ▸ hy)
      rw [hkeyx] at hless
      rw [hkeyy]
      exact hxy hless
    obtain ⟨hlow, hhigh⟩ := hplace hsep
    constructor
    · intro x hx
      obtain ⟨n, hn, rfl⟩ := List.mem_map.mp hx
      exact hlow n hn
    · intro x hx
      obtain ⟨n, hn, rfl⟩ := List.mem_map.mp hx
      exact hhigh n hn

theorem step_insert {z key : ℕ} (h : Represents less top s st xs)
    (hallowed : (Op.insert z key).Allowed top s xs) (hasc : Ascends less key xs) :
    ∃ st', step (.insert z key) st = Except.ok st' ∧
      Represents less top s st' ((Op.insert z key).apply less xs) := by
  obtain ⟨st', l, r, hstep, rfl, hst', hplace⟩ := step_insert_any h hallowed
  obtain ⟨hlow, hhigh⟩ := hplace hasc
  rw [apply_insert hlow hhigh]
  exact ⟨st', hstep, hst'⟩

theorem step_delete {z : ℕ} (h : Represents less top s st xs)
    (hallowed : (Op.delete z).Allowed top s xs) :
    ∃ st', step (.delete z) st = Except.ok st' ∧
      Represents less top s st' ((Op.delete z).apply less xs) := by
  obtain ⟨⟨t, htree, rfl⟩, hsentinel, hinsert, htop_eq⟩ := h
  obtain ⟨m, root, sentinel, insert⟩ := st
  obtain rfl : sentinel = s := hsentinel
  obtain rfl : insert = insertBelow less := hinsert
  obtain rfl : m.top = top := htop_eq
  have hz : z ∈ t.nodes := by
    obtain ⟨x, hx, rfl⟩ := List.mem_map.mp hallowed
    obtain ⟨n, hn, rfl⟩ := List.mem_map.mp hx
    exact hn
  obtain ⟨m', root', t', hrun, htree', hdeleted⟩ := RedBlack.delete htree hz (insertBelow less)
  refine ⟨(m', ⟨root', sentinel, insertBelow less⟩), hrun, ⟨t', htree', ?_⟩, rfl, rfl, hdeleted.top⟩
  have hfilter : t'.nodes = t.nodes.filter fun n => n ≠ z := by
    rw [hdeleted.nodes_eq, htree.holds.nodup.erase_eq_filter]
    refine List.filter_congr fun n _ => ?_
    by_cases heq : n = z <;> simp [heq]
  have hkeys : t'.nodes.map (fun n => (n, m'.key n)) = t'.nodes.map fun n => (n, m.key n) := by
    refine List.map_congr_left fun n hn => ?_
    have hne : n ≠ z := by
      rw [hfilter] at hn
      simpa using (List.mem_filter.mp hn).2
    rw [hdeleted.key n hne]
  rw [hkeys, hfilter, Op.apply, List.filter_map]
  rfl

/-- What the tree needs of a call: the sequence is in order for its key. -/
def Ready (less : ℕ → ℕ → Bool) (top s : ℕ) : Op → List (ℕ × ℕ) → Prop
  | .insert z key, xs => (Op.insert z key).Allowed top s xs ∧ Ascends less key xs
  | .delete z, xs => (Op.delete z).Allowed top s xs

theorem step_represents (op : Op) (h : Represents less top s st xs) (hready : Ready less top s op xs) :
    ∃ st', step op st = Except.ok st' ∧ Represents less top s st' (op.apply less xs) := by
  cases op with
  | insert z key => exact step_insert h hready.1 hready.2
  | delete z => exact step_delete h hready

theorem run_represents (ops : List Op) (h : Represents less top s st xs)
    (hready : Along less (Ready less top s) ops xs) :
    ∃ st', run ops st = Except.ok st' ∧
      Represents less top s st' (ops.foldl (fun xs op => op.apply less xs) xs) := by
  induction ops generalizing st xs with
  | nil => exact ⟨st, rfl, h⟩
  | cons op ops ih =>
    obtain ⟨hop, hops⟩ := hready
    obtain ⟨st1, hstep, h1⟩ := step_represents op h hop
    obtain ⟨st', hrun, h'⟩ := ih h1 hops
    exact ⟨st', bind_of_ok hstep hrun, h'⟩

/-- An invariant of the sequence turns one condition on the calls into another. -/
theorem along_of_invariant {I : List (ℕ × ℕ) → Prop} {P Q : Op → List (ℕ × ℕ) → Prop}
    (hstep : ∀ op xs, I xs → P op xs → I (op.apply less xs) ∧ Q op xs) (ops : List Op) (h : I xs)
    (hops : Along less P ops xs) :
    Along less Q ops xs ∧ I (ops.foldl (fun xs op => op.apply less xs) xs) := by
  induction ops generalizing xs with
  | nil => exact ⟨trivial, h⟩
  | cons op ops ih =>
    obtain ⟨hop, hops⟩ := hops
    obtain ⟨hnext, hq⟩ := hstep op xs h hop
    obtain ⟨halong, hend⟩ := ih hnext hops
    exact ⟨⟨hq, halong⟩, hend⟩

/-- The tree after its initialization is empty. -/
theorem init_represents {m₀ : NodeMemory} {tree : Rbtree}
    (hinit : rbtreeInit m₀ s (insertBelow less) = Except.ok (m, tree)) :
    Represents less m.top s (m, tree) [] := by
  obtain ⟨m1, hstore, hrest⟩ := bind_eq_ok.mp hinit
  by_cases hs : s = 0
  · rw [NodeMemory.storeColor, if_pos hs] at hstore
    cases hstore
  · rw [storeColor_of_ne hs] at hstore
    cases hstore
    cases hrest
    refine ⟨⟨.nil, ⟨⟨trivial, rfl, List.nodup_nil, ?_, Nat.pos_of_ne_zero hs, if_pos rfl⟩,
      ⟨0, .nil⟩, rfl⟩, rfl⟩, rfl, rfl, rfl⟩
    intro x hx
    cases hx

end

section

variable {top s : ℕ} {m m₀ : NodeMemory} {tree : Rbtree} {xs : List (ℕ × ℕ)}

/-- The comparison of `hcore_rbtree_insert_value`. -/
def valueLess (k k' : ℕ) : Bool := decide (k < k')

def Sorted (xs : List (ℕ × ℕ)) : Prop := xs.Pairwise fun x y => x.2 ≤ y.2

theorem Sorted.ascends (h : Sorted xs) (key : ℕ) : Ascends valueLess key xs := by
  refine List.Pairwise.imp ?_ h
  intro x y hxy hless
  exact decide_eq_true ((of_decide_eq_true hless).trans_le hxy)

theorem Sorted.apply (h : Sorted xs) (op : Op) : Sorted (op.apply valueLess xs) := by
  cases op with
  | insert z key =>
    refine List.pairwise_append.mpr ⟨h.filter _, List.pairwise_cons.mpr ⟨?_, h.filter _⟩, ?_⟩
    · intro y hy
      exact (of_decide_eq_true (List.mem_filter.mp hy).2).le
    · intro x hx y hy
      have hxkey : x.2 ≤ key := by simpa [valueLess] using (List.mem_filter.mp hx).2
      rcases List.mem_cons.mp hy with rfl | hy
      · exact hxkey
      · exact hxkey.trans (of_decide_eq_true (List.mem_filter.mp hy).2).le
  | delete z => exact h.filter _

/-- Along the calls the sequence is sorted, and the tree can make them. -/
theorem along_values (ops : List Op) (hops : Along valueLess (Op.Allowed top s) ops []) :
    Along valueLess (Ready valueLess top s) ops [] ∧ Sorted (contents valueLess ops) := by
  refine along_of_invariant ?_ ops List.Pairwise.nil hops
  intro op xs hsorted hallowed
  refine ⟨hsorted.apply op, ?_⟩
  cases op with
  | insert z key => exact ⟨hallowed, hsorted.ascends key⟩
  | delete z => exact hallowed

/-- From its initialization on, the tree is a valid red-black tree that holds
the nodes in the order that the calls give, by their keys. -/
theorem rbtree_contract (hinit : rbtreeInit m₀ s rbtreeInsertValue = Except.ok (m, tree))
    (ops : List Op) (hops : Along valueLess (Op.Allowed m.top s) ops []) :
    ∃ st, run ops (m, tree) = Except.ok st ∧
      Represents valueLess m.top s st (contents valueLess ops) ∧ Sorted (contents valueLess ops) := by
  have hempty : Represents valueLess m.top s (m, tree) [] := init_represents hinit
  obtain ⟨hready, hsorted⟩ := along_values ops hops
  obtain ⟨st, hrun, hst⟩ := run_represents ops hempty hready
  exact ⟨st, hrun, hst, hsorted⟩

/-- Eight addresses, the sentinel at 1. -/
def blankMemory : NodeMemory := ⟨8, fun _ => 0, fun _ _ => 0, fun _ => 0, fun _ => .red⟩

theorem rbtree_contract_duplicates : ∃ st,
    run [.insert 2 5, .insert 3 5, .insert 4 1, .insert 5 7, .delete 2]
      (blankMemory.setColor 1 .black, ⟨1, 1, rbtreeInsertValue⟩) = Except.ok st ∧
    Represents valueLess 8 1 st [(4, 1), (3, 5), (5, 7)] := by
  have hinit : rbtreeInit blankMemory 1 rbtreeInsertValue =
      Except.ok (blankMemory.setColor 1 .black, ⟨1, 1, rbtreeInsertValue⟩) := rfl
  obtain ⟨st, hrun, hst, -⟩ := rbtree_contract hinit
    [.insert 2 5, .insert 3 5, .insert 4 1, .insert 5 7, .delete 2]
    ⟨by decide, by decide, by decide, by decide, by decide, trivial⟩
  exact ⟨st, hrun, hst⟩

end

end HCore.RbtreeRuns
