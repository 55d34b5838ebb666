import HCore.RbtreeRuns
import Mathlib.Data.List.Perm.Basic

/-!
The tree of timers. Keys are 32-bit times that wrap around, and their signed
difference orders them as long as all keys in the tree lie in one window of
less than half the range. The window may move while timers come and go.
-/

namespace HCore.RbtreeTimers

open Machine BalancedTrees RbtreeModel RbtreeLinks RbtreeInsert RbtreeSplice RbtreeRuns

/-- How far a key lies behind the start of a window. -/
def offset (w k : ℕ) : ℕ := toUInt32 ((k : ℤ) - w)

/-- All keys lie in the window of length `2 ^ 31` from `w` on. -/
def InWindow (w : ℕ) (xs : List (ℕ × ℕ)) : Prop := ∀ x ∈ xs, offset w x.2 < 2 ^ 31

instance (w : ℕ) (xs : List (ℕ × ℕ)) : Decidable (InWindow w xs) :=
  inferInstanceAs (Decidable (∀ x ∈ xs, _))

/-- The order of the window. -/
def InOrder (w : ℕ) (xs : List (ℕ × ℕ)) : Prop :=
  xs.Pairwise fun x y => offset w x.2 ≤ offset w y.2

/-- What a call makes of the timers in the order of their insertion. -/
def Op.register : Op → List (ℕ × ℕ) → List (ℕ × ℕ)
  | .insert z key, xs => xs ++ [(z, key)]
  | .delete z, xs => xs.filter fun x => x.1 ≠ z

/-- The timers in the order of their insertion. -/
def pending (ops : List Op) : List (ℕ × ℕ) := ops.foldl (fun xs op => Op.register op xs) []

/-- A timer is a new node with a 32-bit key, and fits a window with those in
the tree. -/
def TimerAllowed (top s : ℕ) (op : Op) (xs : List (ℕ × ℕ)) : Prop :=
  op.Allowed top s xs ∧ ∀ z key, op = .insert z key →
    key < 2 ^ 32 ∧ ∃ w, InWindow w ((z, key) :: xs)

section

variable {w k k' : ℕ} {xs ys : List (ℕ × ℕ)}

theorem timerLess_iff (hk : offset w k < 2 ^ 31) (hk' : offset w k' < 2 ^ 31) :
    timerLess k k' = true ↔ offset w k < offset w k' := by
  unfold timerLess offset toUInt32 toInt32 at *
  rw [decide_eq_true_iff, Int.bmod_def]
  split <;> omega

theorem timerLess_self (k : ℕ) : timerLess k k = false := by
  have hzero : toUInt32 ((k : ℤ) - k) = 0 := by
    rw [Int.sub_self]
    rfl
  unfold timerLess
  rw [hzero]
  rfl

/-- Any two windows order the keys of the tree alike. -/
theorem inOrder_iff (h : InWindow w xs) :
    InOrder w xs ↔ xs.Pairwise fun x y => timerLess y.2 x.2 = false := by
  refine List.Pairwise.iff_of_mem ?_
  intro x y hx hy
  rw [← Bool.not_eq_true, timerLess_iff (h y hy) (h x hx), Nat.not_lt]

/-- The invariant of the sequence of timers. -/
structure TimerOrder (xs ys : List (ℕ × ℕ)) : Prop where
  window : ∃ w, InWindow w xs
  sorted : xs.Pairwise fun x y => timerLess y.2 x.2 = false
  stable : ∀ k, xs.filter (fun x => x.2 = k) = ys.filter fun x => x.2 = k

theorem filter_key_insert {less : ℕ → ℕ → Bool} (hirr : ∀ k, less k k = false) (z key k : ℕ)
    (xs : List (ℕ × ℕ)) :
    ((Op.insert z key).apply less xs).filter (fun x => x.2 = k) =
      (xs ++ [(z, key)]).filter fun x => x.2 = k := by
  have hside (b : Bool) : (xs.filter fun x => less key x.2 = b).filter (fun x => x.2 = k) =
      if less key k = b then xs.filter (fun x => x.2 = k) else [] := by
    rw [List.filter_filter]
    split
    · next hb =>
      refine List.filter_congr fun x _ => ?_
      by_cases hx : x.2 = k <;> simp [hx, hb]
    · next hb =>
      refine List.filter_eq_nil_iff.mpr fun x _ => ?_
      by_cases hx : x.2 = k <;> simp [hx, hb]
  have hleft := hside false
  have hright := hside true
  simp only [Bool.decide_eq_false, Bool.decide_eq_true] at hleft hright
  rw [Op.apply, List.filter_append, List.filter_cons, hleft, hright, List.filter_append]
  by_cases hkey : key = k
  · subst hkey
    simp [hirr]
  · cases hless : less key k <;> simp [hkey]

/-- The sequence of a call is that of the insertions, sorted by key. -/
theorem filter_key_apply {less : ℕ → ℕ → Bool} (hirr : ∀ k, less k k = false) (op : Op)
    (h : ∀ k, xs.filter (fun x => x.2 = k) = ys.filter fun x => x.2 = k) (k : ℕ) :
    (op.apply less xs).filter (fun x => x.2 = k) = (Op.register op ys).filter fun x => x.2 = k := by
  cases op with
  | insert z key =>
    rw [filter_key_insert hirr, Op.register, List.filter_append, List.filter_append, h k]
  | delete z =>
    rw [Op.apply, Op.register, List.filter_comm, h k, List.filter_comm]

/-- Sequences that agree on every key hold the same timers. -/
theorem TimerOrder.perm (h : TimerOrder xs ys) : xs.Perm ys := by
  refine List.perm_iff_count.mpr fun x => ?_
  have hcount (l : List (ℕ × ℕ)) : l.count x = (l.filter fun y => y.2 = x.2).count x :=
    (List.count_filter (by simp)).symm
  rw [hcount xs, hcount ys, h.stable]

theorem inWindow_apply {op : Op} (h : InWindow w xs)
    (hop : ∀ z key, op = .insert z key → InWindow w ((z, key) :: xs)) :
    InWindow w (op.apply timerLess xs) := by
  cases op with
  | insert z key =>
    have hnew := hop z key rfl (z, key) (List.mem_cons_self ..)
    intro x hx
    rcases List.mem_append.mp hx with hx | hx
    · exact h x (List.mem_filter.mp hx).1
    · rcases List.mem_cons.mp hx with rfl | hx
      · exact hnew
      · exact h x (List.mem_filter.mp hx).1
  | delete z => exact fun x hx => h x (List.mem_filter.mp hx).1

theorem inOrder_insert {z key : ℕ} (h : InOrder w xs) (hw : InWindow w ((z, key) :: xs)) :
    InOrder w ((Op.insert z key).apply timerLess xs) := by
  have hkey := hw (z, key) (List.mem_cons_self ..)
  have hless {x : ℕ × ℕ} (hx : x ∈ xs) :
      timerLess key x.2 = true ↔ offset w key < offset w x.2 :=
    timerLess_iff hkey (hw x (List.mem_cons_of_mem _ hx))
  have hlow : ∀ x ∈ xs.filter (fun x => !timerLess key x.2), offset w x.2 ≤ offset w key := by
    intro x hx
    obtain ⟨hx, hkeep⟩ := List.mem_filter.mp hx
    rw [Bool.not_eq_true', ← Bool.not_eq_true, hless hx] at hkeep
    exact Nat.not_lt.mp hkeep
  have hhigh : ∀ x ∈ xs.filter (fun x => timerLess key x.2), offset w key ≤ offset w x.2 := by
    intro x hx
    obtain ⟨hx, hkeep⟩ := List.mem_filter.mp hx
    exact ((hless hx).mp hkeep).le
  refine List.pairwise_append.mpr ⟨h.filter _, List.pairwise_cons.mpr ⟨hhigh, h.filter _⟩, ?_⟩
  intro x hx y hy
  rcases List.mem_cons.mp hy with rfl | hy
  · exact hlow x hx
  · exact (hlow x hx).trans (hhigh y hy)

/-- One call keeps the order, and the tree can make it. -/
theorem TimerOrder.step {top s : ℕ} (h : TimerOrder xs ys) (op : Op)
    (hop : TimerAllowed top s op xs) :
    TimerOrder (op.apply timerLess xs) (Op.register op ys) ∧ Ready timerLess top s op xs := by
  obtain ⟨hallowed, hwindow⟩ := hop
  have hstable := filter_key_apply timerLess_self op h.stable
  cases op with
  | insert z key =>
    obtain ⟨-, w, hw⟩ := hwindow z key rfl
    have hxs : InWindow w xs := fun x hx => hw x (List.mem_cons_of_mem _ hx)
    have hsorted : InOrder w xs := (inOrder_iff hxs).mpr h.sorted
    have hnext : InWindow w ((Op.insert z key).apply timerLess xs) := by
      refine inWindow_apply hxs ?_
      rintro _ _ ⟨⟩
      exact hw
    refine ⟨⟨⟨w, hnext⟩, (inOrder_iff hnext).mp (inOrder_insert hsorted hw), hstable⟩, hallowed, ?_⟩
    have hkey := hw (z, key) (List.mem_cons_self ..)
    refine hsorted.imp_of_mem ?_
    intro x y hx hy hxy hless
    rw [timerLess_iff hkey (hxs x hx)] at hless
    rw [timerLess_iff hkey (hxs y hy)]
    exact hless.trans_le hxy
  | delete z =>
    obtain ⟨w, hw⟩ := h.window
    refine ⟨⟨⟨w, inWindow_apply hw (by simp)⟩, h.sorted.filter _, hstable⟩, hallowed⟩

/-- Along the calls the tree keeps the order of the timers. -/
theorem along_timers {top s : ℕ} (ops : List Op) (h : TimerOrder xs ys)
    (hops : Along timerLess (TimerAllowed top s) ops xs) :
    Along timerLess (Ready timerLess top s) ops xs ∧
      TimerOrder (ops.foldl (fun xs op => op.apply timerLess xs) xs)
        (ops.foldl (fun ys op => Op.register op ys) ys) := by
  induction ops generalizing xs ys with
  | nil => exact ⟨trivial, h⟩
  | cons op ops ih =>
    obtain ⟨hop, hops⟩ := hops
    obtain ⟨hnext, hready⟩ := h.step op hop
    obtain ⟨halong, hend⟩ := ih hnext hops
    exact ⟨⟨hready, halong⟩, hend⟩

/-- `hcore_rbtree_min` finds the first node in order. -/
theorem rbtreeMin_head {less : ℕ → ℕ → Bool} {top s : ℕ} {st : NodeMemory × Rbtree} {x : ℕ × ℕ}
    (h : Represents less top s st (x :: xs)) :
    rbtreeMin st.1 st.2.sentinel st.1.top st.2.root = Except.ok x.1 := by
  obtain ⟨⟨t, htree, hxs⟩, hsentinel, -, -⟩ := h
  have hholds : Holds st.1 s st.2.root (plug [] t) := htree.holds
  have hne : t ≠ .nil := by
    rintro rfl
    cases hxs
  have hlength := Holds.length_lt hholds hne
  obtain ⟨path, c, y, r, hmin, hplug, hleft⟩ := rbtreeMin_loop st.1.top hholds hne hlength.le
  rw [hplug, plug_nodes, before_of_left hleft] at hxs
  have hhead : x = (y, st.1.key y) := by
    simp only [Tree.nodes, List.nil_append, List.cons_append, List.map_cons, List.cons.injEq] at hxs
    exact hxs.1.symm
  rw [hsentinel, ← htree.holds.root_eq, hmin, hhead]

end

/-- What the timers' sequence is: all that were inserted and not deleted, in
the order of every window that has them, those of one key as they came. -/
structure TimerQueue (xs ys : List (ℕ × ℕ)) : Prop where
  perm : xs.Perm ys
  window : ∃ w, InWindow w xs
  sorted : ∀ w, InWindow w xs → InOrder w xs
  stable : ∀ k, xs.filter (fun x => x.2 = k) = ys.filter fun x => x.2 = k

theorem TimerOrder.queue {xs ys : List (ℕ × ℕ)} (h : TimerOrder xs ys) : TimerQueue xs ys :=
  ⟨h.perm, h.window, fun _ hw => (inOrder_iff hw).mpr h.sorted, h.stable⟩

/-- No timer is earlier, in any window that has them all. -/
def Earliest (x : ℕ × ℕ) (xs : List (ℕ × ℕ)) : Prop :=
  ∀ w, InWindow w xs → ∀ y ∈ xs, offset w x.2 ≤ offset w y.2

/-- The tree holds the timers in order, and its first node is the earliest. -/
theorem timer_contract {m₀ m : NodeMemory} {s : ℕ} {tree : Rbtree}
    (hinit : rbtreeInit m₀ s rbtreeInsertTimerValue = Except.ok (m, tree)) (ops : List Op)
    (hops : Along timerLess (TimerAllowed m.top s) ops []) :
    ∃ st, run ops (m, tree) = Except.ok st ∧
      Represents timerLess m.top s st (contents timerLess ops) ∧
      TimerQueue (contents timerLess ops) (pending ops) ∧
      ∀ x rest, contents timerLess ops = x :: rest →
        rbtreeMin st.1 st.2.sentinel st.1.top st.2.root = Except.ok x.1 ∧
          Earliest x (contents timerLess ops) := by
  have hempty : Represents timerLess m.top s (m, tree) [] := init_represents hinit
  have horder : TimerOrder [] [] := ⟨⟨0, by simp [InWindow]⟩, List.Pairwise.nil, fun _ => rfl⟩
  obtain ⟨hready, hend⟩ : _ ∧ TimerOrder (contents timerLess ops) (pending ops) :=
    along_timers ops horder hops
  obtain ⟨st, hrun, hst⟩ : ∃ st, run ops (m, tree) = Except.ok st ∧
      Represents timerLess m.top s st (contents timerLess ops) := run_represents ops hempty hready
  have hsorted := hend.queue.sorted
  refine ⟨st, hrun, hst, hend.queue, ?_⟩
  intro x rest hxs
  rw [hxs] at hst hsorted ⊢
  refine ⟨rbtreeMin_head hst, fun w hw y hy => ?_⟩
  rcases List.mem_cons.mp hy with rfl | hy
  · exact le_refl _
  · exact (List.pairwise_cons.mp (hsorted w hw)).1 y hy

/-- The window crosses zero, and moves on once the first timers are gone. -/
theorem timer_contract_wrap : ∃ st,
    run [.insert 2 4294967290, .insert 3 5, .insert 4 4294967290, .delete 2, .delete 4,
        .insert 5 2147483652, .insert 6 5]
      (blankMemory.setColor 1 .black, ⟨1, 1, rbtreeInsertTimerValue⟩) = Except.ok st ∧
    Represents timerLess 8 1 st [(3, 5), (6, 5), (5, 2147483652)] ∧
    rbtreeMin st.1 st.2.sentinel st.1.top st.2.root = Except.ok 3 := by
  have hinit : rbtreeInit blankMemory 1 rbtreeInsertTimerValue =
      Except.ok (blankMemory.setColor 1 .black, ⟨1, 1, rbtreeInsertTimerValue⟩) := rfl
  have hinsert {z key : ℕ} {xs : List (ℕ × ℕ)} (w : ℕ) (h : (Op.insert z key).Allowed 8 1 xs)
      (hkey : key < 2 ^ 32) (hw : InWindow w ((z, key) :: xs)) :
      TimerAllowed 8 1 (.insert z key) xs := by
    refine ⟨h, ?_⟩
    rintro _ _ ⟨⟩
    exact ⟨hkey, w, hw⟩
  have hdelete {z : ℕ} {xs : List (ℕ × ℕ)} (h : (Op.delete z).Allowed 8 1 xs) :
      TimerAllowed 8 1 (.delete z) xs := ⟨h, fun _ _ heq => by cases heq⟩
  have hops : Along timerLess (TimerAllowed 8 1) [.insert 2 4294967290, .insert 3 5,
      .insert 4 4294967290, .delete 2, .delete 4, .insert 5 2147483652, .insert 6 5] [] :=
    ⟨hinsert 4294967290 (by decide) (by decide) (by decide),
      hinsert 4294967290 (by decide) (by decide) (by decide),
      hinsert 4294967290 (by decide) (by decide) (by decide), hdelete (by decide),
      hdelete (by decide), hinsert 5 (by decide) (by decide) (by decide),
      hinsert 5 (by decide) (by decide) (by decide), trivial⟩
  obtain ⟨st, hrun, hst, -, hmin⟩ := timer_contract hinit _ hops
  exact ⟨st, hrun, hst, (hmin (3, 5) [(6, 5), (5, 2147483652)] (by decide)).1⟩

end HCore.RbtreeTimers
