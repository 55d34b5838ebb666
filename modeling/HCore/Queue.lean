import HCore.Machine
import HCore.Rings
import HCore.StableInsertion

/-!
Circular queues. The macros rewrite one link after the other and read again
what they have written; the middle is found by a pointer that goes two steps
where another goes one, and the sort takes each node out and puts it back in
front of all greater ones. Address 0 is NULL.
-/

namespace HCore.Queue

open Machine Rings StableInsertion

def loadNext (m : Links ℕ) (x : ℕ) : Exec ℕ := if x = 0 then undefined else pure (m.next x)

def loadPrev (m : Links ℕ) (x : ℕ) : Exec ℕ := if x = 0 then undefined else pure (m.prev x)

/-- `x->next = v` -/
def storeNext (m : Links ℕ) (x v : ℕ) : Exec (Links ℕ) :=
  if x = 0 then undefined else pure { m with next := Function.update m.next x v }

/-- `x->prev = v` -/
def storePrev (m : Links ℕ) (x v : ℕ) : Exec (Links ℕ) :=
  if x = 0 then undefined else pure { m with prev := Function.update m.prev x v }

def queueInsertAfter (m : Links ℕ) (h x : ℕ) : Exec (Links ℕ) := do
  let first ← loadNext m h
  let m ← storeNext m x first
  let first ← loadNext m x
  let m ← storePrev m first x
  let m ← storePrev m x h
  storeNext m h x

/-- A build with `_HCORE_DEBUG` sets the links of the node to NULL. -/
def queueRemove (debug : Bool) (m : Links ℕ) (x : ℕ) : Exec (Links ℕ) := do
  let next ← loadNext m x
  let prev ← loadPrev m x
  let m ← storePrev m next prev
  let prev ← loadPrev m x
  let next ← loadNext m x
  let m ← storeNext m prev next
  if debug then do
    let m ← storePrev m x 0
    storeNext m x 0
  else pure m

def queueSplit (m : Links ℕ) (h q n : ℕ) : Exec (Links ℕ) := do
  let last ← loadPrev m h
  let m ← storePrev m n last
  let last ← loadPrev m n
  let m ← storeNext m last n
  let m ← storeNext m n q
  let last ← loadPrev m q
  let m ← storePrev m h last
  let last ← loadPrev m h
  let m ← storeNext m last h
  storePrev m q n

def queueAdd (m : Links ℕ) (h n : ℕ) : Exec (Links ℕ) := do
  let last ← loadPrev m h
  let first ← loadNext m n
  let m ← storeNext m last first
  let first ← loadNext m n
  let last ← loadPrev m h
  let m ← storePrev m first last
  let last ← loadPrev m n
  let m ← storePrev m h last
  let last ← loadPrev m h
  storeNext m last h

def queueAddHead (m : Links ℕ) (h n : ℕ) : Exec (Links ℕ) := do
  let first ← loadNext m h
  let last ← loadPrev m n
  let m ← storePrev m first last
  let last ← loadPrev m n
  let first ← loadNext m h
  let m ← storeNext m last first
  let first ← loadNext m n
  let m ← storeNext m h first
  let first ← loadNext m h
  storePrev m first h

/-- The loop of `hcore_queue_middle`. -/
def middleFrom (m : Links ℕ) (queue : ℕ) : ℕ → ℕ → ℕ → Exec ℕ
  | 0, _, _ => outOfFuel
  | fuel + 1, middle, next => do
    let middle ← loadNext m middle
    let next ← loadNext m next
    let last ← loadPrev m queue
    if next = last then pure middle
    else do
      let next ← loadNext m next
      let last ← loadPrev m queue
      if next = last then pure middle else middleFrom m queue fuel middle next

def queueMiddle (fuel : ℕ) (m : Links ℕ) (queue : ℕ) : Exec ℕ := do
  let middle ← loadNext m queue
  let last ← loadPrev m queue
  if middle = last then pure middle
  else do
    let next ← loadNext m queue
    middleFrom m queue fuel middle next

/-- The inner loop of `hcore_queue_sort`: where it leaves `prev`. -/
def passFrom (cmp : ℕ → ℕ → ℤ) (m : Links ℕ) (queue q : ℕ) : ℕ → ℕ → Exec ℕ
  | 0, _ => outOfFuel
  | fuel + 1, prev =>
    if cmp prev q ≤ 0 then pure prev
    else do
      let prev ← loadPrev m prev
      if prev ≠ queue then passFrom cmp m queue q fuel prev else pure prev

/-- The outer loop; `budget` is one for each inner loop. -/
def sortFrom (debug : Bool) (cmp : ℕ → ℕ → ℤ) (budget queue : ℕ) :
    ℕ → Links ℕ → ℕ → Exec (Links ℕ)
  | 0, _, _ => outOfFuel
  | fuel + 1, m, q =>
    if q ≠ queue then do
      let prev ← loadPrev m q
      let next ← loadNext m q
      let m ← queueRemove debug m q
      let prev ← passFrom cmp m queue q budget prev
      let m ← queueInsertAfter m prev q
      sortFrom debug cmp budget queue fuel m next
    else pure m

def queueSort (debug : Bool) (cmp : ℕ → ℕ → ℤ) (fuel : ℕ) (m : Links ℕ) (queue : ℕ) :
    Exec (Links ℕ) := do
  let q ← loadNext m queue
  let last ← loadPrev m queue
  if q = last then pure m
  else do
    let q ← loadNext m q
    sortFrom debug cmp fuel queue fuel m q

/-- A well-formed queue with these nodes. -/
structure Nodes (m : Links ℕ) (h : ℕ) (xs : List ℕ) : Prop where
  ring : IsRing m h xs
  nonnull : ∀ x ∈ h :: xs, x ≠ 0

section

variable {m : Links ℕ} {h n q u v x y : ℕ} {a b xs : List ℕ}

theorem loadNext_eq (hx : x ≠ 0) : loadNext m x = Except.ok (m.next x) := if_neg hx

theorem loadPrev_eq (hx : x ≠ 0) : loadPrev m x = Except.ok (m.prev x) := if_neg hx

theorem storeNext_eq (hx : x ≠ 0) :
    storeNext m x v = Except.ok { m with next := Function.update m.next x v } := if_neg hx

theorem storePrev_eq (hx : x ≠ 0) :
    storePrev m x v = Except.ok { m with prev := Function.update m.prev x v } := if_neg hx

theorem queueInsertAfter_eq (hh : h ≠ 0) (hx : x ≠ 0) (hv : v ≠ 0) (hnext : m.next h = v) :
    queueInsertAfter m h x = Except.ok ((m.link x v).link h x) := by
  rw [queueInsertAfter, loadNext_eq hh, ok_bind, storeNext_eq hx, ok_bind, loadNext_eq hx, ok_bind]
  dsimp only
  rw [Function.update_self, hnext, storePrev_eq hv, ok_bind, storePrev_eq hx, ok_bind,
    storeNext_eq hh]
  rfl

/-- What a removal does to the other nodes. -/
theorem queueRemove_eq (debug : Bool) (hx : x ≠ 0) (hu : u ≠ 0) (hv : v ≠ 0) (hne : x ≠ v)
    (hnext : m.next x = v) (hprev : m.prev x = u) :
    ∃ m', queueRemove debug m x = Except.ok m' ∧
      ∀ y, y ≠ x → m'.next y = (m.link u v).next y ∧ m'.prev y = (m.link u v).prev y := by
  have hrun : queueRemove debug m x =
      if debug then storePrev (m.link u v) x 0 >>= fun m => storeNext m x 0
      else Except.ok (m.link u v) := by
    rw [queueRemove, loadNext_eq hx, ok_bind, loadPrev_eq hx, ok_bind, hnext, storePrev_eq hv,
      ok_bind, loadPrev_eq hx, ok_bind]
    dsimp only
    rw [Function.update_of_ne hne, hprev, loadNext_eq hx, ok_bind, storeNext_eq hu, ok_bind]
    dsimp only
    rw [hnext]
    rfl
  cases debug with
  | false => exact ⟨_, hrun, fun y _ => ⟨rfl, rfl⟩⟩
  | true =>
    rw [if_pos rfl, storePrev_eq hx, ok_bind, storeNext_eq hx] at hrun
    exact ⟨_, hrun, fun y hy => ⟨Function.update_of_ne hy .., Function.update_of_ne hy ..⟩⟩

theorem queueSplit_eq (hh : h ≠ 0) (hq : q ≠ 0) (hn : n ≠ 0) (hu : u ≠ 0) (hv : v ≠ 0)
    (hnq : q ≠ n) (hqh : q ≠ h) (hlast : m.prev h = v) (hprev : m.prev q = u) :
    queueSplit m h q n = Except.ok (((m.link v n).link n q).link u h) := by
  rw [queueSplit, loadPrev_eq hh, ok_bind, storePrev_eq hn, ok_bind, loadPrev_eq hn, ok_bind]
  dsimp only
  rw [Function.update_self, hlast, storeNext_eq hv, ok_bind, storeNext_eq hn, ok_bind,
    loadPrev_eq hq, ok_bind]
  dsimp only
  rw [Function.update_of_ne hnq, hprev, storePrev_eq hh, ok_bind, loadPrev_eq hh, ok_bind]
  dsimp only
  rw [Function.update_self, storeNext_eq hu, ok_bind, storePrev_eq hq]
  refine congrArg Except.ok (Links.ext rfl ?_)
  exact Function.update_comm hqh.symm ..

theorem queueAdd_eq (hh : h ≠ 0) (hn : n ≠ 0) (hu : u ≠ 0) (hv : v ≠ 0) (hx : x ≠ 0)
    (hun : n ≠ u) (hxn : n ≠ x) (hlast : m.prev h = u) (hfirst : m.next n = x)
    (hend : m.prev n = v) :
    queueAdd m h n = Except.ok ((m.link u x).link v h) := by
  rw [queueAdd, loadPrev_eq hh, ok_bind, loadNext_eq hn, ok_bind, hlast, hfirst, storeNext_eq hu,
    ok_bind, loadNext_eq hn, ok_bind]
  dsimp only
  rw [Function.update_of_ne hun, hfirst, loadPrev_eq hh, ok_bind, storePrev_eq hx, ok_bind,
    loadPrev_eq hn, ok_bind]
  dsimp only
  rw [Function.update_of_ne hxn, hend, storePrev_eq hh, ok_bind, loadPrev_eq hh, ok_bind]
  dsimp only
  rw [Function.update_self, storeNext_eq hv, hlast]
  rfl

theorem queueAddHead_eq (hh : h ≠ 0) (hn : n ≠ 0) (hu : u ≠ 0) (hv : v ≠ 0) (hx : x ≠ 0)
    (hnu : n ≠ u) (hnv : n ≠ v) (hfirst : m.next h = u) (hend : m.prev n = v)
    (hnext : m.next n = x) :
    queueAddHead m h n = Except.ok ((m.link v u).link h x) := by
  rw [queueAddHead, loadNext_eq hh, ok_bind, loadPrev_eq hn, ok_bind, hfirst, hend,
    storePrev_eq hu, ok_bind, loadPrev_eq hn, ok_bind]
  dsimp only
  rw [Function.update_of_ne hnu, hend, loadNext_eq hh, ok_bind, storeNext_eq hv, ok_bind,
    loadNext_eq hn, ok_bind]
  dsimp only
  rw [Function.update_of_ne hnv, hnext, storeNext_eq hh, ok_bind, loadNext_eq hh, ok_bind]
  dsimp only
  rw [Function.update_self, storePrev_eq hx, hfirst]
  rfl

theorem Nodes.mem_ne_zero (hq : Nodes m h xs) (hx : x ∈ xs) : x ≠ 0 :=
  hq.nonnull x (List.mem_cons_of_mem h hx)

theorem Nodes.head_ne_zero (hq : Nodes m h xs) : h ≠ 0 := hq.nonnull h List.mem_cons_self

theorem Nodes.lastOf_ne_zero (hq : Nodes m h (a ++ b)) : lastOf h a ≠ 0 := by
  refine hq.nonnull _ ?_
  rcases List.mem_cons.mp (lastOf_mem h a) with hlast | hlast
  · rw [hlast]
    exact List.mem_cons_self
  · exact List.mem_cons_of_mem h (List.mem_append_left b hlast)

theorem Nodes.firstOf_ne_zero (hq : Nodes m h (a ++ b)) : firstOf b h ≠ 0 := by
  refine hq.nonnull _ ?_
  rcases List.mem_append.mp (firstOf_mem b h) with hfirst | hfirst
  · exact List.mem_cons_of_mem h (List.mem_append_right a hfirst)
  · rw [List.mem_singleton.mp hfirst]
    exact List.mem_cons_self

/-- One pointer is at twice the index of the other, in front of the last node. -/
theorem middleFrom_eq (hq : Nodes m h xs) {fuel i j : ℕ} (hj : j = 2 * i) (hi : i < xs.length)
    (hlast : j + 1 < xs.length) (hfuel : xs.length ≤ 2 * (i + fuel))
    (hmid : xs.length / 2 < xs.length) :
    middleFrom m h fuel xs[i] xs[j] = Except.ok xs[xs.length / 2] := by
  induction fuel generalizing i j with
  | zero => omega
  | succ fuel ih =>
    have hnode {k : ℕ} (hk : k < xs.length) : xs[k] ≠ 0 := hq.mem_ne_zero (List.getElem_mem hk)
    have hend : m.prev h = xs[xs.length - 1] := by
      rw [hq.ring.prev_head]
      exact lastOf_getElem h (by omega)
    have hsame {k : ℕ} (hk : k < xs.length) : xs[k] = xs[xs.length - 1] ↔ k = xs.length - 1 :=
      (List.nodup_cons.mp hq.ring.nodup).2.getElem_inj_iff
    rw [middleFrom, loadNext_eq (hnode hi), ok_bind, loadNext_eq (hnode (by omega)), ok_bind,
      loadPrev_eq hq.head_ne_zero, ok_bind, hq.ring.next_getElem (i := i) (by omega),
      hq.ring.next_getElem hlast, hend]
    by_cases hone : j + 1 = xs.length - 1
    · have hat : xs.length / 2 = i + 1 := by omega
      rw [if_pos ((hsame hlast).mpr hone)]
      simp only [hat, pure_eq_ok]
    · have hmore : j + 1 + 1 < xs.length := by omega
      rw [if_neg (fun heq => hone ((hsame hlast).mp heq)), loadNext_eq (hnode hlast), ok_bind,
        ok_bind, hq.ring.next_getElem hmore]
      by_cases htwo : j + 1 + 1 = xs.length - 1
      · have hat : xs.length / 2 = i + 1 := by omega
        rw [if_pos ((hsame hmore).mpr htwo)]
        simp only [hat, pure_eq_ok]
      · rw [if_neg (fun heq => htwo ((hsame hmore).mp heq))]
        exact ih (by omega) (by omega) (by omega) (by omega)

theorem queueMiddle_eq (hq : Nodes m h xs) (hmid : xs.length / 2 < xs.length) {fuel : ℕ}
    (hfuel : xs.length ≤ fuel) : queueMiddle fuel m h = Except.ok xs[xs.length / 2] := by
  have hpos : 0 < xs.length := by omega
  have hfirst : m.next h = xs[0] := by
    rw [hq.ring.next_head, firstOf, List.head?_eq_getElem?, List.getElem?_eq_getElem hpos,
      Option.getD_some]
  have hend : m.prev h = xs[xs.length - 1] := by
    rw [hq.ring.prev_head]
    exact lastOf_getElem h (by omega)
  rw [queueMiddle, loadNext_eq hq.head_ne_zero, ok_bind, loadPrev_eq hq.head_ne_zero, ok_bind,
    hfirst, hend]
  by_cases hone : xs.length = 1
  · have hlast : xs.length - 1 = 0 := by omega
    have hat : xs.length / 2 = 0 := by omega
    simp only [hlast, hat, if_pos, pure_eq_ok]
  · have hne : xs[0] ≠ xs[xs.length - 1] := by
      intro heq
      have hindex := (List.nodup_cons.mp hq.ring.nodup).2.getElem_inj_iff.mp heq
      omega
    rw [if_neg hne, ok_bind]
    exact middleFrom_eq hq rfl hpos (by omega) (by omega) hmid

/-- The nodes of both queues are those of the one that is split. -/
theorem queueSplit_nodes (hq : Nodes m h (a ++ q :: b)) (hn : n ∉ h :: (a ++ q :: b))
    (hn0 : n ≠ 0) :
    ∃ m', queueSplit m h q n = Except.ok m' ∧ Nodes m' h a ∧ Nodes m' n (q :: b) := by
  have hnq : q ≠ n := by
    rintro rfl
    exact hn (by simp)
  have hqh : q ≠ h := by
    rintro rfl
    exact hq.ring.head_not_mem (by simp)
  have hlast : m.prev h = lastOf q b := by rw [hq.ring.prev_head, lastOf_append]
  have hlast0 : lastOf q b ≠ 0 :=
    hq.nonnull _ (List.mem_cons_of_mem h (List.mem_append_right a (lastOf_mem q b)))
  obtain ⟨hfront, hback⟩ := hq.ring.split hn
  refine ⟨_, queueSplit_eq hq.head_ne_zero (hq.mem_ne_zero (by simp)) hn0 hq.lastOf_ne_zero hlast0
    hnq hqh hlast hq.ring.prev_node, ⟨hfront, fun x hx => hq.nonnull x ?_⟩, hback, ?_⟩
  · grind
  · intro x hx
    rcases List.mem_cons.mp hx with rfl | hx
    · exact hn0
    · exact hq.mem_ne_zero (List.mem_append_right a hx)

theorem queueAdd_nodes (hq : Nodes m h a) (hq' : Nodes m n (q :: b))
    (hn : n ∉ h :: (a ++ q :: b)) (hnodup : (h :: (a ++ q :: b)).Nodup) :
    ∃ m', queueAdd m h n = Except.ok m' ∧ Nodes m' h (a ++ q :: b) := by
  have hlast := lastOf_mem h a
  have hend : m.prev n = lastOf q b := by
    rw [hq'.ring.prev_head]
    exact lastOf_append n q [] b
  have hend0 : lastOf q b ≠ 0 := hq'.mem_ne_zero (lastOf_mem q b)
  refine ⟨_, queueAdd_eq hq.head_ne_zero hq'.head_ne_zero (hq.nonnull _ hlast) hend0
    (hq'.mem_ne_zero List.mem_cons_self) (by grind) (by grind) hq.ring.prev_head
    hq'.ring.next_head hend, hq.ring.append hq'.ring hnodup, fun x hx => ?_⟩
  have hfront := hq.nonnull x
  have hback := hq'.nonnull x
  grind

theorem queueAddHead_nodes (hq : Nodes m h a) (hq' : Nodes m n (q :: b))
    (hn : n ∉ h :: (a ++ q :: b)) (hnodup : (h :: (a ++ q :: b)).Nodup) :
    ∃ m', queueAddHead m h n = Except.ok m' ∧ Nodes m' h (q :: b ++ a) := by
  have hfirst := firstOf_mem a h
  have hlast := lastOf_mem q b
  have hend : m.prev n = lastOf q b := by
    rw [hq'.ring.prev_head]
    exact lastOf_append n q [] b
  have hfirst0 : firstOf a h ≠ 0 := Nodes.firstOf_ne_zero (a := []) hq
  refine ⟨_, queueAddHead_eq hq.head_ne_zero hq'.head_ne_zero hfirst0 (hq'.mem_ne_zero hlast)
    (hq'.mem_ne_zero List.mem_cons_self) (by grind) (by grind) hq.ring.next_head hend
    hq'.ring.next_head, hq.ring.prepend hq'.ring hnodup, fun x hx => ?_⟩
  have hfront := hq.nonnull x
  have hback := hq'.nonnull x
  grind

end

/-- **Split and join**: the middle is found; at every node the queue splits into two, and
these join to the queue as it was, or the other way round. -/
theorem queue_split_join (m : Links ℕ) (h : ℕ) (xs : List ℕ) (hq : Nodes m h xs) (hne : xs ≠ []) :
    (∃ x, xs[xs.length / 2]? = some x ∧
        ∀ fuel, xs.length ≤ fuel → queueMiddle fuel m h = Except.ok x) ∧
      ∀ a q b n, xs = a ++ q :: b → n ∉ h :: xs → n ≠ 0 →
        ∃ m', queueSplit m h q n = Except.ok m' ∧ Nodes m' h a ∧ Nodes m' n (q :: b) ∧
          (∃ m'', queueAdd m' h n = Except.ok m'' ∧ Nodes m'' h xs) ∧
          ∃ m'', queueAddHead m' h n = Except.ok m'' ∧ Nodes m'' h (q :: b ++ a) := by
  constructor
  · have hpos : 0 < xs.length := List.length_pos_of_ne_nil hne
    have hmid : xs.length / 2 < xs.length := by omega
    exact ⟨xs[xs.length / 2], List.getElem?_eq_getElem hmid,
      fun fuel hfuel => queueMiddle_eq hq hmid hfuel⟩
  · rintro a q b n rfl hn hn0
    obtain ⟨m', hsplit, hfront, hback⟩ := queueSplit_nodes hq hn hn0
    exact ⟨m', hsplit, hfront, hback, queueAdd_nodes hfront hback hn hq.ring.nodup,
      queueAddHead_nodes hfront hback hn hq.ring.nodup⟩

/-- The queue of the nodes 2 and 3 with the sentinel 1. -/
def twoNodes : Links ℕ :=
  ⟨fun x => if x = 1 then 2 else if x = 2 then 3 else 1,
    fun x => if x = 1 then 3 else if x = 2 then 1 else 2⟩

theorem twoNodes_nodes : Nodes twoNodes 1 [2, 3] where
  ring := ⟨List.IsChain.cons_cons ⟨rfl, rfl⟩ (List.IsChain.cons_cons ⟨rfl, rfl⟩
    (List.IsChain.cons_cons ⟨rfl, rfl⟩ (List.IsChain.singleton 1))), by decide⟩
  nonnull := by decide

theorem queue_split_join_two :
    (∃ x, [2, 3][[2, 3].length / 2]? = some x ∧
        ∀ fuel, [2, 3].length ≤ fuel → queueMiddle fuel twoNodes 1 = Except.ok x) ∧
      ∀ a q b n, [2, 3] = a ++ q :: b → n ∉ [1, 2, 3] → n ≠ 0 →
        ∃ m', queueSplit twoNodes 1 q n = Except.ok m' ∧ Nodes m' 1 a ∧ Nodes m' n (q :: b) ∧
          (∃ m'', queueAdd m' 1 n = Except.ok m'' ∧ Nodes m'' 1 [2, 3]) ∧
          ∃ m'', queueAddHead m' 1 n = Except.ok m'' ∧ Nodes m'' 1 (q :: b ++ a) :=
  queue_split_join twoNodes 1 [2, 3] twoNodes_nodes (by decide)

section

variable {debug : Bool} {cmp : ℕ → ℕ → ℤ} {m : Links ℕ} {h q x : ℕ} {a b c l rest xs : List ℕ}

theorem Nodes.remove (debug : Bool) (hq : Nodes m h (a ++ x :: b)) :
    ∃ m', queueRemove debug m x = Except.ok m' ∧ Nodes m' h (a ++ b) := by
  have hnodup := hq.ring.nodup
  have hfirst := firstOf_mem b h
  have hne : x ≠ firstOf b h := by grind
  have hfirst0 : firstOf b h ≠ 0 := by
    refine hq.nonnull _ ?_
    grind
  obtain ⟨m', hrun, hsame⟩ := queueRemove_eq debug (hq.mem_ne_zero (by simp)) hq.lastOf_ne_zero
    hfirst0 hne hq.ring.next_node hq.ring.prev_node
  have hout : x ∉ h :: (a ++ b) := by grind
  refine ⟨m', hrun, hq.ring.remove.congr ?_ ?_, fun y hy => hq.nonnull y ?_⟩
  · exact fun y hy => (hsame y (ne_of_mem_of_not_mem hy hout)).1
  · exact fun y hy => (hsame y (ne_of_mem_of_not_mem hy hout)).2
  · grind

theorem Nodes.insert (hq : Nodes m h (a ++ b)) (hx : x ∉ h :: (a ++ b)) (hx0 : x ≠ 0) :
    ∃ m', queueInsertAfter m (lastOf h a) x = Except.ok m' ∧ Nodes m' h (a ++ x :: b) := by
  refine ⟨_, queueInsertAfter_eq hq.lastOf_ne_zero hx0 hq.firstOf_ne_zero hq.ring.next_lastOf,
    hq.ring.insert hx, fun y hy => ?_⟩
  have hold := hq.nonnull y
  grind

/-- The inner loop stops behind the last node that is not greater. -/
theorem passFrom_eq (hq : Nodes m h (l ++ c)) (hl : l ≠ []) :
    ∃ a b, l = a ++ b ∧
      (∀ fuel, l.length ≤ fuel →
        passFrom cmp m h q fuel (lastOf h l) = Except.ok (lastOf h a)) ∧
      (∀ x ∈ a.getLast?, cmp x q ≤ 0) ∧ ∀ y ∈ b, ¬ cmp y q ≤ 0 := by
  induction l using List.reverseRecOn generalizing c with
  | nil => exact absurd rfl hl
  | append_singleton l x ih =>
    rw [List.append_assoc, List.singleton_append] at hq
    by_cases hle : cmp x q ≤ 0
    · refine ⟨l ++ [x], [], (List.append_nil _).symm, fun fuel hfuel => ?_, by simpa using hle,
        by simp⟩
      rw [List.length_append, List.length_singleton] at hfuel
      obtain ⟨fuel, rfl⟩ := Nat.exists_eq_add_one_of_ne_zero (show fuel ≠ 0 by omega)
      rw [lastOf_concat, passFrom, if_pos hle, pure_eq_ok]
    · have hstep (fuel : ℕ) : passFrom cmp m h q (fuel + 1) (lastOf h (l ++ [x])) =
          if lastOf h l ≠ h then passFrom cmp m h q fuel (lastOf h l)
          else Except.ok (lastOf h l) := by
        rw [lastOf_concat, passFrom, if_neg hle, loadPrev_eq (hq.mem_ne_zero (by simp)), ok_bind,
          hq.ring.prev_node, pure_eq_ok]
      by_cases hnil : l = []
      · subst hnil
        refine ⟨[], [x], rfl, fun fuel hfuel => ?_, by simp, by simpa using hle⟩
        obtain ⟨fuel, rfl⟩ := Nat.exists_eq_add_one_of_ne_zero (show fuel ≠ 0 by
          rw [List.length_append, List.length_singleton] at hfuel
          omega)
        rw [hstep, lastOf_nil, if_neg (not_not.mpr rfl)]
      · obtain ⟨a, b, rfl, hrun, hlast, hpassed⟩ := ih hq hnil
        have hne : lastOf h (a ++ b) ≠ h := by
          intro heq
          refine hq.ring.head_not_mem (List.mem_append_left _ ?_)
          rw [← heq]
          exact lastOf_mem_of_ne_nil h hnil
        refine ⟨a, b ++ [x], List.append_assoc .., fun fuel hfuel => ?_, hlast, fun y hy => ?_⟩
        · rw [List.length_append, List.length_singleton] at hfuel
          obtain ⟨fuel, rfl⟩ := Nat.exists_eq_add_one_of_ne_zero (show fuel ≠ 0 by omega)
          rw [hstep, if_pos hne]
          exact hrun fuel (by omega)
        · rcases List.mem_append.mp hy with hy | hy
          · exact hpassed y hy
          · rwa [List.mem_singleton.mp hy]

/-- The nodes in front of `q` are sorted, and those from `q` on are put among them. -/
theorem sortFrom_eq (debug : Bool) (cmp : ℕ → ℕ → ℤ) (hq : Nodes m h (l ++ rest)) (hl : l ≠ []) :
    ∃ m' ys,
      (∀ fuel budget, rest.length < fuel → (l ++ rest).length ≤ budget →
        sortFrom debug cmp budget h fuel m (firstOf rest h) = Except.ok m') ∧
      Nodes m' h ys ∧ InsertedAll (fun x y => cmp x y ≤ 0) l rest ys := by
  induction rest generalizing l m with
  | nil =>
    rw [List.append_nil] at hq
    refine ⟨m, l, fun fuel budget hfuel _ => ?_, hq, InsertedAll.done⟩
    obtain ⟨fuel, rfl⟩ := Nat.exists_eq_add_one_of_ne_zero (Nat.ne_zero_of_lt hfuel)
    rw [firstOf_nil, sortFrom, if_neg (not_not.mpr rfl), pure_eq_ok]
  | cons x rest ih =>
    have hnodup := hq.ring.nodup
    have hx0 : x ≠ 0 := hq.mem_ne_zero (by simp)
    have hne : x ≠ h := by grind
    obtain ⟨m₁, hremove, hq₁⟩ := hq.remove debug
    obtain ⟨a, b, rfl, hpass, hlast, hpassed⟩ := @passFrom_eq cmp m₁ h x rest l hq₁ hl
    have hout : x ∉ h :: (a ++ (b ++ rest)) := by grind
    rw [List.append_assoc] at hq₁
    obtain ⟨m₂, hinsert, hq₂⟩ := hq₁.insert hout hx0
    have hgrown : a ++ x :: (b ++ rest) = (a ++ x :: b) ++ rest := by simp
    rw [hgrown] at hq₂
    obtain ⟨m', ys, hrun, hys, hall⟩ := ih hq₂ (by simp)
    refine ⟨m', ys, fun fuel budget hfuel hbudget => ?_, hys,
      InsertedAll.step (Inserted.mk hlast hpassed) hall⟩
    have hlen : (a ++ b ++ x :: rest).length = (a ++ x :: b ++ rest).length := by
      simp only [List.length_append, List.length_cons]
      omega
    have hfront : (a ++ b).length ≤ budget := by
      rw [List.length_append] at hbudget
      omega
    obtain ⟨fuel, rfl⟩ := Nat.exists_eq_add_one_of_ne_zero (Nat.ne_zero_of_lt hfuel)
    rw [List.length_cons] at hfuel
    rw [firstOf_cons, sortFrom, if_pos hne, loadPrev_eq hx0, ok_bind, loadNext_eq hx0, ok_bind,
      hremove, ok_bind, hq.ring.prev_node, hpass budget hfront, ok_bind, hinsert, ok_bind,
      hq.ring.next_node]
    exact hrun fuel budget (by omega) (hlen ▸ hbudget)

theorem queueSort_eq (debug : Bool) (cmp : ℕ → ℕ → ℤ) (hq : Nodes m h xs) :
    ∃ m' ys, (∀ fuel, xs.length < fuel → queueSort debug cmp fuel m h = Except.ok m') ∧
      Nodes m' h ys ∧ InsertedAll (fun x y => cmp x y ≤ 0) [] xs ys := by
  have hfirst (x : ℕ) : Inserted (fun x y => cmp x y ≤ 0) x [] [x] :=
    @Inserted.mk ℕ (fun x y => cmp x y ≤ 0) x [] [] (by simp) (by simp)
  have hstart (fuel : ℕ) : queueSort debug cmp fuel m h =
      if firstOf xs h = lastOf h xs then Except.ok m
      else loadNext m (firstOf xs h) >>= fun q => sortFrom debug cmp fuel h fuel m q := by
    rw [queueSort, loadNext_eq hq.head_ne_zero, ok_bind, loadPrev_eq hq.head_ne_zero, ok_bind,
      hq.ring.next_head, hq.ring.prev_head]
    rfl
  rcases xs with _ | ⟨x, _ | ⟨y, rest⟩⟩
  · exact ⟨m, [], fun fuel _ => by rw [hstart]; exact if_pos rfl, hq, InsertedAll.done⟩
  · exact ⟨m, [x], fun fuel _ => by rw [hstart]; exact if_pos rfl, hq,
      InsertedAll.step (hfirst x) InsertedAll.done⟩
  · have hnodup := hq.ring.nodup
    have hlast : lastOf h (x :: y :: rest) ∈ y :: rest := by
      have heq := lastOf_append h y [x] rest
      rw [List.singleton_append] at heq
      rw [heq]
      exact lastOf_mem y rest
    have hne : x ≠ lastOf h (x :: y :: rest) := by grind
    obtain ⟨m', ys, hrun, hys, hall⟩ := @sortFrom_eq m h [x] (y :: rest) debug cmp hq (by simp)
    refine ⟨m', ys, fun fuel hfuel => ?_, hys, InsertedAll.step (hfirst x) hall⟩
    rw [hstart, firstOf_cons, if_neg hne, loadNext_eq (hq.mem_ne_zero List.mem_cons_self), ok_bind,
      IsRing.next_node (a := []) hq.ring]
    exact hrun fuel fuel (by simp only [List.length_cons] at hfuel ⊢; omega) hfuel.le

end

/-- **The sort is stable** and leaves a well-formed queue of the same nodes, in either build. -/
theorem queueSort_stable (debug : Bool) (cmp : ℕ → ℕ → ℤ)
    (htotal : ∀ x y, cmp x y ≤ 0 ∨ cmp y x ≤ 0)
    (htrans : ∀ x y z, cmp x y ≤ 0 → cmp y z ≤ 0 → cmp x z ≤ 0) (m : Links ℕ) (h : ℕ)
    (xs : List ℕ) (hq : Nodes m h xs) :
    ∃ m' ys, (∀ fuel, xs.length < fuel → queueSort debug cmp fuel m h = Except.ok m') ∧
      Nodes m' h ys ∧ ys.Perm xs ∧ ys.Pairwise (fun x y => cmp x y ≤ 0) ∧
      ∀ x, ys.filter (fun y => decide (cmp x y ≤ 0 ∧ cmp y x ≤ 0)) =
        xs.filter (fun y => decide (cmp x y ≤ 0 ∧ cmp y x ≤ 0)) := by
  obtain ⟨m', ys, hrun, hys, hall⟩ := queueSort_eq debug cmp hq
  refine ⟨m', ys, hrun, hys, hall.perm, hall.sorted htotal htrans List.Pairwise.nil, fun x => ?_⟩
  refine hall.filter (fun y z hy hz => ?_)
  exact htrans y x z (of_decide_eq_true hy).2 (of_decide_eq_true hz).1

/-- Falling order of the addresses. -/
theorem queueSort_stable_two :
    ∃ m' ys, (∀ fuel, [2, 3].length < fuel →
        queueSort true (fun x y : ℕ => (y : ℤ) - x) fuel twoNodes 1 = Except.ok m') ∧
      Nodes m' 1 ys ∧ ys.Perm [2, 3] ∧ ys.Pairwise (fun x y : ℕ => (y : ℤ) - x ≤ 0) ∧
      ∀ x : ℕ, ys.filter (fun y : ℕ => decide ((y : ℤ) - x ≤ 0 ∧ (x : ℤ) - y ≤ 0)) =
        [2, 3].filter (fun y : ℕ => decide ((y : ℤ) - x ≤ 0 ∧ (x : ℤ) - y ≤ 0)) :=
  queueSort_stable true (fun x y : ℕ => (y : ℤ) - x) (fun x y => by omega) (fun x y z => by omega)
    twoNodes 1 [2, 3] twoNodes_nodes

end HCore.Queue
