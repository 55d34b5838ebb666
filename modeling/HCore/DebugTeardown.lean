import HCore.DebugHeap

/-!
The end of the debug object. The loop goes through the list of the nodes by
position, and each round takes the node at its position off that list, so the
node behind it moves to where the loop has already been.
-/

namespace HCore.DebugTeardown

open Machine LittleEndian CHeap ListBackends DebugHeap

/-- The loop of `hcore_destroy_debug`. -/
def destroyMnodes : ℕ → ℕ → State → Exec State
  | 0, _, _ => outOfFuel
  | fuel + 1, i, s =>
    match s.db with
    | none => undefined
    | some db =>
      if i < db.mlist.numItem then do
        let node ← getItem db.mlist i
        let s ← destroyMnode s node
        destroyMnodes fuel (i + 1) s
      else pure s

/-- `hcore_destroy_pool`: its blocks, which have nodes of their own. -/
def freeBlocks : List ℕ → State → Exec State
  | [], s => pure s
  | a :: blocks, s => do
    let s ← hcoreFree s a
    freeBlocks blocks s

/-- `hcore_destroy_debug` of the object `g_hcore_debug`; `blocks` are those of
its pool. The list of the nodes is not on the heap. -/
def destroyDebug (s : State) (blocks : List ℕ) : Exec State :=
  match s.db with
  | none => undefined
  | some db => do
    let s ← destroyMnodes (db.mlist.numItem + 1) 0 s
    freeBlocks blocks s

section

variable {α : Type} {b b' : Backends} {l l' : PList α} {x y : α} {ok : Bool} {n i j k : ℕ}

theorem putItem_get (h : putItem l i x = Except.ok l') (j : ℕ) :
    getItem l' j = if j = i then Except.ok x else getItem l j := by
  unfold putItem at h
  split at h
  · cases h
  · next cells hp =>
    split at h
    · next hi =>
      cases h
      unfold getItem
      rw [hp]
      dsimp only
      by_cases hj : j = i
      · rw [if_pos hj, hj, List.getElem?_set_self hi]
        rfl
      · rw [if_neg hj, List.getElem?_set_ne (Ne.symm hj)]
    · cases h

/-- The `n` items behind `i` have moved down by one. -/
theorem shiftDown_moved (h : shiftDown n i l = Except.ok l') (hij : i ≤ j) (hj : j < i + n) :
    getItem l' j = getItem l (j + 1) := by
  have hkept {n i : ℕ} {l l' : PList α} (h : shiftDown n i l = Except.ok l') (hj : j < i) :
      getItem l' j = getItem l j := by
    induction n generalizing i l with
    | zero =>
      cases h
      rfl
    | succ n ih =>
      obtain ⟨y, -, h⟩ := bind_eq_ok.mp h
      obtain ⟨l1, hput, h⟩ := bind_eq_ok.mp h
      rw [ih h (by omega), putItem_get hput, if_neg (by omega)]
  induction n generalizing i l with
  | zero => omega
  | succ n ih =>
    obtain ⟨y, hread, h⟩ := bind_eq_ok.mp h
    obtain ⟨l1, hput, h⟩ := bind_eq_ok.mp h
    by_cases hfirst : j = i
    · subst hfirst
      rw [hkept h (by omega), putItem_get hput, if_pos rfl, hread]
    · rw [ih h (by omega) (by omega), putItem_get hput, if_neg (by omega)]

/-- An item that is not between two places is not there after a move. -/
theorem shiftDown_avoids (h : shiftDown n i l = Except.ok l') (hlow : k ≤ i)
    (havoid : ∀ j, k ≤ j → j ≤ i + n → getItem l j ≠ Except.ok x) :
    ∀ j, k ≤ j → j ≤ i + n → getItem l' j ≠ Except.ok x := by
  induction n generalizing i l with
  | zero =>
    cases h
    exact havoid
  | succ n ih =>
    obtain ⟨y, hread, h⟩ := bind_eq_ok.mp h
    obtain ⟨l1, hput, h⟩ := bind_eq_ok.mp h
    intro j hj hj'
    refine ih h (by omega) (fun j hj hj' => ?_) j hj (by omega)
    rw [putItem_get hput]
    by_cases hfirst : j = i
    · rw [if_pos hfirst, ← hread]
      exact havoid (i + 1) (by omega) (by omega)
    · rw [if_neg hfirst]
      exact havoid j hj (by omega)

theorem mapM_id_eq_some {cells : Cells α} {items : List α} (h : cells.mapM id = some items) :
    cells = items.map some := by
  induction cells generalizing items with
  | nil =>
    cases h
    rfl
  | cons c cells ih =>
    rw [List.mapM_cons, Option.bind_eq_bind, Option.bind_eq_some_iff] at h
    obtain ⟨x, hx, h⟩ := h
    rw [Option.bind_eq_bind, Option.bind_eq_some_iff] at h
    obtain ⟨rest, hrest, h⟩ := h
    cases h
    rw [List.map_cons, ih hrest, ← hx]
    rfl

theorem contents_get {items : List α} (h : contents l = some items) :
    l.numItem = items.length ∧ ∀ i (hi : i < items.length), getItem l i = Except.ok items[i] := by
  unfold contents at h
  split at h
  · next hnone =>
    cases h
    exact ⟨hnone, fun i hi => absurd hi (Nat.not_lt_zero i)⟩
  · obtain ⟨cells, hp, h⟩ := Option.bind_eq_some_iff.mp h
    split at h
    · next hle =>
      have hcells := mapM_id_eq_some h
      have hlen : l.numItem = items.length := by
        have hlen := congrArg List.length hcells
        rw [List.length_take, List.length_map] at hlen
        omega
      refine ⟨hlen, fun i hi => ?_⟩
      have hcell : cells[i]? = some (some items[i]) := by
        have htake : (cells.take l.numItem)[i]? = cells[i]? :=
          List.getElem?_take_of_lt (by omega)
        rw [← htake, hcells, List.getElem?_map, List.getElem?_eq_getElem hi, Option.map_some]
      unfold getItem
      rw [hp]
      dsimp only
      rw [hcell]
      rfl
    · cases h

theorem resize_get {cells : Cells α} (h : (resize cells n)[j]? = some (some x)) :
    cells[j]? = some (some x) := by
  unfold resize fresh at h
  by_cases hj : j < (cells.take n).length
  · rw [List.getElem?_append_left hj, List.getElem?_take] at h
    split at h
    · exact h
    · cases h
  · rw [List.getElem?_append_right (by omega), List.getElem?_replicate] at h
    split at h <;> cases h

theorem fresh_get (n : ℕ) : (fresh n : Cells α)[j]? ≠ some (some x) := by
  unfold fresh
  rw [List.getElem?_replicate]
  split <;> simp

theorem realloc_get {libc : PoolRequests.Pool} {p : Option (Cells α)} {new : ℕ} {cells' : Cells α}
    (h : (realloc libc p new).1 = some cells') (hj : cells'[j]? = some (some x)) :
    ∃ cells, p = some cells ∧ cells[j]? = some (some x) := by
  unfold realloc at h
  rcases hgrant : libc.palloc (8 * new) with ⟨granted, libc'⟩
  rw [hgrant] at h
  cases granted with
  | false => cases h
  | true =>
    cases h
    have hold := resize_get hj
    cases p with
    | none => simp at hold
    | some cells => exact ⟨cells, rfl, hold⟩

theorem prealloc_get {pool : PoolRequests.Pool} {p : Option (Cells α)} {old new : ℕ} {cells' : Cells α}
    (h : (prealloc pool p old new).1 = some cells') (hj : cells'[j]? = some (some x)) :
    ∃ cells, p = some cells ∧ cells[j]? = some (some x) := by
  unfold prealloc at h
  rcases hgrant : pool.palloc (8 * new) with ⟨granted, pool'⟩
  rw [hgrant] at h
  cases p with
  | none =>
    cases granted with
    | false => cases h
    | true =>
      cases h
      exact absurd hj (fresh_get new)
  | some cells =>
    refine ⟨cells, rfl, ?_⟩
    dsimp only at h
    split at h
    · cases h
    · split at h
      · cases h
        exact resize_get hj
      · split at h
        · cases h
          exact hj
        · cases granted with
          | false => cases h
          | true =>
            cases h
            have hold := resize_get hj
            rw [List.getElem?_take] at hold
            split at hold
            · exact hold
            · cases hold

/-- A block of another size has no items that the old one did not have. -/
theorem listRealloc_get {p : Option (Cells α)} {pooled : Bool} {old new : ℕ} {cells' : Cells α}
    (h : (listRealloc b pooled p old new).1 = some cells') (hj : cells'[j]? = some (some x)) :
    ∃ cells, p = some cells ∧ cells[j]? = some (some x) := by
  unfold listRealloc at h
  cases pooled with
  | false => exact realloc_get h hj
  | true => exact prealloc_get h hj

theorem listShrink_numItem (b : Backends) (l : PList α) :
    (listShrink b l).1.numItem = l.numItem := by
  unfold listShrink
  split <;> rfl

theorem listShrink_get (h : getItem (listShrink b l).1 j = Except.ok x) :
    getItem l j = Except.ok x := by
  unfold listShrink at h
  split at h
  · dsimp only [getItem] at h
    split at h
    · cases h
    · next cells' hp' =>
      split at h
      · next y hy =>
        cases h
        obtain ⟨cells, hp, hcell⟩ := listRealloc_get hp' hy
        unfold getItem
        rw [hp]
        dsimp only
        rw [hcell]
        rfl
      · cases h
  · exact h

end

section

variable {α : Type} [DecidableEq α] {b b' : Backends} {l l' : PList α} {x y : α} {ok : Bool}
  {n k : ℕ}

theorem findItem_head (hn : 0 < n) (h : getItem l 0 = Except.ok x) :
    findItem x l n 0 = Except.ok (some 0) := by
  obtain ⟨n, rfl⟩ := Nat.exists_eq_succ_of_ne_zero hn.ne'
  rw [Nat.succ_eq_add_one, findItem, h, ok_bind, if_pos rfl, pure_eq_ok]

/-- What a deletion does: the item is not there, or it goes. -/
theorem listDelete_cases (h : listDelete b l (some y) = Except.ok (ok, l', b')) :
    (findItem y l l.numItem 0 = Except.ok none ∧ l' = l) ∨
      ∃ n l1, findItem y l l.numItem 0 = Except.ok (some n) ∧
        shiftDown (l.numItem - 1 - n) n l = Except.ok l1 ∧
        l' = (listShrink b { l1 with numItem := l1.numItem - 1 }).1 := by
  unfold listDelete at h
  dsimp only at h
  obtain ⟨found, hfound, h⟩ := bind_eq_ok.mp h
  cases found with
  | none =>
    cases h
    exact Or.inl ⟨hfound, rfl⟩
  | some n =>
    obtain ⟨l1, hshift, h⟩ := bind_eq_ok.mp h
    cases h
    exact Or.inr ⟨n, l1, hfound, hshift, rfl⟩

/-- The item is at none of the places of the list from `k` on. -/
def Avoids (k : ℕ) (l : PList α) (x : α) : Prop :=
  ∀ j, k ≤ j → j < l.numItem → getItem l j ≠ Except.ok x

omit [DecidableEq α] in
theorem Avoids.shrink (h : Avoids k l x) : Avoids k (listShrink b l).1 x := by
  intro j hj hj' hget
  rw [listShrink_numItem] at hj'
  exact h j hj hj' (listShrink_get hget)

omit [DecidableEq α] in
/-- A list that counts one item less. -/
theorem avoids_uncount (h : ∀ j, k ≤ j → j < l.numItem - 1 → getItem l j ≠ Except.ok x) :
    Avoids k { l with numItem := l.numItem - 1 } x := h

/-- Items only move down, so a deletion brings none behind its place. -/
theorem Avoids.delete (hx : Avoids k l x)
    (h : listDelete b l (some y) = Except.ok (ok, l', b')) : Avoids k l' x := by
  rcases listDelete_cases h with ⟨-, rfl⟩ | ⟨n, l1, hfound, hshift, rfl⟩
  · exact hx
  · have hrange := findItem_range hfound
    have hnum := (shiftDown_frame hshift).numItem
    refine Avoids.shrink (avoids_uncount (fun j hj hj' => ?_))
    by_cases hn : k ≤ n
    · exact shiftDown_avoids hshift hn (fun j hj hj' => hx j hj (by omega)) j hj (by omega)
    · rw [shiftDown_moved hshift (by omega) (by omega)]
      exact hx (j + 1) (by omega) (by omega)

/-- The second of different items is the first one when the first has gone. -/
theorem avoids_second {a c : α} {items : List α} (hitems : contents l = some (a :: c :: items))
    (hnodup : (a :: c :: items).Nodup) (h : listDelete b l (some a) = Except.ok (ok, l', b')) :
    Avoids 1 l' c := by
  obtain ⟨hnum, hget⟩ := contents_get hitems
  rw [List.length_cons, List.length_cons] at hnum
  have hfirst : findItem a l l.numItem 0 = Except.ok (some 0) :=
    findItem_head (by omega) (hget 0 (by simp))
  rcases listDelete_cases h with ⟨hnone, -⟩ | ⟨n, l1, hfound, hshift, rfl⟩
  · cases hfirst.symm.trans hnone
  · cases hfirst.symm.trans hfound
    have hnum1 := (shiftDown_frame hshift).numItem
    refine Avoids.shrink (avoids_uncount (fun j hj hj' hat => ?_))
    rw [shiftDown_moved hshift (by omega) (by omega), hget (j + 1) (by simp; omega)] at hat
    have hdup := (List.nodup_cons.mp (List.nodup_cons.mp hnodup).2).1
    obtain ⟨j, rfl⟩ : ∃ i, j = i + 1 := ⟨j - 1, by omega⟩
    refine hdup ?_
    rw [← Except.ok.inj hat]
    exact List.getElem_mem _

/-- The deletion of the only item leaves an empty list. -/
theorem listDelete_single {a : α} (b : Backends) (hitems : contents l = some [a]) :
    ∃ l' b', listDelete b l (some a) = Except.ok (true, l', b') ∧ l'.numItem = 0 := by
  obtain ⟨hnum, hget⟩ := contents_get hitems
  have hone : l.numItem = 1 := hnum
  have hfirst : findItem a l l.numItem 0 = Except.ok (some 0) :=
    findItem_head (by omega) (hget 0 (by simp))
  obtain ⟨l', b', hdelete⟩ := listDelete_only (b := b) hfirst hone
  refine ⟨l', b', hdelete, ?_⟩
  rcases listDelete_cases hdelete with ⟨hnone, -⟩ | ⟨n, l1, -, hshift, rfl⟩
  · cases hfirst.symm.trans hnone
  · have hnum1 := (shiftDown_frame hshift).numItem
    rw [listShrink_numItem]
    dsimp only
    omega

end

section

variable {s s' : State} {h h' : Heap} {node a debug : ℕ}

theorem free_ok (hrun : free h a = Except.ok h') :
    h'.mem = h.mem ∧ ∀ b, b ∈ h'.live ↔ b ∈ h.live ∧ b.addr ≠ a := by
  unfold free at hrun
  split at hrun
  · next hzero =>
    cases hrun
    refine ⟨rfl, fun b => ⟨fun hb => ⟨hb, ?_⟩, And.left⟩⟩
    have hpos := (h.inRange b hb).1
    omega
  · split at hrun
    · cases hrun
      refine ⟨rfl, fun b => ?_⟩
      simp only [List.mem_filter, ne_eq, decide_eq_true_eq]
    · cases hrun

theorem free_of_live (ha : a = 0 ∨ ∃ b ∈ h.live, b.addr = a) : ∃ h', free h a = Except.ok h' := by
  unfold free
  by_cases hzero : a = 0
  · exact ⟨h, if_pos hzero⟩
  · exact ⟨_, (if_neg hzero).trans (if_pos (ha.resolve_left hzero))⟩

/-- A live node, listed with the debug object or not. -/
structure NodeAt (h : Heap) (node debug : ℕ) : Prop where
  block : ∃ b ∈ h.live, b.addr = node ∧ mnodeSize ≤ b.size
  magic : wordAt h.mem (node + magicOffset) = debugMagicNum
  debug : wordAt h.mem (node + debugOffset) % 2 = debug

theorem NodeAt.load (hn : NodeAt h node debug) {offset : ℕ} (hle : offset + 8 ≤ mnodeSize) :
    load64 h (node + offset) = Except.ok (wordAt h.mem (node + offset)) := by
  obtain ⟨b, hb, rfl, hsize⟩ := hn.block
  exact load64_of_owns ⟨b, hb, Nat.le_add_right .., by omega⟩

theorem NodeAt.pos (hn : NodeAt h node debug) : node ≠ 0 := by
  obtain ⟨b, hb, rfl, -⟩ := hn.block
  exact (h.inRange b hb).1.ne'

theorem NodeAt.lt (hn : NodeAt h node debug) : node + mnodeSize < 2 ^ 64 := by
  obtain ⟨b, hb, rfl, hsize⟩ := hn.block
  have htop := (h.inRange b hb).2
  omega

theorem NodeAt.mono (hn : NodeAt h node debug) (hmem : h'.mem = h.mem)
    (hlive : ∀ b ∈ h.live, b.addr = node → b ∈ h'.live) : NodeAt h' node debug := by
  obtain ⟨b, hb, haddr, hsize⟩ := hn.block
  exact ⟨⟨b, hlive b hb haddr, haddr, hsize⟩, by rw [hmem]; exact hn.magic,
    by rw [hmem]; exact hn.debug⟩

/-- `bt_symbals` of a node. -/
def symbolsOf (h : Heap) (node : ℕ) : ℕ := wordAt h.mem (node + symbolsOffset)

/-- A listed node leaves the list, and its symbols are freed. -/
theorem unregisterMnode_cases (hrun : unregisterMnode s node = Except.ok s') :
    s'.heap.mem = s.heap.mem ∧
      (∀ b, b ∈ s'.heap.live ↔ b ∈ s.heap.live ∧ b.addr ≠ symbolsOf s.heap node) ∧
      ∃ db db' b b' ok, s.db = some db ∧ s'.db = some db' ∧
        listDelete b db.mlist (some node) = Except.ok (ok, db'.mlist, b') := by
  unfold unregisterMnode at hrun
  split at hrun
  · cases hrun
  · next db hdb =>
    obtain ⟨size, -, hrun⟩ := bind_eq_ok.mp hrun
    obtain ⟨symbols, hsymbols, hrun⟩ := bind_eq_ok.mp hrun
    obtain ⟨heap, hfree, hrun⟩ := bind_eq_ok.mp hrun
    obtain ⟨⟨ok, mlist, backends⟩, hdelete, hrun⟩ := bind_eq_ok.mp hrun
    cases hrun
    obtain ⟨hmem, hlive⟩ := free_ok hfree
    have hsym : symbolsOf s.heap node = symbols := load64_eq_ok hsymbols
    refine ⟨hmem, fun b => ?_, db, _, _, _, _, hdb, rfl, hdelete⟩
    rw [hsym]
    exact hlive b

/-- What the destruction of a node does: an unlisted one only frees its block;
a listed one also frees its symbols and leaves the list. -/
theorem destroyMnode_cases (hrun : destroyMnode s node = Except.ok s') :
    s'.heap.mem = s.heap.mem ∧
      ((wordAt s.heap.mem (node + debugOffset) % 2 ≠ 1 ∧ s'.db = s.db ∧
          ∀ b, b ∈ s'.heap.live ↔ b ∈ s.heap.live ∧ b.addr ≠ node) ∨
        wordAt s.heap.mem (node + debugOffset) % 2 = 1 ∧
          ∃ db db' b b' ok, s.db = some db ∧ s'.db = some db' ∧
          listDelete b db.mlist (some node) = Except.ok (ok, db'.mlist, b') ∧
          ∀ b, b ∈ s'.heap.live ↔
            b ∈ s.heap.live ∧ b.addr ≠ symbolsOf s.heap node ∧ b.addr ≠ node) := by
  obtain ⟨-, -, hrun⟩ := bind_eq_ok.mp hrun
  obtain ⟨magic, -, hrun⟩ := bind_eq_ok.mp hrun
  obtain ⟨-, -, hrun⟩ := bind_eq_ok.mp hrun
  obtain ⟨debug, hdebug, hrun⟩ := bind_eq_ok.mp hrun
  obtain rfl := load64_eq_ok hdebug
  split at hrun
  · next hlisted =>
    obtain ⟨s1, hun, hrun⟩ := bind_eq_ok.mp hrun
    obtain ⟨heap, hfree, hrun⟩ := bind_eq_ok.mp hrun
    cases hrun
    obtain ⟨hmem, hlive⟩ := free_ok hfree
    obtain ⟨hmem1, hlive1, db, db', bk, bk', ok, hdb, hdb', hdelete⟩ := unregisterMnode_cases hun
    refine ⟨hmem.trans hmem1,
      Or.inr ⟨hlisted, db, db', bk, bk', ok, hdb, hdb', hdelete, fun b => ?_⟩⟩
    rw [hlive, hlive1, and_assoc]
  · next hunlisted =>
    obtain ⟨s1, hs1, hrun⟩ := bind_eq_ok.mp hrun
    cases hs1
    obtain ⟨heap, hfree, hrun⟩ := bind_eq_ok.mp hrun
    cases hrun
    obtain ⟨hmem, hlive⟩ := free_ok hfree
    exact ⟨hmem, Or.inl ⟨hunlisted, rfl, hlive⟩⟩

/-- A live node with its words in place is destroyed if the two steps are. -/
theorem NodeAt.destroyMnode_of {s1 : State} (hn : NodeAt s.heap node debug)
    (hun : (if debug = 1 then unregisterMnode s node else pure s) = Except.ok s1)
    (hfree : free s1.heap node = Except.ok h') :
    destroyMnode s node = Except.ok { s1 with heap := h' } := by
  unfold destroyMnode
  refine bind_of_ok (assertion_of hn.pos) ?_
  refine bind_of_ok (hn.load (by decide)) ?_
  refine bind_of_ok (assertion_of hn.magic) ?_
  refine bind_of_ok (hn.load (by decide)) ?_
  rw [hn.debug]
  split at hun
  · next hlisted =>
    rw [if_pos hlisted]
    exact bind_of_ok hun (bind_of_ok hfree rfl)
  · next hunlisted =>
    rw [if_neg hunlisted]
    exact bind_of_ok hun (bind_of_ok hfree rfl)

/-- An unlisted node is destroyed whatever the debug object is. -/
theorem destroyMnode_unlisted (hn : NodeAt s.heap node 0) :
    ∃ s', destroyMnode s node = Except.ok s' ∧ s'.heap.mem = s.heap.mem ∧
      ∀ b, b ∈ s'.heap.live ↔ b ∈ s.heap.live ∧ b.addr ≠ node := by
  obtain ⟨b, hb, haddr, -⟩ := hn.block
  obtain ⟨h', hfree⟩ := free_of_live (a := node) (Or.inr ⟨b, hb, haddr⟩)
  exact ⟨_, hn.destroyMnode_of (if_neg (by decide)) hfree, free_ok hfree⟩

/-- The only listed node is destroyed, and the list is empty. -/
theorem destroyMnode_only {db : Debug} (hn : NodeAt s.heap node 1) (hdb : s.db = some db)
    (hitems : contents db.mlist = some [node])
    (hsymbols : symbolsOf s.heap node = 0 ∨ ∃ b ∈ s.heap.live, b.addr = symbolsOf s.heap node)
    (hapart : symbolsOf s.heap node ≠ node) :
    ∃ s' db', destroyMnode s node = Except.ok s' ∧ s'.db = some db' ∧ db'.mlist.numItem = 0 := by
  obtain ⟨b, hb, haddr, -⟩ := hn.block
  obtain ⟨h1, hfree1⟩ := free_of_live hsymbols
  obtain ⟨hmem1, hlive1⟩ := free_ok hfree1
  obtain ⟨h2, hfree2⟩ := free_of_live (h := h1) (a := node)
    (Or.inr ⟨b, (hlive1 b).mpr ⟨hb, by rw [haddr]; exact hapart.symm⟩, haddr⟩)
  obtain ⟨l', b', hdelete, hzero⟩ := listDelete_single s.backends hitems
  have hun : ∃ s1 db1, unregisterMnode s node = Except.ok s1 ∧ s1.heap = h1 ∧ s1.db = some db1 ∧
      db1.mlist = l' := by
    unfold unregisterMnode
    rw [hdb]
    dsimp only
    refine ⟨_, _, bind_of_ok (hn.load (by decide)) (bind_of_ok (hn.load (by decide))
      (bind_of_ok hfree1 (bind_of_ok hdelete rfl))), rfl, rfl, rfl⟩
  obtain ⟨s1, db1, hun, rfl, hdb1, rfl⟩ := hun
  exact ⟨_, db1, hn.destroyMnode_of ((if_pos rfl).trans hun) hfree2, hdb1, hzero⟩

theorem hcoreFree_eq (hlt : node + mnodeSize < 2 ^ 64) :
    hcoreFree s (node + mnodeSize) = destroyMnode s node := by
  have hback : toUInt64 (((node + mnodeSize : ℕ) : ℤ) - mnodeSize) = node := by
    unfold toUInt64
    omega
  unfold hcoreFree getMnodeOfAddr
  rw [assertion_of (by unfold mnodeSize; omega), ok_bind, hback, pure_eq_ok, ok_bind]

end

section

variable {s s' : State} {nodes blocks : List ℕ} {fuel i c : ℕ}

/-- The blocks of a pool, each with an unlisted node. -/
def PoolBlocks (h : Heap) (blocks : List ℕ) : Prop :=
  blocks.Nodup ∧ ∀ a ∈ blocks, ∃ node, a = node + mnodeSize ∧ NodeAt h node 0

theorem PoolBlocks.tail {a : ℕ} {h : Heap} (hpool : PoolBlocks h (a :: blocks)) :
    PoolBlocks h blocks :=
  ⟨(List.nodup_cons.mp hpool.1).2, fun x hx => hpool.2 x (List.mem_cons_of_mem a hx)⟩

/-- The blocks stay while other blocks go. -/
theorem PoolBlocks.mono {h h' : Heap} (hpool : PoolBlocks h blocks) (hmem : h'.mem = h.mem)
    (hlive : ∀ b ∈ h.live, b.addr + mnodeSize ∈ blocks → b ∈ h'.live) : PoolBlocks h' blocks := by
  refine ⟨hpool.1, fun a ha => ?_⟩
  obtain ⟨node, rfl, hn⟩ := hpool.2 a ha
  exact ⟨node, rfl, hn.mono hmem (fun b hb haddr => hlive b hb (by rwa [haddr]))⟩

/-- The pool is destroyed, and with it nothing but its blocks. -/
theorem freeBlocks_frees (hpool : PoolBlocks s.heap blocks) :
    ∃ s', freeBlocks blocks s = Except.ok s' ∧
      ∀ b, b ∈ s'.heap.live ↔ b ∈ s.heap.live ∧ b.addr + mnodeSize ∉ blocks := by
  induction blocks generalizing s with
  | nil => exact ⟨s, rfl, by simp⟩
  | cons a blocks ih =>
    obtain ⟨node, rfl, hn⟩ := hpool.2 a List.mem_cons_self
    obtain ⟨s1, hrun, hmem, hlive⟩ := destroyMnode_unlisted hn
    have hout := (List.nodup_cons.mp hpool.1).1
    have hpool1 : PoolBlocks s1.heap blocks := by
      refine hpool.tail.mono hmem (fun b hb hin => (hlive b).mpr ⟨hb, ?_⟩)
      rintro rfl
      exact hout hin
    obtain ⟨s', hrest, hlive'⟩ := ih hpool1
    refine ⟨s', ?_, fun b => ?_⟩
    · rw [freeBlocks, hcoreFree_eq hn.lt, hrun, ok_bind, hrest]
    · rw [hlive', hlive, List.mem_cons, not_or, and_assoc, Nat.add_right_cancel_iff]

/-- A debug object whose list has these nodes, with the blocks of its pool. -/
structure Tracks (s : State) (nodes blocks : List ℕ) : Prop where
  list : ∃ db, s.db = some db ∧ contents db.mlist = some nodes
  nodup : nodes.Nodup
  node : ∀ n ∈ nodes, NodeAt s.heap n 1
  symbols : ∀ n ∈ nodes, symbolsOf s.heap n = 0 ∨
    ∃ b ∈ s.heap.live, b.addr = symbolsOf s.heap n
  apart : ∀ n ∈ nodes, symbolsOf s.heap n ∉ nodes ∧ symbolsOf s.heap n + mnodeSize ∉ blocks
  pool : PoolBlocks s.heap blocks

/-- The teardown returns, and no node of the list is allocated any more. A
node that is destroyed twice would be read after its release. -/
def DestroysAll (s : State) (nodes blocks : List ℕ) : Prop :=
  ∃ s', destroyDebug s blocks = Except.ok s' ∧ ∀ b ∈ s'.heap.live, b.addr ∉ nodes

theorem Tracks.nil_destroys (h : Tracks s [] blocks) : DestroysAll s [] blocks := by
  obtain ⟨db, hdb, hitems⟩ := h.list
  obtain ⟨hnum, -⟩ := contents_get hitems
  obtain ⟨s', hrun, -⟩ := freeBlocks_frees h.pool
  refine ⟨s', ?_, by simp⟩
  have hnone : db.mlist.numItem = 0 := hnum
  have hloop : destroyMnodes (db.mlist.numItem + 1) 0 s = Except.ok s := by
    rw [destroyMnodes, hdb]
    dsimp only
    rw [if_neg (by omega), pure_eq_ok]
  unfold destroyDebug
  rw [hdb]
  exact bind_of_ok hloop hrun

theorem Tracks.single_destroys (h : Tracks s [c] blocks) : DestroysAll s [c] blocks := by
  obtain ⟨db, hdb, hitems⟩ := h.list
  have hc : c ∈ [c] := List.mem_singleton_self c
  have hn := h.node c hc
  obtain ⟨hnum, hget⟩ := contents_get hitems
  have hone : db.mlist.numItem = 1 := hnum
  have hapart := (h.apart c hc).1
  rw [List.mem_singleton] at hapart
  obtain ⟨s1, db1, hrun, hdb1, hzero⟩ := destroyMnode_only hn hdb hitems (h.symbols c hc) hapart
  have hloop : destroyMnodes (db.mlist.numItem + 1) 0 s = Except.ok s1 := by
    rw [hone, destroyMnodes, hdb]
    dsimp only
    rw [if_pos (by omega), hget 0 (by simp), ok_bind]
    refine bind_of_ok hrun ?_
    rw [destroyMnodes, hdb1]
    dsimp only
    rw [if_neg (by omega), pure_eq_ok]
  obtain ⟨hmem, hcases⟩ := destroyMnode_cases hrun
  rcases hcases with ⟨hunlisted, -⟩ | ⟨-, -, -, -, -, -, -, -, -, hlive⟩
  · exact absurd hn.debug hunlisted
  · have hpool : PoolBlocks s1.heap blocks := by
      refine h.pool.mono hmem (fun b hb hin => (hlive b).mpr ⟨hb, ?_, ?_⟩)
      · intro haddr
        rw [haddr] at hin
        exact (h.apart c hc).2 hin
      · rintro rfl
        -- a block of the pool has an unlisted node, and this one is listed
        obtain ⟨node, hsame, hnode⟩ := h.pool.2 _ hin
        obtain rfl := Nat.add_right_cancel hsame
        exact absurd (hn.debug.symm.trans hnode.debug) (by decide)
    obtain ⟨s', hfree, hlive'⟩ := freeBlocks_frees hpool
    refine ⟨s', ?_, fun b hb => ?_⟩
    · unfold destroyDebug
      rw [hdb]
      exact bind_of_ok hloop hfree
    · rw [List.mem_singleton]
      exact ((hlive b).mp ((hlive' b).mp hb).1).2.2

/-- The destruction of a pool leaves every listed node. -/
theorem freeBlocks_keeps {mem : ℕ → UInt8} (hmem : s.heap.mem = mem)
    (hpool : ∀ a ∈ blocks, ∃ node, a = node + mnodeSize ∧ node + mnodeSize < 2 ^ 64 ∧
      wordAt mem (node + debugOffset) % 2 = 0)
    (hc : wordAt mem (c + debugOffset) % 2 = 1) (hlive : ∃ b ∈ s.heap.live, b.addr = c)
    (hrun : freeBlocks blocks s = Except.ok s') : ∃ b ∈ s'.heap.live, b.addr = c := by
  induction blocks generalizing s with
  | nil =>
    cases hrun
    exact hlive
  | cons a blocks ih =>
    obtain ⟨node, rfl, hlt, hdebug⟩ := hpool a List.mem_cons_self
    obtain ⟨s1, hfree, hrun⟩ := bind_eq_ok.mp hrun
    rw [hcoreFree_eq hlt] at hfree
    obtain ⟨hmem1, hcases⟩ := destroyMnode_cases hfree
    refine ih (hmem1.trans hmem) (fun x hx => hpool x (List.mem_cons_of_mem _ hx)) ?_ hrun
    rcases hcases with ⟨-, -, hlive1⟩ | ⟨hlisted, -⟩
    · obtain ⟨b, hb, haddr⟩ := hlive
      refine ⟨b, (hlive1 b).mpr ⟨hb, ?_⟩, haddr⟩
      rw [haddr]
      rintro rfl
      omega
    · rw [hmem] at hlisted
      omega

/-- A node of the list that the loop has passed by: from now on it meets only
other nodes. -/
structure Passed (mem : ℕ → UInt8) (nodes : List ℕ) (c : ℕ) (s : State) : Prop where
  list : ∃ db, s.db = some db ∧ Avoids 1 db.mlist c ∧ ∀ y ∉ nodes, Avoids 0 db.mlist y
  mem : s.heap.mem = mem
  live : ∃ b ∈ s.heap.live, b.addr = c

theorem Passed.destroyMnode {mem : ℕ → UInt8} {node : ℕ} {db : Debug} (h : Passed mem nodes c s)
    (hsymbols : ∀ n ∈ nodes, wordAt mem (n + symbolsOffset) ≠ c) (hdb : s.db = some db)
    (hi : 1 ≤ i) (hlt : i < db.mlist.numItem) (hget : getItem db.mlist i = Except.ok node)
    (hrun : destroyMnode s node = Except.ok s') : Passed mem nodes c s' := by
  obtain ⟨db0, hdb0, hpast, hothers⟩ := h.list
  obtain rfl := Option.some.inj (hdb0.symm.trans hdb)
  obtain ⟨b, hb, haddr⟩ := h.live
  have hne : node ≠ c := by
    rintro rfl
    exact hpast i hi hlt hget
  have hnode : node ∈ nodes := by
    by_contra hout
    exact hothers node hout i (Nat.zero_le i) hlt hget
  obtain ⟨hmem, hcases⟩ := destroyMnode_cases hrun
  rcases hcases with ⟨-, hdb', hlive⟩ | ⟨-, db1, db', bk, bk', ok, hdb1, hdb', hdelete, hlive⟩
  · refine ⟨⟨db0, hdb'.trans hdb0, hpast, hothers⟩, hmem.trans h.mem, b, ?_, haddr⟩
    exact (hlive b).mpr ⟨hb, by rw [haddr]; exact hne.symm⟩
  · obtain rfl := Option.some.inj (hdb0.symm.trans hdb1)
    refine ⟨⟨db', hdb', hpast.delete hdelete, fun y hy => (hothers y hy).delete hdelete⟩,
      hmem.trans h.mem, b, (hlive b).mpr ⟨hb, ?_, ?_⟩, haddr⟩
    · rw [haddr, symbolsOf, h.mem]
      exact (hsymbols node hnode).symm
    · rw [haddr]
      exact hne.symm

/-- The rest of the loop does not come back to it. -/
theorem Passed.destroyMnodes {mem : ℕ → UInt8} (h : Passed mem nodes c s)
    (hsymbols : ∀ n ∈ nodes, wordAt mem (n + symbolsOffset) ≠ c) (hi : 1 ≤ i)
    (hrun : destroyMnodes fuel i s = Except.ok s') : Passed mem nodes c s' := by
  induction fuel generalizing i s with
  | zero => cases hrun
  | succ fuel ih =>
    rw [DebugTeardown.destroyMnodes] at hrun
    split at hrun
    · cases hrun
    · next db hdb =>
      split at hrun
      · next hlt =>
        obtain ⟨node, hget, hrun⟩ := bind_eq_ok.mp hrun
        obtain ⟨s1, hdestroy, hrun⟩ := bind_eq_ok.mp hrun
        exact ih (h.destroyMnode hsymbols hdb hi hlt hget hdestroy) (by omega) hrun
      · cases hrun
        exact h

theorem Tracks.avoids_others {db : Debug} {y : ℕ} (h : Tracks s nodes blocks)
    (hdb : s.db = some db) (hy : y ∉ nodes) : Avoids 0 db.mlist y := by
  obtain ⟨db0, hdb0, hitems⟩ := h.list
  obtain rfl := Option.some.inj (hdb0.symm.trans hdb)
  obtain ⟨hnum, hget⟩ := contents_get hitems
  intro j _ hj hat
  rw [hnum] at hj
  rw [hget j hj] at hat
  refine hy ?_
  rw [← Except.ok.inj hat]
  exact List.getElem_mem _

/-- The first round destroys the node in front and moves the next one to its place. -/
theorem Tracks.passed {n : ℕ} (h : Tracks s (n :: c :: nodes) blocks)
    (hsymbols : wordAt s.heap.mem (n + symbolsOffset) ≠ c)
    (hrun : destroyMnode s n = Except.ok s') :
    Passed s.heap.mem (n :: c :: nodes) c s' := by
  obtain ⟨db, hdb, hitems⟩ := h.list
  have hc : c ∈ n :: c :: nodes := List.mem_cons_of_mem n List.mem_cons_self
  obtain ⟨hmem, hcases⟩ := destroyMnode_cases hrun
  rcases hcases with ⟨hunlisted, -⟩ | ⟨-, db0, db', bk, bk', ok, hdb0, hdb', hdelete, hlive⟩
  · exact absurd (h.node n List.mem_cons_self).debug hunlisted
  · obtain rfl := Option.some.inj (hdb.symm.trans hdb0)
    obtain ⟨b, hb, haddr, -⟩ := (h.node c hc).block
    refine ⟨⟨db', hdb', avoids_second hitems h.nodup hdelete,
      fun y hy => (h.avoids_others hdb hy).delete hdelete⟩, hmem, b, (hlive b).mpr ⟨hb, ?_, ?_⟩,
      haddr⟩
    · rw [haddr]
      exact hsymbols.symm
    · rw [haddr]
      rintro rfl
      exact (List.nodup_cons.mp h.nodup).1 List.mem_cons_self

/-- The second node of the list is still allocated behind the teardown. -/
theorem Tracks.second_survives {n : ℕ} (h : Tracks s (n :: c :: nodes) blocks)
    (hrun : destroyDebug s blocks = Except.ok s') : ∃ b ∈ s'.heap.live, b.addr = c := by
  obtain ⟨db, hdb, hitems⟩ := h.list
  obtain ⟨hnum, hget⟩ := contents_get hitems
  rw [List.length_cons, List.length_cons] at hnum
  have hc : c ∈ n :: c :: nodes := List.mem_cons_of_mem n List.mem_cons_self
  have hsymbols (m : ℕ) (hm : m ∈ n :: c :: nodes) :
      wordAt s.heap.mem (m + symbolsOffset) ≠ c := by
    rintro heq
    refine (h.apart m hm).1 ?_
    rw [symbolsOf, heq]
    exact hc
  unfold destroyDebug at hrun
  rw [hdb] at hrun
  obtain ⟨s2, hloop, hrun⟩ := bind_eq_ok.mp hrun
  rw [DebugTeardown.destroyMnodes, hdb] at hloop
  dsimp only at hloop
  rw [if_pos (by omega), hget 0 (by simp), ok_bind] at hloop
  obtain ⟨s1, hdestroy, hloop⟩ := bind_eq_ok.mp hloop
  have hpassed := h.passed (hsymbols n List.mem_cons_self) hdestroy
  have hend := hpassed.destroyMnodes hsymbols (le_refl 1) hloop
  refine freeBlocks_keeps hend.mem (fun a ha => ?_) (h.node c hc).debug hend.live hrun
  obtain ⟨node, hnode, hat⟩ := h.pool.2 a ha
  exact ⟨node, hnode, hat.lt, hat.debug⟩

theorem Tracks.destroys_iff (h : Tracks s nodes blocks) :
    DestroysAll s nodes blocks ↔ nodes.length ≤ 1 := by
  rcases nodes with _ | ⟨n, _ | ⟨c, nodes⟩⟩
  · exact iff_of_true h.nil_destroys (by simp)
  · exact iff_of_true h.single_destroys (by simp)
  · refine iff_of_false ?_ (by simp)
    rintro ⟨s', hrun, hgone⟩
    obtain ⟨b, hb, rfl⟩ := h.second_survives hrun
    exact hgone b hb (List.mem_cons_of_mem n List.mem_cons_self)

end

/-- **The teardown destroys every node** of the debug object exactly when its
list has at most one. -/
theorem debug_teardown_iff (s : State) (nodes blocks : List ℕ) (h : Tracks s nodes blocks) :
    DestroysAll s nodes blocks ↔ nodes.length ≤ 1 := h.destroys_iff

/-- Two listed nodes of eight bytes each, and the node of the only block of the
pool. -/
def twoBlocks : List Block :=
  [⟨2, 8192, mnodeSize + 8⟩, ⟨1, 4096, mnodeSize + 8⟩, ⟨0, 12288, mnodeSize + poolSizeDefault⟩]

theorem twoBlocks_inRange : ∀ b ∈ twoBlocks, 0 < b.addr ∧ b.addr + b.size < 2 ^ 64 := by decide

theorem twoBlocks_apart : twoBlocks.Pairwise Block.Apart := by
  simp [twoBlocks, Block.Apart, mnodeSize]

def twoMem : ℕ → UInt8 :=
  let mem := headerOf (fun _ => 0) 12288 poolSizeDefault .memalign
  let mem := writeAt (headerOf mem 4096 8 .malloc) (4096 + debugOffset) (encode64 1)
  writeAt (headerOf mem 8192 8 .malloc) (8192 + debugOffset) (encode64 1)

def twoNodes : State where
  heap := ⟨twoMem, twoBlocks, 3, twoBlocks_inRange, twoBlocks_apart⟩
  backends := ampleBackends
  db := some ⟨⟨false, 2, 32, some ([some 4096, some 8192] ++ fresh 30), some (mnodeCmp twoMem), true⟩,
    16, 2, 0, 16, 0⟩

theorem twoNodes_tracks : Tracks twoNodes [4096, 8192] [12288 + mnodeSize] where
  list := ⟨_, rfl, by decide⟩
  nodup := by decide
  node := by
    intro n hn
    simp only [List.mem_cons, List.not_mem_nil, or_false] at hn
    rcases hn with rfl | rfl
    · exact ⟨⟨_, List.mem_cons_of_mem _ List.mem_cons_self, rfl, by decide⟩, by decide, by decide⟩
    · exact ⟨⟨_, List.mem_cons_self, rfl, by decide⟩, by decide, by decide⟩
  symbols := by
    intro n hn
    simp only [List.mem_cons, List.not_mem_nil, or_false] at hn
    rcases hn with rfl | rfl
    · exact Or.inl (by decide)
    · exact Or.inl (by decide)
  apart := by decide
  pool := by
    refine ⟨by decide, fun a ha => ?_⟩
    obtain rfl := List.mem_singleton.mp ha
    exact ⟨12288, rfl, ⟨_, List.mem_of_getElem? (i := 2) rfl, rfl, by decide⟩, by decide, by decide⟩

theorem debug_teardown_two :
    DestroysAll twoNodes [4096, 8192] [12288 + mnodeSize] ↔ [4096, 8192].length ≤ 1 :=
  debug_teardown_iff _ _ _ twoNodes_tracks

/-- Of two nodes the second one is left. -/
theorem debug_teardown_leaves :
    ¬ ∀ s nodes blocks, Tracks s nodes blocks → DestroysAll s nodes blocks := by
  intro h
  have hfew := twoNodes_tracks.destroys_iff.mp (h _ _ _ twoNodes_tracks)
  exact absurd hfew (by decide)

end HCore.DebugTeardown
