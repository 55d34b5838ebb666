import HCore.SortedList

/-!
The list of pointers with its block, on both of its back ends: a memory pool,
or malloc and realloc when its pool is NULL. An array grows by doubling, and
the counters change before the answer of the allocator overwrites the only
pointer to the items. Creation tests the pool where it means the block.
-/

namespace HCore.ListBackends

open Machine PoolRequests
open SortedList (Libc listSize listInitNumReserved)

/-- The answers of a memory pool, and those of malloc and realloc. -/
structure Backends where
  pool : Pool
  libc : Pool

/-- The slots of a block; one that was never written is `none`. -/
abbrev Cells (α : Type) := List (Option α)

/-- `hcore_list_t`: `pool` says that it is not NULL, and a `p` that is NULL is
`none`. -/
structure PList (α : Type) where
  pool : Bool
  numItem : ℕ
  numReserved : ℕ
  p : Option (Cells α)
  cmp : Option (α → α → ℤ)
  sorted : Bool

variable {α : Type}

def fresh (n : ℕ) : Cells α := List.replicate n none

/-- A block of `n` slots with the first slots of another. -/
def resize (cells : Cells α) (n : ℕ) : Cells α := cells.take n ++ fresh (n - cells.length)

/-- `hcore_list_alloc`: whether the result is not NULL. -/
def listAlloc (b : Backends) (pooled : Bool) (size : ℕ) : Bool × Backends :=
  if pooled then ((b.pool.palloc size).1, { b with pool := (b.pool.palloc size).2 })
  else ((b.libc.palloc size).1, { b with libc := (b.libc.palloc size).2 })

/-- `hcore_prealloc` of a block of `old` slots. -/
def prealloc (pool : Pool) (p : Option (Cells α)) (old new : ℕ) : Option (Cells α) × Pool :=
  match p with
  | none =>
    match pool.palloc (8 * new) with
    | (false, pool) => (none, pool)
    | (true, pool) => (some (fresh new), pool)
  | some cells =>
    if new = 0 then (none, pool)
    else if pool.inPlace pool.calls then (some (resize cells new), pool.tick)
    else if new ≤ old then (some cells, pool)
    else
      match pool.palloc (8 * new) with
      | (false, pool) => (none, pool)
      | (true, pool) => (some (resize (cells.take old) new), pool)

/-- `realloc` of the C library. -/
def realloc (libc : Pool) (p : Option (Cells α)) (new : ℕ) : Option (Cells α) × Pool :=
  match libc.palloc (8 * new) with
  | (false, libc) => (none, libc)
  | (true, libc) => (some (resize (p.getD []) new), libc)

/-- `hcore_list_realloc`. -/
def listRealloc (b : Backends) (pooled : Bool) (p : Option (Cells α)) (old new : ℕ) :
    Option (Cells α) × Backends :=
  if pooled then
    let (p, pool) := prealloc b.pool p old new
    (p, { b with pool })
  else
    let (p, libc) := realloc b.libc p new
    (p, { b with libc })

/-- `hcore_init_list` of a list in memory with any contents: whether it
returns `HCORE_OK`. -/
def initList (b : Backends) (pooled : Bool) (l : PList α) (compare : Option (α → α → ℤ)) :
    Bool × PList α × Backends :=
  let (ok, b) := listAlloc b pooled (8 * listInitNumReserved)
  let l := { l with
    numReserved := listInitNumReserved
    numItem := 0
    pool := pooled
    p := if ok then some (fresh listInitNumReserved) else none }
  if pooled = false then (false, l, b)
  else (true, { l with cmp := compare, sorted := true }, b)

/-- `hcore_create_list`; the memory of the new list is given. -/
def createList (b : Backends) (pooled : Bool) (memory : PList α)
    (compare : Option (α → α → ℤ)) : Option (PList α) × Backends :=
  match listAlloc b pooled listSize with
  | (false, b) => (none, b)
  | (true, b) =>
    match initList b pooled memory compare with
    | (false, _, b) => (none, b)
    | (true, l, b) => (some l, b)

/-- What an operation returns: a status, a pointer or nothing. -/
inductive Ret (α : Type)
  | status (ok : Bool)
  | pointer (x : Option α)
  | void
  deriving DecidableEq

/-- How a sequence of operations starts: the memory of the list is given. -/
inductive Start (α : Type)
  | create (memory : PList α)
  | init (list : PList α)

/-- The call that makes the list: its status or whether its result is not
NULL, and the list that later calls are given. -/
def listStart (b : Backends) (pooled : Bool) (start : Start α) (compare : Option (α → α → ℤ)) :
    Ret α × Option (PList α) × Backends :=
  match start with
  | .create memory =>
    match createList b pooled memory compare with
    | (list, b) => (.status list.isSome, list, b)
  | .init list =>
    match initList b pooled list compare with
    | (ok, list, b) => (.status ok, some list, b)

/-- Both back ends always have memory. -/
structure Backends.Granting (b : Backends) : Prop where
  pool : b.pool.Granting
  libc : b.libc.Granting

theorem listAlloc_granting {b : Backends} (h : b.Granting) (pooled : Bool) (size : ℕ) :
    ∃ b', listAlloc b pooled size = (true, b') ∧ b'.Granting := by
  cases pooled with
  | false =>
    refine ⟨{ b with libc := b.libc.tick }, ?_, h.pool, h.libc⟩
    simp [listAlloc, h.libc.palloc]
  | true =>
    refine ⟨{ b with pool := b.pool.tick }, ?_, h.pool, h.libc⟩
    simp [listAlloc, h.pool.palloc]

/-- With memory, a list is made in a pool and is not made without one. -/
theorem listStart_status {b : Backends} (h : b.Granting) (pooled : Bool) (start : Start α)
    (compare : Option (α → α → ℤ)) : (listStart b pooled start compare).1 = .status pooled := by
  cases start with
  | create memory =>
    obtain ⟨b1, hlist, hb1⟩ := listAlloc_granting h pooled listSize
    cases pooled <;> simp [listStart, createList, initList, hlist]
  | init list => cases pooled <;> simp [listStart, initList]

/-- Without a pool no list is created. -/
theorem createList_unpooled (b : Backends) (memory : PList α) (compare : Option (α → α → ℤ)) :
    (createList b false memory compare).1 = none := by
  unfold createList
  rcases listAlloc b false listSize with ⟨ok, b1⟩
  cases ok <;> rfl

/-- `list->p[i]` -/
def getItem (l : PList α) (i : ℕ) : Exec α :=
  match l.p with
  | none => undefined
  | some cells =>
    match cells[i]? with
    | some (some x) => pure x
    | _ => undefined

/-- `list->p[i] = x` -/
def putItem (l : PList α) (i : ℕ) (x : α) : Exec (PList α) :=
  match l.p with
  | none => undefined
  | some cells =>
    if i < cells.length then pure { l with p := some (cells.set i (some x)) } else undefined

/-- The items, if all of them can be read. -/
def contents (l : PList α) : Option (List α) :=
  if l.numItem = 0 then some []
  else l.p.bind fun cells =>
    if l.numItem ≤ cells.length then (cells.take l.numItem).mapM id else none

/-- The block of a list that counts more items than it has room for. -/
def listGrow (b : Backends) (l : PList α) : PList α × Backends :=
  if l.numReserved < l.numItem then
    let numReserved := toUInt32 (2 * l.numReserved : ℕ)
    let (p, b) := listRealloc b l.pool l.p l.numReserved numReserved
    ({ l with numReserved, p }, b)
  else (l, b)

/-- `hcore_list_add`: whether it returns `HCORE_OK`. -/
def listAdd (b : Backends) (l : PList α) (x? : Option α) : Exec (Bool × PList α × Backends) :=
  match x? with
  | none => pure (false, l, b)
  | some x =>
    let i := l.numItem
    let counted := { l with numItem := toUInt32 (i + 1 : ℕ) }
    let (l, b) := listGrow b counted
    if counted.numReserved < counted.numItem ∧ l.p.isNone = true then pure (false, l, b)
    else do
      let l ← putItem l i x
      pure (true, { l with sorted := false }, b)

variable (lib : Libc α)

/-- `hcore_list_sort`. -/
def listSort (l : PList α) : Exec (PList α) :=
  match l.cmp with
  | none => pure l
  | some cmp =>
    match contents l with
    | none => undefined
    | some items =>
      pure { l with
        p := l.p.map fun cells => (lib.qsort cmp items).map some ++ cells.drop l.numItem
        sorted := true }

def ensureSorted (l : PList α) : Exec (PList α) := if l.sorted then pure l else listSort lib l

/-- The loop `while (low <= high)` of the insertion. -/
def insertPos (compare : α → ℤ) (l : PList α) : ℕ → ℤ → ℤ → Exec ℕ
  | 0, _, _ => outOfFuel
  | fuel + 1, low, high =>
    if low ≤ high then
      if 2 ^ 31 ≤ low + high then undefined
      else do
        let middle := (low + high) / 2
        let y ← getItem l middle.toNat
        if compare y = 0 then pure middle.toNat
        else if 0 < compare y then insertPos compare l fuel low (middle - 1)
        else insertPos compare l fuel (middle + 1) high
    else pure low.toNat

/-- The `n` items from `pos` on move up by one, the last one first. -/
def shiftUp (pos : ℕ) : ℕ → PList α → Exec (PList α)
  | 0, l => pure l
  | n + 1, l => do
    let y ← getItem l (pos + n)
    let l ← putItem l (pos + n + 1) y
    shiftUp pos n l

/-- The items from `pos` on make room for another. -/
def makeGap (l : PList α) (pos : ℕ) : Exec (PList α) :=
  if 2 ≤ l.numItem then shiftUp pos (toInt32 ((l.numItem : ℤ) - 2) + 1 - pos).toNat l else pure l

/-- `hcore_list_insert`. Without a comparison it returns `HCORE_OK` whatever
`hcore_list_add` returns; with one it does not look at the new block. -/
def listInsert (b : Backends) (l : PList α) (x? : Option α) :
    Exec (Bool × PList α × Backends) :=
  match x? with
  | none => pure (false, l, b)
  | some x =>
    match l.cmp with
    | none => do
      let (_, l, b) ← listAdd b l (some x)
      pure (true, l, b)
    | some cmp => do
      let l ← ensureSorted lib l
      let pos ← insertPos (fun y => cmp y x) l (l.numItem + 1) 0 (toInt32 ((l.numItem : ℤ) - 1))
      let (l, b) := listGrow b { l with numItem := toUInt32 (l.numItem + 1 : ℕ) }
      let l ← makeGap l pos
      let l ← putItem l pos x
      pure (true, l, b)

/-- The block has to grow for one more item, and there is no memory. -/
structure GrowthFails (b : Backends) (l : PList α) : Prop where
  full : l.numReserved < toUInt32 (l.numItem + 1 : ℕ)
  refused : (listRealloc b l.pool l.p l.numReserved
    (toUInt32 (2 * l.numReserved : ℕ))).1.isNone = true

/-- The `n` items behind `i` move down by one. -/
def shiftDown : ℕ → ℕ → PList α → Exec (PList α)
  | 0, _, l => pure l
  | n + 1, i, l => do
    let y ← getItem l (i + 1)
    let l ← putItem l i y
    shiftDown n (i + 1) l

section

variable {lib} {b b' : Backends} {l l' : PList α} {x : α} {ok : Bool} {n : ℕ}

theorem toUInt32_succ_ne (n : ℕ) : toUInt32 (n + 1 : ℕ) ≠ n := by
  unfold toUInt32
  omega

/-- An addition that cannot grow its block has already counted the item. -/
theorem listAdd_counts (hfail : GrowthFails b l)
    (h : listAdd b l (some x) = Except.ok (ok, l', b')) : l'.numItem ≠ l.numItem := by
  have hgrow : listGrow b { l with numItem := toUInt32 (l.numItem + 1 : ℕ) } =
      ({ l with
        numItem := toUInt32 (l.numItem + 1 : ℕ)
        numReserved := toUInt32 (2 * l.numReserved : ℕ)
        p := (listRealloc b l.pool l.p l.numReserved (toUInt32 (2 * l.numReserved : ℕ))).1 },
      (listRealloc b l.pool l.p l.numReserved (toUInt32 (2 * l.numReserved : ℕ))).2) :=
    if_pos hfail.full
  unfold listAdd at h
  dsimp only at h
  rw [hgrow, if_pos ⟨hfail.full, hfail.refused⟩] at h
  cases h
  exact toUInt32_succ_ne _

/-- An insertion of an item never reports a failure. -/
theorem listInsert_ok (h : listInsert lib b l (some x) = Except.ok (ok, l', b')) : ok = true := by
  unfold listInsert at h
  dsimp only at h
  split at h
  · obtain ⟨r, -, h⟩ := bind_eq_ok.mp h
    cases h
    rfl
  · obtain ⟨l1, -, h⟩ := bind_eq_ok.mp h
    obtain ⟨pos, -, h⟩ := bind_eq_ok.mp h
    obtain ⟨l2, -, h⟩ := bind_eq_ok.mp h
    obtain ⟨l3, -, h⟩ := bind_eq_ok.mp h
    cases h
    rfl

/-- What moving items does not touch. -/
structure SameFrame (l l' : PList α) : Prop where
  pool : l'.pool = l.pool
  numItem : l'.numItem = l.numItem
  numReserved : l'.numReserved = l.numReserved
  block : l'.p.isNone = l.p.isNone

theorem putItem_frame {i : ℕ} (h : putItem l i x = Except.ok l') : SameFrame l l' := by
  unfold putItem at h
  split at h
  · cases h
  · next cells hp =>
    split at h
    · cases h
      exact ⟨rfl, rfl, rfl, by rw [hp]; rfl⟩
    · cases h

theorem shiftDown_frame {i : ℕ} (h : shiftDown n i l = Except.ok l') : SameFrame l l' := by
  induction n generalizing i l with
  | zero =>
    cases h
    exact ⟨rfl, rfl, rfl, rfl⟩
  | succ n ih =>
    obtain ⟨y, -, h⟩ := bind_eq_ok.mp h
    obtain ⟨l1, hput, h⟩ := bind_eq_ok.mp h
    have hframe := putItem_frame hput
    have hrest := ih h
    exact ⟨hrest.pool.trans hframe.pool, hrest.numItem.trans hframe.numItem,
      hrest.numReserved.trans hframe.numReserved, hrest.block.trans hframe.block⟩

/-- Whether there is memory does not depend on what the block holds. -/
theorem listRealloc_isNone {p p' : Option (Cells α)} (h : p'.isNone = p.isNone) (pooled : Bool)
    (old new : ℕ) :
    (listRealloc b pooled p' old new).1.isNone = (listRealloc b pooled p old new).1.isNone := by
  unfold listRealloc
  cases pooled with
  | false =>
    dsimp only [realloc]
    rcases b.libc.palloc (8 * new) with ⟨ok, libc⟩
    cases ok <;> rfl
  | true =>
    dsimp only [prealloc]
    cases p with
    | none =>
      obtain rfl := Option.isNone_iff_eq_none.mp h
      rfl
    | some cells =>
      cases p' with
      | none => cases h
      | some cells' =>
        dsimp only
        by_cases hnew : new = 0
        · simp only [if_pos hnew]
          rfl
        · by_cases hplace : b.pool.inPlace b.pool.calls = true
          · simp only [if_neg hnew, if_pos hplace]
            rfl
          · by_cases hle : new ≤ old
            · simp only [if_neg hnew, if_neg hplace, if_pos hle]
              rfl
            · simp only [if_neg hnew, if_neg hplace, if_neg hle]
              rcases b.pool.palloc (8 * new) with ⟨ok, pool⟩
              cases ok <;> rfl

theorem getItem_none (h : l.p = none) (i : ℕ) : getItem l i = undefined := by
  unfold getItem
  rw [h]

end

variable [DecidableEq α]

/-- The first of the `n` items from `i` on that is `x`. -/
def findItem (x : α) (l : PList α) : ℕ → ℕ → Exec (Option ℕ)
  | 0, _ => pure none
  | n + 1, i => do
    let y ← getItem l i
    if y = x then pure (some i) else findItem x l n (i + 1)

/-- The block of a list that has lost an item. -/
def listShrink (b : Backends) (l : PList α) : PList α × Backends :=
  if toUInt32 (2 * l.numItem : ℕ) ≤ l.numReserved ∧ 2 * listInitNumReserved < l.numReserved then
    let numReserved := l.numReserved / 2
    let (p, b) := listRealloc b l.pool l.p l.numReserved numReserved
    ({ l with numReserved, p }, b)
  else (l, b)

/-- `hcore_list_delete`. -/
def listDelete (b : Backends) (l : PList α) (x? : Option α) :
    Exec (Bool × PList α × Backends) :=
  match x? with
  | none => pure (false, l, b)
  | some x => do
    match ← findItem x l l.numItem 0 with
    | none => pure (false, l, b)
    | some n => do
      let l ← shiftDown (l.numItem - 1 - n) n l
      let (l, b) := listShrink b { l with numItem := l.numItem - 1 }
      pure (true, l, b)

/-- `hcore_list_delete_all`. -/
def listDeleteAll (b : Backends) (l : PList α) : PList α × Backends :=
  let (p, b) := listRealloc b l.pool l.p l.numReserved listInitNumReserved
  ({ l with numItem := 0, numReserved := listInitNumReserved, p }, b)

/-- `hcore_list_search`. -/
def listSearch (l : PList α) (target? : Option α) : Exec (Option α × PList α) :=
  match target? with
  | none => pure (none, l)
  | some target =>
    match l.cmp with
    | none => pure (none, l)
    | some cmp => do
      let l ← ensureSorted lib l
      match contents l with
      | none => undefined
      | some items => pure (lib.bsearch (cmp target) items, l)

/-- An operation; an item that is NULL is `none`. -/
inductive Op (α : Type)
  | add (x : Option α)
  | insert (x : Option α)
  | sort
  | delete (x : Option α)
  | deleteAll
  | search (target : Option α)

/-- An operation on a list that may be NULL. -/
def listStep (b : Backends) (list : Option (PList α)) (op : Op α) :
    Exec (Ret α × Option (PList α) × Backends) :=
  match list with
  | none =>
    match op with
    | .add _ | .insert _ | .delete _ => pure (.status false, none, b)
    | .sort | .deleteAll => pure (.void, none, b)
    | .search _ => pure (.pointer none, none, b)
  | some l =>
    match op with
    | .add x => do
      let (ok, l, b) ← listAdd b l x
      pure (.status ok, some l, b)
    | .insert x => do
      let (ok, l, b) ← listInsert lib b l x
      pure (.status ok, some l, b)
    | .sort => do
      let l ← listSort lib l
      pure (.void, some l, b)
    | .delete x => do
      let (ok, l, b) ← listDelete b l x
      pure (.status ok, some l, b)
    | .deleteAll =>
      let (l, b) := listDeleteAll b l
      pure (.void, some l, b)
    | .search target => do
      let (x, l) ← listSearch lib l target
      pure (.pointer x, some l, b)

/-- What a caller sees of each operation: its result and the items after it. -/
def observe : Backends → Option (PList α) → List (Op α) →
    List (Exec (Ret α × Option (List α)))
  | _, _, [] => []
  | b, list, op :: ops =>
    match listStep lib b list op with
    | .error e => [.error e]
    | .ok (r, list, b) => .ok (r, list.bind contents) :: observe b list ops

/-- What a caller sees of a sequence of operations on one of the back ends. -/
def observeFrom (b : Backends) (pooled : Bool) (start : Start α)
    (compare : Option (α → α → ℤ)) (ops : List (Op α)) :
    List (Exec (Ret α × Option (List α))) :=
  match listStart b pooled start compare with
  | (r, list, b) => .ok (r, list.bind contents) :: observe lib b list ops

/-- The block shrinks for one item less, and there is no memory. -/
structure ShrinkFails (b : Backends) (l : PList α) : Prop where
  sparse : toUInt32 (2 * (l.numItem - 1) : ℕ) ≤ l.numReserved
  large : 2 * listInitNumReserved < l.numReserved
  refused : (listRealloc b l.pool l.p l.numReserved (l.numReserved / 2)).1.isNone = true

/-- An allocation fails inside the call. -/
inductive Fails (b : Backends) (l : PList α) : Op α → Prop
  | add (x : α) (h : GrowthFails b l) : Fails b l (.add (some x))
  | insert (x : α) (h : GrowthFails b l) : Fails b l (.insert (some x))
  | delete (x : α) (n : ℕ) (hfound : findItem x l l.numItem 0 = Except.ok (some n))
      (h : ShrinkFails b l) : Fails b l (.delete (some x))
  | deleteAll (h : (listRealloc b l.pool l.p l.numReserved listInitNumReserved).1.isNone = true) :
      Fails b l .deleteAll

/-- Items, counters and block are kept; the items may have been sorted. -/
structure Kept (l l' : PList α) : Prop where
  numItem : l'.numItem = l.numItem
  numReserved : l'.numReserved = l.numReserved
  block : l'.p.isNone = l.p.isNone
  items : ∀ items, contents l = some items → ∃ items', contents l' = some items' ∧ items'.Perm items

/-- What a call leaves of the list when an allocation fails inside it. -/
def Survives (b : Backends) (l : PList α) : Op α → Prop
  | .add x => ∃ l' b', listStep lib b (some l) (.add x) = Except.ok (.status false, some l', b') ∧
      Kept l l'
  | .insert x =>
      ∃ l' b', listStep lib b (some l) (.insert x) = Except.ok (.status false, some l', b') ∧
        Kept l l'
  | .delete x => ∃ l' b', listStep lib b (some l) (.delete x) =
        Except.ok (.status true, some l', b') ∧
      ∀ n, x.elim (Except.ok none) (fun x => findItem x l l.numItem 0) = Except.ok (some n) →
        ∀ k < l.numItem - 1, ∃ y, getItem l (if k < n then k else k + 1) = Except.ok y ∧
          getItem l' k = Except.ok y
  | .deleteAll => ∃ l' b', listStep lib b (some l) .deleteAll = Except.ok (.void, some l', b') ∧
      ∀ k < l'.numItem, ∃ y, getItem l' k = Except.ok y
  | .sort | .search _ => True

/-- The call leaves no item in the list. -/
def EmptiesList (l : PList α) : Op α → Prop
  | .deleteAll => True
  | .delete _ => l.numItem = 1
  | _ => False

section

variable {b b' : Backends} {l l' : PList α} {op : Op α} {x : α} {ok : Bool} {n k : ℕ}

theorem findItem_range {i : ℕ} (h : findItem x l n i = Except.ok (some k)) :
    i ≤ k ∧ k < i + n := by
  induction n generalizing i with
  | zero => cases h
  | succ n ih =>
    obtain ⟨y, -, h⟩ := bind_eq_ok.mp h
    split at h
    · cases h
      exact ⟨le_refl _, by omega⟩
    · have hrange := ih h
      omega

/-- A deletion that cannot shrink its block loses it. -/
theorem listDelete_loses (hfound : findItem x l l.numItem 0 = Except.ok (some n))
    (hfail : ShrinkFails b l) (h : listDelete b l (some x) = Except.ok (ok, l', b')) :
    l'.p = none := by
  unfold listDelete at h
  dsimp only at h
  rw [hfound, ok_bind] at h
  obtain ⟨l1, hshift, h⟩ := bind_eq_ok.mp h
  have hframe := shiftDown_frame hshift
  have hshrink : toUInt32 (2 * (l1.numItem - 1) : ℕ) ≤ l1.numReserved ∧
      2 * listInitNumReserved < l1.numReserved := by
    rw [hframe.numItem, hframe.numReserved]
    exact ⟨hfail.sparse, hfail.large⟩
  have hrefused : (listRealloc b l1.pool l1.p l1.numReserved (l1.numReserved / 2)).1.isNone = true := by
    rw [listRealloc_isNone hframe.block, hframe.pool, hframe.numReserved]
    exact hfail.refused
  unfold listShrink at h
  dsimp only at h
  rw [if_pos hshrink] at h
  cases h
  exact Option.isNone_iff_eq_none.mp hrefused

/-- A deletion of the only item returns. -/
theorem listDelete_only (hfound : findItem x l l.numItem 0 = Except.ok (some n))
    (hone : l.numItem = 1) : ∃ l' b', listDelete b l (some x) = Except.ok (true, l', b') := by
  obtain ⟨-, hlt⟩ := findItem_range hfound
  obtain rfl : n = 0 := by omega
  refine ⟨(listShrink b { l with numItem := l.numItem - 1 }).1,
    (listShrink b { l with numItem := l.numItem - 1 }).2, ?_⟩
  have hnone : l.numItem - 1 - 0 = 0 := by omega
  have hshift : shiftDown (l.numItem - 1 - 0) 0 l = Except.ok l := by
    rw [hnone]
    rfl
  unfold listDelete
  dsimp only
  rw [hfound, ok_bind]
  exact bind_of_ok hshift rfl

/-- When an allocation fails inside a call, the list is as it has to be exactly
when the call leaves no item in it. -/
theorem failed_alloc_survives_iff (hfail : Fails b l op) :
    Survives lib b l op ↔ EmptiesList l op := by
  cases hfail with
  | add x h =>
    refine iff_of_false ?_ id
    rintro ⟨l', b', hstep, hkept⟩
    obtain ⟨⟨ok, l1, b1⟩, hadd, hret⟩ := bind_eq_ok.mp hstep
    cases hret
    exact listAdd_counts h hadd hkept.numItem
  | insert x h =>
    refine iff_of_false ?_ id
    rintro ⟨l', b', hstep, -⟩
    obtain ⟨⟨ok, l1, b1⟩, hinsert, hret⟩ := bind_eq_ok.mp hstep
    cases hret
    cases listInsert_ok hinsert
  | delete x n hfound h =>
    constructor
    · rintro ⟨l', b', hstep, hitems⟩
      obtain ⟨⟨ok, l1, b1⟩, hdelete, hret⟩ := bind_eq_ok.mp hstep
      cases hret
      have hlost := listDelete_loses hfound h hdelete
      by_contra hmany
      obtain ⟨-, hlt⟩ := findItem_range hfound
      have hpos : 0 < l.numItem - 1 := by
        unfold EmptiesList at hmany
        omega
      obtain ⟨y, -, hread⟩ := hitems n hfound 0 hpos
      rw [getItem_none hlost] at hread
      cases hread
    · intro hone
      obtain ⟨l', b', hdelete⟩ := listDelete_only (b := b) hfound hone
      refine ⟨l', b', bind_of_ok hdelete rfl, ?_⟩
      intro n' _ k hk
      unfold EmptiesList at hone
      omega
  | deleteAll h =>
    refine iff_of_true ⟨_, _, rfl, ?_⟩ trivial
    intro k hk
    exact absurd hk (Nat.not_lt_zero k)

end

/-- A pool that has served two requests, and refuses all others. -/
def servedTwo : Backends := ⟨⟨fun i _ => decide (i < 2), fun _ => false, 2⟩, amplePool⟩

/-- A list without comparison after 32 additions: its first block is full. -/
def fullList : PList ℕ := ⟨true, 32, 32, some ((List.range 32).map some), none, false⟩

theorem fullList_fails : Fails servedTwo fullList (.add (some 32)) := .add 32 ⟨by decide, by decide⟩

theorem failed_alloc_survives_full :
    Survives SortedList.stdlib servedTwo fullList (.add (some 32)) ↔
      EmptiesList fullList (.add (some 32)) :=
  failed_alloc_survives_iff SortedList.stdlib fullList_fails

/-- The 33rd item is counted, and the block of the other 32 is lost. -/
theorem full_add_not_atomic : ¬ ∀ (lib : Libc ℕ) (b : Backends) (l : PList ℕ) (op : Op ℕ),
    Fails b l op → Survives lib b l op := by
  intro hall
  obtain ⟨l', b', hstep, hkept⟩ := hall SortedList.stdlib servedTwo fullList _ fullList_fails
  obtain ⟨⟨ok, l1, b1⟩, hadd, hret⟩ := bind_eq_ok.mp hstep
  have hcount : (listAdd servedTwo fullList (some 32)).map (fun r => r.2.1.numItem) =
      Except.ok 33 := by decide
  rw [hadd] at hcount
  cases hret
  cases hcount.symm.trans (congrArg Except.ok hkept.numItem)

section

variable {b : Backends}

/-- The back ends differ from the first call on: without a pool no list is made
although there is memory. -/
theorem backends_differ (h : b.Granting) (start : Start α) (compare : Option (α → α → ℤ))
    (ops : List (Op α)) :
    (listStart b false start compare).1 = .status false ∧
      observeFrom lib b true start compare ops ≠ observeFrom lib b false start compare ops := by
  refine ⟨listStart_status h false start compare, ?_⟩
  intro heq
  obtain ⟨hhead, -⟩ := List.cons.inj heq
  have hret : (listStart b true start compare).1 = (listStart b false start compare).1 :=
    (Prod.mk.inj (Except.ok.inj hhead)).1
  rw [listStart_status h, listStart_status h] at hret
  cases hret

end

/-- Both back ends always have memory, and never behind the last block. -/
def ampleBackends : Backends := ⟨amplePool, amplePool⟩

theorem ampleBackends_granting : ampleBackends.Granting :=
  ⟨amplePool_granting, amplePool_granting⟩

theorem backends_differ_create :
    observeFrom SortedList.stdlib ampleBackends true (.create fullList) none [] ≠
      observeFrom SortedList.stdlib ampleBackends false (.create fullList) none [] :=
  (backends_differ SortedList.stdlib ampleBackends_granting (.create fullList) none []).2

/-- A list that is created without a pool is NULL. -/
theorem create_without_pool : ¬ ∀ (lib : Libc ℕ) (b : Backends) (start : Start ℕ)
    (compare : Option (ℕ → ℕ → ℤ)) (ops : List (Op ℕ)), b.Granting →
    observeFrom lib b true start compare ops = observeFrom lib b false start compare ops := by
  intro hall
  cases hall SortedList.stdlib ampleBackends (.create fullList) none [] ampleBackends_granting

end HCore.ListBackends
