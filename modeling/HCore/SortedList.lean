import HCore.PoolRequests

/-!
The sorted list of pointers. Insertion bisects on `int` bounds and grows a
reserved block by doubling; sorting and search are those of the C library.
Both searches rest on the signs of the comparison along a sorted list: they
change at most once. The general facts are about any comparison that is a
total preorder on the items concerned.
-/

namespace HCore.SortedList

open Machine PoolRequests

variable {α : Type}

/-- `hcore_list_t`; `mapped` says that `p` is not NULL. -/
structure ItemList (α : Type) where
  items : List α
  numReserved : ℕ
  sorted : Bool
  mapped : Bool

/-- `sizeof(hcore_list_t)`. -/
def listSize : ℕ := 40

def listInitNumReserved : ℕ := 32

/-- `hcore_create_list(pool, compare)`. The block of items is not checked. -/
def createList (pool : Pool) : Option (ItemList α) × Pool :=
  match pool.palloc listSize with
  | (false, pool) => (none, pool)
  | (true, pool) =>
    let (mapped, pool) := pool.palloc (8 * listInitNumReserved)
    (some ⟨[], listInitNumReserved, true, mapped⟩, pool)

/-- `qsort` and `bsearch` of the C library. -/
structure Libc (α : Type) where
  qsort : (α → α → ℤ) → List α → List α
  bsearch : (α → ℤ) → List α → Option α

variable (lib : Libc α)

/-- `hcore_list_sort`. -/
def listSort (cmp : α → α → ℤ) (l : ItemList α) : ItemList α :=
  { l with items := lib.qsort cmp l.items, sorted := true }

def ensureSorted (cmp : α → α → ℤ) (l : ItemList α) : ItemList α :=
  if l.sorted then l else listSort lib cmp l

/-- The loop `while (low <= high)` of the insertion. -/
def insertPos (compare : α → ℤ) (items : List α) : ℕ → ℤ → ℤ → Exec ℕ
  | 0, _, _ => outOfFuel
  | fuel + 1, low, high =>
    if low ≤ high then
      if 2 ^ 31 ≤ low + high then undefined
      else
        let middle := (low + high) / 2
        match items[middle.toNat]? with
        | none => undefined
        | some x =>
          if compare x = 0 then pure middle.toNat
          else if 0 < compare x then insertPos compare items fuel low (middle - 1)
          else insertPos compare items fuel (middle + 1) high
    else pure low.toNat

/-- The block for one more item; a failed request is not checked. -/
def listReserve (pool : Pool) (l : ItemList α) : ItemList α × Pool :=
  if l.numReserved < l.items.length + 1 then
    let numReserved := toUInt32 (2 * l.numReserved : ℕ)
    let (mapped, pool) := pool.palloc (8 * numReserved)
    ({ l with numReserved, mapped }, pool)
  else (l, pool)

/-- `hcore_list_insert` with a comparison. -/
def listInsert (cmp : α → α → ℤ) (pool : Pool) (l : ItemList α) (x : α) :
    Exec (ItemList α × Pool) := do
  let l := ensureSorted lib cmp l
  let n := l.items.length
  let pos ← insertPos (fun y => cmp y x) l.items (n + 1) 0 ((n : ℤ) - 1)
  let (l, pool) := listReserve pool l
  if l.mapped = true ∧ n < l.numReserved then
    pure ({ l with items := l.items.take pos ++ x :: l.items.drop pos }, pool)
  else undefined

/-- `bsearch` over the items from `low` up to `high`. -/
def bsearch (compare : α → ℤ) (items : List α) : ℕ → ℕ → ℕ → Option α
  | 0, _, _ => none
  | fuel + 1, low, high =>
    if low < high then
      match items[(low + high) / 2]? with
      | none => none
      | some x =>
        if compare x < 0 then bsearch compare items fuel low ((low + high) / 2)
        else if 0 < compare x then bsearch compare items fuel ((low + high) / 2 + 1) high
        else some x
    else none

/-- A C library that sorts by merging and searches by halving. -/
def stdlib : Libc α where
  qsort cmp items := items.mergeSort (fun a b => decide (cmp a b ≤ 0))
  bsearch compare items := bsearch compare items (items.length + 1) 0 items.length

/-- `hcore_list_search`. -/
def listSearch (cmp : α → α → ℤ) (l : ItemList α) (target : α) : Option α × ItemList α :=
  let l := ensureSorted lib cmp l
  (lib.bsearch (cmp target) l.items, l)

/-- Along the items the sign never falls. -/
def Ascends (compare : α → ℤ) (items : List α) : Prop :=
  items.Pairwise (fun a b => (compare b ≤ 0 → compare a ≤ 0) ∧ (0 ≤ compare a → 0 ≤ compare b))

/-- Along the items a sign that is not zero never rises. -/
def Descends (compare : α → ℤ) (items : List α) : Prop :=
  items.Pairwise (fun a b => (compare a < 0 → compare b < 0) ∧ (0 < compare b → 0 < compare a))

/-- The comparison is a total preorder on the items in `D`. -/
structure Ordered (cmp : α → α → ℤ) (D : α → Prop) : Prop where
  swap : ∀ a b, D a → D b → (cmp a b < 0 ↔ 0 < cmp b a)
  trans : ∀ a b c, D a → D b → D c → cmp a b ≤ 0 → cmp b c ≤ 0 → cmp a c ≤ 0

section

variable {cmp : α → α → ℤ} {D : α → Prop} {compare : α → ℤ} {items : List α} {x : α}

theorem Ordered.swap_le (h : Ordered cmp D) {a b : α} (ha : D a) (hb : D b) :
    cmp a b ≤ 0 ↔ 0 ≤ cmp b a := by
  have hswap := h.swap b a hb ha
  omega

theorem Ordered.lt_of_lt_of_le (h : Ordered cmp D) {a b c : α} (ha : D a) (hb : D b) (hc : D c)
    (hab : cmp a b < 0) (hbc : cmp b c ≤ 0) : cmp a c < 0 := by
  by_contra hac
  have hca := (h.swap_le hc ha).mpr (not_lt.mp hac)
  have hba := h.trans b c a hb hc ha hbc hca
  have hswap := h.swap_le hb ha
  omega

theorem Ordered.lt_of_le_of_lt (h : Ordered cmp D) {a b c : α} (ha : D a) (hb : D b) (hc : D c)
    (hab : cmp a b ≤ 0) (hbc : cmp b c < 0) : cmp a c < 0 := by
  by_contra hac
  have hca := (h.swap_le hc ha).mpr (not_lt.mp hac)
  have hcb := h.trans c a b hc ha hb hca hab
  have hswap := h.swap_le hc hb
  omega

theorem Ordered.ascends (h : Ordered cmp D) (hitems : ∀ a ∈ items, D a) (hx : D x)
    (hsorted : items.Pairwise (fun a b => cmp a b ≤ 0)) :
    Ascends (fun y => cmp y x) items := by
  refine hsorted.imp_of_mem ?_
  intro a b ha hb hab
  have hDa := hitems a ha
  have hDb := hitems b hb
  refine ⟨fun hbx => h.trans a b x hDa hDb hx hab hbx, ?_⟩
  intro hax
  have hxa := (h.swap_le hx hDa).mpr hax
  exact (h.swap_le hx hDb).mp (h.trans x a b hx hDa hDb hxa hab)

theorem Ordered.descends (h : Ordered cmp D) (hitems : ∀ a ∈ items, D a) (hx : D x)
    (hsorted : items.Pairwise (fun a b => cmp a b ≤ 0)) : Descends (cmp x) items := by
  refine hsorted.imp_of_mem ?_
  intro a b ha hb hab
  have hDa := hitems a ha
  have hDb := hitems b hb
  refine ⟨fun hxa => h.lt_of_lt_of_le hx hDa hDb hxa hab, ?_⟩
  intro hxb
  have hbx := (h.swap b x hDb hx).mpr hxb
  exact (h.swap a x hDa hx).mp (h.lt_of_le_of_lt hDa hDb hx hab hbx)

theorem getElem_of_mem_take {n : ℕ} {a : α} (h : a ∈ items.take n) :
    ∃ (j : ℕ) (hj : j < items.length), j < n ∧ items[j] = a := by
  obtain ⟨j, hj, rfl⟩ := List.mem_iff_getElem.mp h
  rw [List.length_take] at hj
  exact ⟨j, by omega, by omega, by rw [List.getElem_take]⟩

theorem getElem_of_mem_drop {n : ℕ} {a : α} (h : a ∈ items.drop n) :
    ∃ (j : ℕ) (hj : j < items.length), n ≤ j ∧ items[j] = a := by
  obtain ⟨j, hj, rfl⟩ := List.mem_iff_getElem.mp h
  rw [List.length_drop] at hj
  exact ⟨n + j, by omega, by omega, by rw [List.getElem_drop]⟩

/-- The bisection ends where the sign changes. -/
theorem insertPos_loop {fuel pos : ℕ} {low high : ℤ}
    (hrun : insertPos compare items fuel low high = Except.ok pos) (hlow : 0 ≤ low)
    (hhigh : high < items.length) (hle : low ≤ high + 1)
    (hbelow : ∀ (j : ℕ) (hj : j < items.length), (j : ℤ) < low → compare items[j] ≤ 0)
    (habove : ∀ (j : ℕ) (hj : j < items.length), high < j → 0 ≤ compare items[j])
    (h : Ascends compare items) :
    (∀ (j : ℕ) (hj : j < items.length), j < pos → compare items[j] ≤ 0) ∧
      ∀ (j : ℕ) (hj : j < items.length), pos ≤ j → 0 ≤ compare items[j] := by
  induction fuel generalizing low high with
  | zero =>
    rw [insertPos] at hrun
    cases hrun
  | succ fuel ih =>
    rw [insertPos] at hrun
    by_cases hmore : low ≤ high
    · obtain ⟨middle, hmid⟩ : ∃ m : ℕ, (low + high) / 2 = m :=
        ⟨_, (Int.toNat_of_nonneg (by omega)).symm⟩
      have hlt : middle < items.length := by omega
      rw [if_pos hmore, hmid] at hrun
      split at hrun
      · cases hrun
      · dsimp only at hrun
        rw [Int.toNat_natCast, List.getElem?_eq_getElem hlt] at hrun
        dsimp only at hrun
        have hleft (hc : compare items[middle] ≤ 0) (j : ℕ) (hj : j < items.length)
            (hjm : j ≤ middle) : compare items[j] ≤ 0 := by
          rcases Nat.lt_or_eq_of_le hjm with hlt' | rfl
          · exact (List.pairwise_iff_getElem.mp h j middle hj hlt hlt').1 hc
          · exact hc
        have hright (hc : 0 ≤ compare items[middle]) (j : ℕ) (hj : j < items.length)
            (hjm : middle ≤ j) : 0 ≤ compare items[j] := by
          rcases Nat.lt_or_eq_of_le hjm with hlt' | rfl
          · exact (List.pairwise_iff_getElem.mp h middle j hlt hj hlt').2 hc
          · exact hc
        by_cases hzero : compare items[middle] = 0
        · rw [if_pos hzero] at hrun
          cases hrun
          exact ⟨fun j hj hjm => hleft hzero.le j hj hjm.le,
            fun j hj hjm => hright hzero.ge j hj hjm⟩
        · rw [if_neg hzero] at hrun
          by_cases hpos : 0 < compare items[middle]
          · rw [if_pos hpos] at hrun
            refine ih hrun hlow (by omega) (by omega) hbelow ?_
            intro j hj hjm
            exact hright hpos.le j hj (by omega)
          · rw [if_neg hpos] at hrun
            refine ih hrun (by omega) hhigh (by omega) ?_ habove
            intro j hj hjm
            exact hleft (not_lt.mp hpos) j hj (by omega)
    · rw [if_neg hmore] at hrun
      cases hrun
      refine ⟨?_, ?_⟩
      · intro j hj hjm
        exact hbelow j hj (by omega)
      · intro j hj hjm
        exact habove j hj (by omega)

/-- The place of insertion, if there is one, is where the sign changes. -/
theorem insertPos_signs {pos : ℕ}
    (hrun : insertPos compare items (items.length + 1) 0 ((items.length : ℤ) - 1) = Except.ok pos)
    (h : Ascends compare items) :
    (∀ a ∈ items.take pos, compare a ≤ 0) ∧ ∀ a ∈ items.drop pos, 0 ≤ compare a := by
  obtain ⟨hbelow, habove⟩ := insertPos_loop hrun (le_refl _) (by omega) (by omega)
    (fun j _ hj => by omega) (fun j hj hj' => by omega) h
  constructor
  · intro a ha
    obtain ⟨j, hj, hjp, rfl⟩ := getElem_of_mem_take ha
    exact hbelow j hj hjp
  · intro a ha
    obtain ⟨j, hj, hjp, rfl⟩ := getElem_of_mem_drop ha
    exact habove j hj hjp

/-- The bisection ends as long as its bounds add up in an `int`. -/
theorem insertPos_returns (compare : α → ℤ) (hlen : items.length ≤ 2 ^ 30) (fuel : ℕ) (low high : ℤ) (hlow : 0 ≤ low)
    (hhigh : high < items.length) (hle : low ≤ high + 1) (hfuel : high - low + 1 < fuel) :
    ∃ pos, insertPos compare items fuel low high = Except.ok pos := by
  induction fuel generalizing low high with
  | zero => omega
  | succ fuel ih =>
    rw [insertPos]
    by_cases hmore : low ≤ high
    · obtain ⟨middle, hmid⟩ : ∃ m : ℕ, (low + high) / 2 = m :=
        ⟨_, (Int.toNat_of_nonneg (by omega)).symm⟩
      have hlt : middle < items.length := by omega
      rw [if_pos hmore, if_neg (by omega), hmid]
      dsimp only
      rw [Int.toNat_natCast, List.getElem?_eq_getElem hlt]
      dsimp only
      split
      · exact ⟨_, rfl⟩
      · split
        · exact ih low (middle - 1) hlow (by omega) (by omega) (by omega)
        · exact ih (middle + 1) high (by omega) hhigh (by omega) (by omega)
    · rw [if_neg hmore]
      exact ⟨_, rfl⟩

/-- The binary search finds an item that compares equal if there is one. -/
theorem bsearch_loop (h : Descends compare items) (fuel low high : ℕ) (hle : low ≤ high)
    (hhigh : high ≤ items.length) (hfuel : high - low < fuel)
    (hbelow : ∀ (j : ℕ) (hj : j < items.length), j < low → 0 < compare items[j])
    (habove : ∀ (j : ℕ) (hj : j < items.length), high ≤ j → compare items[j] < 0) :
    (∃ x ∈ items, bsearch compare items fuel low high = some x ∧ compare x = 0) ∨
      (bsearch compare items fuel low high = none ∧ ∀ x ∈ items, compare x ≠ 0) := by
  induction fuel generalizing low high with
  | zero => omega
  | succ fuel ih =>
    rw [bsearch]
    by_cases hmore : low < high
    · have hlt : (low + high) / 2 < items.length := by omega
      rw [if_pos hmore, List.getElem?_eq_getElem hlt]
      dsimp only
      have hpair := List.pairwise_iff_getElem.mp h
      by_cases hneg : compare items[(low + high) / 2] < 0
      · rw [if_pos hneg]
        refine ih low ((low + high) / 2) (by omega) (by omega) (by omega) hbelow ?_
        intro j hj hjm
        rcases Nat.lt_or_eq_of_le hjm with hlt' | rfl
        · exact (hpair _ j hlt hj hlt').1 hneg
        · exact hneg
      · rw [if_neg hneg]
        by_cases hpos : 0 < compare items[(low + high) / 2]
        · rw [if_pos hpos]
          refine ih ((low + high) / 2 + 1) high (by omega) hhigh (by omega) ?_ habove
          intro j hj hjm
          rcases Nat.lt_or_eq_of_le (show j ≤ (low + high) / 2 by omega) with hlt' | rfl
          · exact (hpair j _ hj hlt hlt').2 hpos
          · exact hpos
        · rw [if_neg hpos]
          exact Or.inl ⟨_, List.getElem_mem hlt, rfl, by omega⟩
    · rw [if_neg hmore]
      refine Or.inr ⟨rfl, ?_⟩
      intro x hx
      obtain ⟨j, hj, rfl⟩ := List.mem_iff_getElem.mp hx
      rcases Nat.lt_or_ge j low with hlt | hge
      · exact (hbelow j hj hlt).ne'
      · exact (habove j hj (by omega)).ne

/-- What the search finds is there, sorted or not. -/
theorem bsearch_mem {fuel low high : ℕ} (h : bsearch compare items fuel low high = some x) :
    x ∈ items ∧ compare x = 0 := by
  induction fuel generalizing low high with
  | zero => cases h
  | succ fuel ih =>
    rw [bsearch] at h
    split at h
    · split at h
      · cases h
      · next y hy =>
        split at h
        · exact ih h
        · split at h
          · exact ih h
          · cases h
            exact ⟨List.mem_of_getElem? hy, by omega⟩
    · cases h

theorem bsearch_spec (h : Descends compare items) :
    (∃ x ∈ items, bsearch compare items (items.length + 1) 0 items.length = some x ∧
        compare x = 0) ∨
      (bsearch compare items (items.length + 1) 0 items.length = none ∧
        ∀ x ∈ items, compare x ≠ 0) :=
  bsearch_loop h _ 0 _ (Nat.zero_le _) (le_refl _) (by omega) (fun j _ hj => by omega)
    (fun j hj hj' => by omega)

/-- A list in use: its block exists and holds the items. -/
structure ItemList.Usable (l : ItemList α) : Prop where
  sorted : l.sorted = true
  mapped : l.mapped = true
  reserved : l.items.length ≤ l.numReserved
  reserved_pos : 0 < l.numReserved

variable {pool pool' : Pool} {l l' : ItemList α} {lib : Libc α}

theorem createList_granting (h : pool.Granting) :
    ∃ l : ItemList α, createList pool = (some l, pool.tick.tick) ∧ l.items = [] ∧ l.Usable := by
  refine ⟨⟨[], listInitNumReserved, true, true⟩, ?_, rfl, rfl, rfl, Nat.zero_le _, ?_⟩
  · simp only [createList, h.palloc, h.tick.palloc]
  · exact Nat.succ_pos 31

theorem listReserve_granting (h : pool.Granting) (hl : l.Usable) (hlen : l.items.length < 2 ^ 31) :
    ∃ l' pool', listReserve pool l = (l', pool') ∧ pool'.grants = pool.grants ∧
      l'.items = l.items ∧ l'.sorted = true ∧ l'.mapped = true ∧
      l.items.length < l'.numReserved := by
  have hreserved := hl.reserved
  have hpos := hl.reserved_pos
  unfold listReserve
  by_cases hfull : l.numReserved < l.items.length + 1
  · have hnext : toUInt32 (2 * l.numReserved : ℕ) = 2 * l.numReserved := toUInt32_of_lt (by omega)
    rw [if_pos hfull]
    simp only [h.palloc, hnext]
    exact ⟨_, _, rfl, rfl, rfl, hl.sorted, rfl, by dsimp only; omega⟩
  · rw [if_neg hfull]
    exact ⟨l, pool, rfl, rfl, rfl, hl.sorted, hl.mapped, by omega⟩

/-- What an insertion that returns has done: in a sorted list the item lies
between those that compare at most and at least equal. -/
theorem listInsert_inserts (hrun : listInsert lib cmp pool l x = Except.ok (l', pool')) :
    pool'.grants = pool.grants ∧ l'.sorted = (ensureSorted lib cmp l).sorted ∧
      ∃ pos, l'.items = (ensureSorted lib cmp l).items.take pos ++
          x :: (ensureSorted lib cmp l).items.drop pos ∧
        (Ascends (fun y => cmp y x) (ensureSorted lib cmp l).items →
          (∀ a ∈ (ensureSorted lib cmp l).items.take pos, cmp a x ≤ 0) ∧
            ∀ a ∈ (ensureSorted lib cmp l).items.drop pos, 0 ≤ cmp a x) := by
  obtain ⟨pos, hpos, hrun⟩ := bind_eq_ok.mp hrun
  have hsigns := insertPos_signs hpos
  generalize ensureSorted lib cmp l = l0 at hrun hsigns ⊢
  unfold listReserve at hrun
  dsimp only at hrun
  split at hrun
  · dsimp only at hrun
    split at hrun
    · cases hrun
      exact ⟨rfl, rfl, pos, rfl, hsigns⟩
    · cases hrun
  · dsimp only at hrun
    split at hrun
    · cases hrun
      exact ⟨rfl, rfl, pos, rfl, hsigns⟩
    · cases hrun

theorem ensureSorted_of_sorted (h : l.sorted = true) : ensureSorted lib cmp l = l := if_pos h

/-- An insertion into a list with at most `2 ^ 30` items returns. -/
theorem listInsert_returns (x : α) (h : pool.Granting) (hl : (ensureSorted lib cmp l).Usable)
    (hlen : (ensureSorted lib cmp l).items.length < 2 ^ 30) :
    ∃ l' pool', listInsert lib cmp pool l x = Except.ok (l', pool') ∧ l'.Usable := by
  obtain ⟨pos, hrun⟩ := insertPos_returns (fun y => cmp y x) hlen.le
    ((ensureSorted lib cmp l).items.length + 1) 0 (((ensureSorted lib cmp l).items.length : ℤ) - 1)
    (le_refl _) (by omega) (by omega) (by omega)
  obtain ⟨l', pool', hreserve, hgrants, hitems, hsorted, hmapped, hroom⟩ :=
    listReserve_granting h hl (by omega)
  refine ⟨{ l' with items := l'.items.take pos ++ x :: l'.items.drop pos }, pool', ?_, hsorted,
    hmapped, ?_, Nat.lt_of_le_of_lt (Nat.zero_le _) hroom⟩
  · unfold listInsert
    refine bind_of_ok hrun ?_
    rw [hreserve]
    exact if_pos ⟨hmapped, hroom⟩
  · have hinsert : (l'.items.take pos ++ x :: l'.items.drop pos).length = l'.items.length + 1 := by
      simp only [List.length_append, List.length_cons, List.length_take, List.length_drop]
      omega
    dsimp only
    rw [hinsert, hitems]
    omega

/-- An item is inserted; in a sorted list, between those that compare at most
and at least equal. -/
theorem listInsert_spec (lib : Libc α) (cmp : α → α → ℤ) (x : α) (h : pool.Granting) (hl : l.Usable)
    (hlen : l.items.length < 2 ^ 30) :
    ∃ l' pool' pos, listInsert lib cmp pool l x = Except.ok (l', pool') ∧
      pool'.grants = pool.grants ∧ l'.Usable ∧ l'.items = l.items.take pos ++ x :: l.items.drop pos ∧
      (Ascends (fun y => cmp y x) l.items →
        (∀ a ∈ l.items.take pos, cmp a x ≤ 0) ∧ ∀ a ∈ l.items.drop pos, 0 ≤ cmp a x) := by
  have hensure : ensureSorted lib cmp l = l := ensureSorted_of_sorted hl.sorted
  have hl' : (ensureSorted lib cmp l).Usable := by rwa [hensure]
  have hlen' : (ensureSorted lib cmp l).items.length < 2 ^ 30 := by rwa [hensure]
  obtain ⟨l', pool', hrun, husable⟩ := listInsert_returns x h hl' hlen'
  obtain ⟨hgrants, -, pos, hitems, hsigns⟩ := listInsert_inserts hrun
  rw [hensure] at hitems hsigns
  exact ⟨l', pool', pos, hrun, hgrants, husable, hitems, hsigns⟩

/-- An item above all others is inserted at the end. -/
theorem take_drop_of_below {pos : ℕ} (habove : ∀ a ∈ items.drop pos, 0 ≤ compare a)
    (hlt : ∀ a ∈ items, compare a < 0) : items.take pos ++ x :: items.drop pos = items ++ [x] := by
  have hnil : items.drop pos = [] := by
    rw [List.eq_nil_iff_forall_not_mem]
    intro a ha
    have hneg := hlt a (List.mem_of_mem_drop ha)
    have hge := habove a ha
    omega
  have htake := List.take_append_drop pos items
  rw [hnil, List.append_nil] at htake
  rw [hnil, htake]

theorem Ascends.of_neg (h : ∀ a ∈ items, compare a < 0) : Ascends compare items := by
  apply List.pairwise_of_forall_mem_list
  intro a ha b hb
  have hna := h a ha
  exact ⟨fun _ => hna.le, fun hge => absurd hna (not_lt.mpr hge)⟩

/-- Inserting an item that no other equals keeps a list strictly sorted. -/
theorem pairwise_insert (h : Ordered cmp D) (hitems : ∀ a ∈ items, D a) (hx : D x) {pos : ℕ}
    (hsorted : items.Pairwise (fun a b => cmp a b < 0)) (hne : ∀ a ∈ items, cmp x a ≠ 0)
    (hbelow : ∀ a ∈ items.take pos, cmp a x ≤ 0) (habove : ∀ a ∈ items.drop pos, 0 ≤ cmp a x) :
    (items.take pos ++ x :: items.drop pos).Pairwise (fun a b => cmp a b < 0) := by
  have hsplit := hsorted
  rw [← List.take_append_drop pos items, List.pairwise_append] at hsplit
  obtain ⟨hleft, hright, hcross⟩ := hsplit
  have hax {a : α} (ha : a ∈ items.take pos) : cmp a x < 0 := by
    have hmem := List.mem_of_mem_take ha
    have hle := hbelow a ha
    have hswap := h.swap_le (hitems a hmem) hx
    have hswap' := h.swap_le hx (hitems a hmem)
    have hnot := hne a hmem
    omega
  have hxa {a : α} (ha : a ∈ items.drop pos) : cmp x a < 0 := by
    have hmem := List.mem_of_mem_drop ha
    have hge := habove a ha
    have hswap := h.swap_le hx (hitems a hmem)
    have hnot := hne a hmem
    omega
  rw [List.pairwise_append]
  refine ⟨hleft, List.pairwise_cons.mpr ⟨fun a ha => hxa ha, hright⟩, ?_⟩
  intro a ha b hb
  rcases List.mem_cons.mp hb with rfl | hb
  · exact hax ha
  · exact hcross a ha b hb

end

end HCore.SortedList
