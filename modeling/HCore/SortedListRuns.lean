import HCore.SortedList
import Mathlib.Data.List.Infix
import Mathlib.Data.Multiset.AddSub

/-!
The sorted list over whole sequences of calls. What the list holds is the
multiset of the items that have been given to it and not taken back, its block
is large enough, and it is in order whenever it says so.
-/

namespace HCore.SortedListRuns

open Machine PoolRequests SortedList

variable {α : Type}

/-- `hcore_list_add`: whether it returns `HCORE_OK`. Where the larger block is
refused the list is left without one, and with the item counted. -/
def listAdd (pool : Pool) (l : ItemList α) (x : α) : Exec (Bool × ItemList α × Pool) :=
  let full := decide (l.numReserved < l.items.length + 1)
  let (l, pool) := listReserve pool l
  if full = true ∧ l.mapped = false then pure (false, { l with items := l.items ++ [x] }, pool)
  else if l.mapped = true ∧ l.items.length < l.numReserved then
    pure (true, { l with items := l.items ++ [x], sorted := false }, pool)
  else undefined

/-- The block for fewer items; a failed request is not checked. -/
def listRealloc (pool : Pool) (l : ItemList α) (numReserved : ℕ) : ItemList α × Pool :=
  let (mapped, pool) := pool.palloc (8 * numReserved)
  ({ l with numReserved, mapped }, pool)

/-- `hcore_list_delete`: whether it returns `HCORE_OK`. -/
def listDelete [DecidableEq α] (pool : Pool) (l : ItemList α) (x : α) : Bool × ItemList α × Pool :=
  match l.items.idxOf? x with
  | none => (false, l, pool)
  | some n =>
    let l := { l with items := l.items.eraseIdx n }
    if toUInt32 (2 * l.items.length : ℕ) ≤ l.numReserved ∧ 2 * listInitNumReserved < l.numReserved then
      (true, listRealloc pool l (l.numReserved / 2))
    else (true, l, pool)

/-- `hcore_list_delete_all`. -/
def listDeleteAll (pool : Pool) (l : ItemList α) : ItemList α × Pool :=
  listRealloc pool { l with items := [] } listInitNumReserved

inductive Op (α : Type)
  | add (x : α)
  | sort
  | insert (x : α)
  | delete (x : α)
  | deleteAll
  | search (target : α)

inductive Reply (α : Type)
  | none
  | status (ok : Bool)
  | found (x : Option α)

section

variable [DecidableEq α] (lib : Libc α) (cmp : α → α → ℤ)

def step : Op α → ItemList α × Pool → Exec (Reply α × ItemList α × Pool)
  | .add x, (l, pool) => do
    let (ok, s) ← listAdd pool l x
    pure (.status ok, s)
  | .sort, (l, pool) => pure (.none, listSort lib cmp l, pool)
  | .insert x, (l, pool) => do
    let s ← listInsert lib cmp pool l x
    pure (.status true, s)
  | .delete x, (l, pool) =>
    let (ok, s) := listDelete pool l x
    pure (.status ok, s)
  | .deleteAll, (l, pool) => pure (.none, listDeleteAll pool l)
  | .search target, (l, pool) =>
    let (found, l) := listSearch lib cmp l target
    pure (.found found, l, pool)

def run : List (Op α) → ItemList α × Pool → Exec (ItemList α × Pool)
  | [], s => pure s
  | op :: ops, s => do
    let (_, s) ← step lib cmp op s
    run ops s

end

/-- What an operation makes of the items held. -/
def Op.apply [DecidableEq α] (m : Multiset α) : Op α → Multiset α
  | .add x => x ::ₘ m
  | .insert x => x ::ₘ m
  | .delete x => m.erase x
  | .deleteAll => 0
  | .sort => m
  | .search _ => m

/-- The items that have been given to the list and not taken back. -/
def contents [DecidableEq α] (ops : List (Op α)) : Multiset α := ops.foldl Op.apply 0

/-- What the C library promises for this comparison. -/
structure Correct (lib : Libc α) (cmp : α → α → ℤ) : Prop where
  perm : ∀ items, (lib.qsort cmp items).Perm items
  sorted : ∀ items, (lib.qsort cmp items).Pairwise (fun a b => cmp a b ≤ 0)
  bsearch : ∀ target items, items.Pairwise (fun a b => cmp a b ≤ 0) →
    (∃ x ∈ items, lib.bsearch (cmp target) items = some x ∧ cmp target x = 0) ∨
      (lib.bsearch (cmp target) items = none ∧ ∀ x ∈ items, cmp target x ≠ 0)

/-- A comparison that is a total preorder on all items. -/
def TotalPreorder (cmp : α → α → ℤ) : Prop := Ordered cmp (fun _ => True)

/-- A list that holds these items. -/
structure Holds (cmp : α → α → ℤ) (s : ItemList α × Pool) (m : Multiset α) : Prop where
  granting : s.2.Granting
  mapped : s.1.mapped = true
  contents : (s.1.items : Multiset α) = m
  reserved : s.1.items.length ≤ s.1.numReserved
  reserved_pos : 0 < s.1.numReserved
  sorted : s.1.sorted = true → s.1.items.Pairwise (fun a b => cmp a b ≤ 0)

section

variable {lib : Libc α} {cmp : α → α → ℤ} {s s' : ItemList α × Pool} {m : Multiset α} {x : α}

/-- A list that is sorted holds the same items, in order. -/
theorem Holds.ensureSorted (h : Holds cmp s m) (hlib : Correct lib cmp) :
    Holds cmp (ensureSorted lib cmp s.1, s.2) m ∧ (ensureSorted lib cmp s.1).sorted = true ∧
      (SortedList.ensureSorted lib cmp s.1).Usable := by
  have hlength := (hlib.perm s.1.items).length_eq
  by_cases hsorted : s.1.sorted = true
  · rw [ensureSorted_of_sorted hsorted]
    exact ⟨h, hsorted, hsorted, h.mapped, h.reserved, h.reserved_pos⟩
  · have hsort : SortedList.ensureSorted lib cmp s.1 = listSort lib cmp s.1 := if_neg hsorted
    rw [hsort]
    refine ⟨⟨h.granting, h.mapped, ?_, ?_, h.reserved_pos, fun _ => hlib.sorted _⟩, rfl, rfl,
      h.mapped, ?_, h.reserved_pos⟩
    · rw [← h.contents]
      exact Multiset.coe_eq_coe.mpr (hlib.perm s.1.items)
    · exact hlength.trans_le h.reserved
    · exact hlength.trans_le h.reserved

/-- Inserting an item where the sign changes keeps a list sorted. -/
theorem pairwise_insert_le {items : List α} {pos : ℕ} (h : TotalPreorder cmp)
    (hsorted : items.Pairwise (fun a b => cmp a b ≤ 0)) (hbelow : ∀ a ∈ items.take pos, cmp a x ≤ 0)
    (habove : ∀ a ∈ items.drop pos, 0 ≤ cmp a x) :
    (items.take pos ++ x :: items.drop pos).Pairwise (fun a b => cmp a b ≤ 0) := by
  have hsplit := hsorted
  rw [← List.take_append_drop pos items, List.pairwise_append] at hsplit
  obtain ⟨hleft, hright, hcross⟩ := hsplit
  rw [List.pairwise_append]
  refine ⟨hleft, List.pairwise_cons.mpr ⟨fun a ha => ?_, hright⟩, ?_⟩
  · exact (h.swap_le trivial trivial).mpr (habove a ha)
  · intro a ha b hb
    rcases List.mem_cons.mp hb with rfl | hb
    · exact hbelow a ha
    · exact hcross a ha b hb

variable [DecidableEq α]

theorem step_insert (h : Holds cmp s m) (hlib : Correct lib cmp) (hcmp : TotalPreorder cmp)
    (hsize : s.1.items.length < 2 ^ 30) :
    ∃ reply s', step lib cmp (.insert x) s = Except.ok (reply, s') ∧ Holds cmp s' (x ::ₘ m) ∧
      reply = .status true ∧ s'.1.sorted = true := by
  obtain ⟨hsort, hflag, husable⟩ := h.ensureSorted hlib
  have hlength : (SortedList.ensureSorted lib cmp s.1).items.length = s.1.items.length := by
    have hcard := congrArg Multiset.card (hsort.contents.trans h.contents.symm)
    exact hcard
  obtain ⟨l', pool', hrun, husable'⟩ := listInsert_returns x h.granting husable (by omega)
  obtain ⟨hgrants, hsorted, pos, hitems, hsigns⟩ := listInsert_inserts hrun
  have hpairwise := hsort.sorted hflag
  obtain ⟨hbelow, habove⟩ := hsigns (hcmp.ascends (fun _ _ => trivial) trivial hpairwise)
  refine ⟨.status true, (l', pool'), bind_of_ok hrun rfl, ⟨?_, husable'.mapped, ?_,
    husable'.reserved, husable'.reserved_pos, fun _ => ?_⟩, rfl, husable'.sorted⟩
  · intro i size
    rw [hgrants]
    exact h.granting i size
  · rw [hitems, ← hsort.contents, Multiset.cons_coe]
    refine Multiset.coe_eq_coe.mpr (List.perm_middle.trans ?_)
    rw [List.take_append_drop]
  · rw [hitems]
    exact pairwise_insert_le hcmp hpairwise hbelow habove

theorem listDelete_erase (pool : Pool) (l : ItemList α) (x : α) :
    (listDelete pool l x).1 = decide (x ∈ l.items) ∧
      (listDelete pool l x).2.1.items = l.items.erase x := by
  rw [List.erase_eq_eraseIdx]
  unfold listDelete listRealloc
  cases hidx : l.items.idxOf? x with
  | none =>
    have habsent : x ∉ l.items := List.idxOf?_eq_none_iff.mp hidx
    exact ⟨(decide_eq_false habsent).symm, rfl⟩
  | some n =>
    have hmem : x ∈ l.items := by
      by_contra habsent
      rw [List.idxOf?_eq_none_iff.mpr habsent] at hidx
      cases hidx
    rw [decide_eq_true hmem]
    dsimp only
    split <;> exact ⟨rfl, rfl⟩

theorem step_delete (h : Holds cmp s m) (hsize : s.1.items.length ≤ 2 ^ 30) :
    ∃ reply s', step lib cmp (.delete x) s = Except.ok (reply, s') ∧ Holds cmp s' (m.erase x) ∧
      reply = .status (decide (x ∈ s.1.items)) ∧ s'.1.items = s.1.items.erase x := by
  obtain ⟨l, pool⟩ := s
  obtain ⟨hstatus, hitems⟩ := listDelete_erase pool l x
  have hcontents : ((l.items.erase x : List α) : Multiset α) = m.erase x := by
    rw [← h.contents, Multiset.coe_erase]
  have hgrant := h.granting
  have hreserved := h.reserved
  have hpos := h.reserved_pos
  have hlength := List.length_erase_le (a := x) (l := l.items)
  have hsorted : l.sorted = true → (l.items.erase x).Pairwise (fun a b => cmp a b ≤ 0) :=
    fun hflag => (h.sorted hflag).sublist List.erase_sublist
  dsimp only at hgrant hreserved hpos hsize
  refine ⟨.status (decide (x ∈ l.items)), (listDelete pool l x).2, ?_, ?_, rfl, hitems⟩
  · simp only [step, hstatus]
    rfl
  · rw [← hitems] at hcontents hlength hsorted
    unfold listDelete listRealloc at *
    cases hidx : l.items.idxOf? x with
    | none =>
      rw [hidx] at hcontents hlength hsorted
      exact ⟨hgrant, h.mapped, hcontents, hreserved, hpos, hsorted⟩
    | some n =>
      rw [hidx] at hcontents hlength hsorted
      dsimp only at hcontents hlength hsorted ⊢
      split at hcontents
      · next hshrink =>
        rw [if_pos hshrink] at hlength hsorted ⊢
        dsimp only at hlength hsorted hcontents ⊢
        have hfew : toUInt32 (2 * (l.items.eraseIdx n).length : ℕ) =
          2 * (l.items.eraseIdx n).length := toUInt32_of_lt (by omega)
        rw [hfew] at hshrink
        have hinit : listInitNumReserved = 32 := rfl
        refine ⟨hgrant.tick, ?_, hcontents, ?_, ?_, hsorted⟩
        · rw [hgrant.palloc]
        · dsimp only
          omega
        · dsimp only
          omega
      · next hshrink =>
        rw [if_neg hshrink] at hlength hsorted ⊢
        exact ⟨hgrant, h.mapped, hcontents, hlength.trans hreserved, hpos, hsorted⟩

end

end HCore.SortedListRuns
