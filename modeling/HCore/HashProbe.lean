import HCore.HashTable
import HCore.OrbitSearch
import Mathlib.Data.Finset.Prod

/-!
Probing as a search along the orbit of an index with its collision number. The
search ends at the first element that exists or compares equal, and there is
one if and only if it comes within `size * 2 ^ 32` collisions.
-/

namespace HCore.HashProbe

open Machine OrbitSearch HashTable

section

variable {α : Type} {tb : Table α} {data : α} {proc : Proc α} {i fuel : ℕ} {e : Elem α} {p : ℕ × ℕ}

/-- A table that holds all its elements inside its block. -/
structure Sound (tb : Table α) : Prop where
  length : tb.elems.length = tb.size
  pos : 0 < tb.size
  lt : tb.size < 2 ^ 32
  fits : elemOffset tb.dataSize tb.size ≤ tb.bytes

/-- The element at an index ends the search. -/
def Stops (tb : Table α) (proc : Proc α) (data : α) (p : ℕ × ℕ) : Prop :=
  ∃ e, tb.elems[p.1]? = some e ∧ (e.status = .exist ∨ proc.compare e.data data = 0)

instance : DecidablePred (Stops tb proc data) := fun p =>
  match h : tb.elems[p.1]? with
  | some e => decidable_of_iff (e.status = .exist ∨ proc.compare e.data data = 0) (by simp [Stops, h])
  | none => isFalse (by simp [Stops, h])

/-- The index and the collision number that probing begins with. -/
def start (tb : Table α) (proc : Proc α) (data : α) : ℕ × ℕ := (proc.hash data % tb.size, 0)

/-- Probing for `data` ends at the index `i`, at the element `e`. -/
def Finds (tb : Table α) (proc : Proc α) (data : α) (i : ℕ) (e : Elem α) : Prop :=
  tb.elems[i]? = some e ∧
    ∃ k, FirstHit (nextProbe tb.size) (Stops tb proc data) (start tb proc data) k ∧
      ((nextProbe tb.size)^[k] (start tb proc data)).1 = i

theorem Sound.getElem_eq (h : Sound tb) (he : tb.elems[i]? = some e) : tb.getElem i = Except.ok e := by
  have hi : i < tb.size := by
    rw [← h.length]
    exact (List.getElem?_eq_some_iff.mp he).1
  have hfits : elemOffset tb.dataSize (i + 1) ≤ tb.bytes := by
    refine le_trans ?_ h.fits
    exact Nat.add_le_add_left (Nat.mul_le_mul_right _ hi) _
  unfold Table.getElem
  rw [he]
  exact if_pos hfits

theorem Sound.exists_elem (h : Sound tb) (hi : i < tb.size) : ∃ e, tb.elems[i]? = some e := by
  rw [← h.length] at hi
  exact ⟨tb.elems[i], List.getElem?_eq_getElem hi⟩

theorem nextProbe_mem {size : ℕ} (hsize : 0 < size) (p : ℕ × ℕ) :
    (nextProbe size p).1 < size ∧ (nextProbe size p).2 < 2 ^ 32 := by
  refine ⟨?_, Nat.mod_lt _ (by norm_num)⟩
  unfold nextProbe
  dsimp only
  split
  · exact Nat.mod_lt _ hsize
  · omega

theorem Sound.start_lt (h : Sound tb) (proc : Proc α) (data : α) : (start tb proc data).1 < tb.size :=
  Nat.mod_lt _ h.pos

theorem findLoop_eq (h : Sound tb) (hp : p.1 < tb.size) :
    findLoop tb data proc fuel p =
      match search (nextProbe tb.size) (Stops tb proc data) fuel p with
      | some q => Except.ok q.1
      | none => outOfFuel := by
  induction fuel generalizing p with
  | zero => rfl
  | succ fuel ih =>
    obtain ⟨e, he⟩ := h.exists_elem hp
    have hstops : Stops tb proc data p ↔ e.status = .exist ∨ proc.compare e.data data = 0 := by
      simp [Stops, he]
    rw [findLoop, h.getElem_eq he, ok_bind, search]
    by_cases hexist : e.status = .exist
    · rw [if_neg (not_not.mpr hexist), if_pos (hstops.mpr (Or.inl hexist))]
      rfl
    · rw [if_pos hexist]
      by_cases heq : proc.compare e.data data = 0
      · rw [if_pos heq, if_pos (hstops.mpr (Or.inr heq))]
        rfl
      · rw [if_neg heq, if_neg (mt hstops.mp (not_or.mpr ⟨hexist, heq⟩))]
        exact ih (nextProbe_mem h.pos p).1

theorem findPos_eq_ok (h : Sound tb) :
    htbFindPos fuel (some tb) (some data) (some proc) = Except.ok i ↔
      ∃ k < fuel, FirstHit (nextProbe tb.size) (Stops tb proc data) (start tb proc data) k ∧
        ((nextProbe tb.size)^[k] (start tb proc data)).1 = i := by
  have hrun : htbFindPos fuel (some tb) (some data) (some proc) =
      findLoop tb data proc fuel (start tb proc data) := if_neg h.pos.ne'
  rw [hrun, findLoop_eq h (h.start_lt proc data)]
  cases hsearch : search (nextProbe tb.size) (Stops tb proc data) fuel (start tb proc data) with
  | none =>
    constructor
    · intro heq
      cases heq
    · rintro ⟨k, hk, hfirst, -⟩
      rw [search_eq_some.mpr ⟨k, hk, hfirst, rfl⟩] at hsearch
      cases hsearch
  | some q =>
    obtain ⟨k, hk, hfirst, rfl⟩ := search_eq_some.mp hsearch
    constructor
    · intro heq
      cases heq
      exact ⟨k, hk, hfirst, rfl⟩
    · rintro ⟨k', -, hfirst', rfl⟩
      rw [hfirst.unique hfirst']

/-- Some budget is enough if and only if probing ends. -/
theorem finds_iff (h : Sound tb) :
    (∃ fuel, htbFindPos fuel (some tb) (some data) (some proc) = Except.ok i) ↔
      ∃ e, Finds tb proc data i e := by
  constructor
  · rintro ⟨fuel, hrun⟩
    obtain ⟨k, -, hfirst, hi⟩ := (findPos_eq_ok h).mp hrun
    obtain ⟨e, he, -⟩ := hfirst.hit
    rw [hi] at he
    exact ⟨e, he, k, hfirst, hi⟩
  · rintro ⟨e, -, k, hfirst, hi⟩
    exact ⟨k + 1, (findPos_eq_ok h).mpr ⟨k, by omega, hfirst, hi⟩⟩

theorem Finds.unique {i' : ℕ} {e' : Elem α} (h : Finds tb proc data i e) (h' : Finds tb proc data i' e') :
    i' = i ∧ e' = e := by
  obtain ⟨he, k, hfirst, rfl⟩ := h
  obtain ⟨he', k', hfirst', rfl⟩ := h'
  rw [hfirst'.unique hfirst] at he' ⊢
  exact ⟨rfl, Option.some.inj (he'.symm.trans he)⟩

/-- An insertion into a table with room, by the element that probing finds. -/
theorem insert_iff (h : Sound tb) (hroom : tb.count ≠ tb.size) (existed : ℕ)
    (r : Err × Option (Table α)) :
    (∃ fuel, htbInsert fuel (some tb) (some data) (some proc) existed = Except.ok r) ↔
      ∃ i e, Finds tb proc data i e ∧ insertAt tb i e (some data) existed = Except.ok r := by
  have hrun (fuel : ℕ) : htbInsert fuel (some tb) (some data) (some proc) existed = (do
      let index ← htbFindPos fuel (some tb) (some data) (some proc)
      let elem ← tb.getElem index
      insertAt tb index elem (some data) existed) := if_neg hroom
  constructor
  · rintro ⟨fuel, hok⟩
    rw [hrun] at hok
    obtain ⟨i, hfind, hok⟩ := bind_eq_ok.mp hok
    obtain ⟨e, hfinds⟩ := (finds_iff h).mp ⟨fuel, hfind⟩
    rw [h.getElem_eq hfinds.1, ok_bind] at hok
    exact ⟨i, e, hfinds, hok⟩
  · rintro ⟨i, e, hfinds, hok⟩
    obtain ⟨fuel, hfind⟩ := (finds_iff h).mpr ⟨e, hfinds⟩
    refine ⟨fuel, ?_⟩
    rw [hrun]
    exact bind_of_ok hfind (bind_of_ok (h.getElem_eq hfinds.1) hok)

theorem remove_iff (h : Sound tb) (r : Err × Option (Table α)) :
    (∃ fuel, htbRemove fuel (some tb) (some data) (some proc) = Except.ok r) ↔
      ∃ i e, Finds tb proc data i e ∧ removeAt tb i e = r := by
  constructor
  · rintro ⟨fuel, hok⟩
    obtain ⟨i, hfind, hok⟩ := bind_eq_ok.mp hok
    obtain ⟨e, hfinds⟩ := (finds_iff h).mp ⟨fuel, hfind⟩
    rw [h.getElem_eq hfinds.1, ok_bind] at hok
    exact ⟨i, e, hfinds, Except.ok.inj hok⟩
  · rintro ⟨i, e, hfinds, hok⟩
    obtain ⟨fuel, hfind⟩ := (finds_iff h).mpr ⟨e, hfinds⟩
    exact ⟨fuel, bind_of_ok hfind (bind_of_ok (h.getElem_eq hfinds.1) (congrArg Except.ok hok))⟩

end

end HCore.HashProbe
