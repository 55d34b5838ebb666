import HCore.HashProbe
import HCore.RefMaps

/-!
The hash table over whole sequences of insertions and removals. Probing stops at
the first element that exists, whatever it holds, so the table is the map that
the calls give only as long as every call finds the element of its own datum,
and a call returns only where probing meets an element that stops it.
-/

namespace HCore.HashTableRuns

open Machine OrbitSearch HashTable HashProbe RefMaps

inductive Op (α : Type)
  | insert (data : α) (existed : ℕ)
  | remove (data : α)

section

variable {α : Type} (proc : Proc α)

def step (fuel : ℕ) : Op α → Option (Table α) → Exec (Err × Option (Table α))
  | .insert data existed, tb => htbInsert fuel tb (some data) (some proc) existed
  | .remove data, tb => htbRemove fuel tb (some data) (some proc)

/-- The tables that calls which meet `P` make of a table. -/
inductive Reaches (P : Table α → Op α → Prop) (tb₀ : Table α) : List (Op α) → Table α → Prop
  | start : Reaches P tb₀ [] tb₀
  | next {ops : List (Op α)} {op : Op α} {tb tb' : Table α} {fuel : ℕ} {err : Err}
      (hops : Reaches P tb₀ ops tb) (hop : P tb op)
      (hstep : step proc fuel op (some tb) = Except.ok (err, some tb')) :
      Reaches P tb₀ (ops ++ [op]) tb'

/-- Data that compare equal. -/
def Same (a b : α) : Prop := proc.compare a b = 0

instance : DecidableRel (Same proc) := fun a b => inferInstanceAs (Decidable (proc.compare a b = 0))

/-- What a call makes of the map of a table with `size` elements. -/
def Op.apply (size : ℕ) : Op α → RefMap α → RefMap α
  | .insert data existed, M =>
    if M.present = size ∨ (0 < M.count data ∧ existed ≠ 0) then M else M.add (Same proc) data
  | .remove data, M => if M.count data = 0 then M else M.drop (Same proc) data

/-- What a call returns for a map. -/
def Op.Answer (size : ℕ) : Op α → RefMap α → Err → Prop
  | .insert data existed, M, err =>
    if M.present = size then err = .sizeFull
    else if M.count data = 0 then err = .success ∨ err = .sizeFullWarning
    else if existed ≠ 0 then err = .elemExist
    else err = .success
  | .remove data, M, err => if M.count data = 0 then err = .elemNoExist else err = .success

/-- The map of a sequence of calls. -/
def contents (size : ℕ) (ops : List (Op α)) : RefMap α :=
  ops.foldl (fun M op => op.apply proc size M) (RefMap.empty α)

/-- What an element holds. -/
def occupied (e : Elem α) : Option (α × ℕ) := if e.status = .exist then some (e.data, e.ref) else none

/-- The existing elements hold the map, and the header counts them. -/
structure Represents (tb : Table α) (M : RefMap α) : Prop where
  holds : Holds (Same proc) (tb.elems.map occupied) M
  count_eq : tb.count = M.present
  word : ∀ e ∈ tb.elems, e.status = .exist → e.ref < 2 ^ 32

def Stored (tb : Table α) (data : α) : Prop :=
  ∃ e ∈ tb.elems, e.status = .exist ∧ proc.compare e.data data = 0

end

section

variable {α : Type} {proc : Proc α} {tb tb' tb₀ : Table α} {data : α} {i fuel : ℕ} {e e' : Elem α}
  {err : Err} {ops : List (Op α)} {P : Table α → Op α → Prop} {M : RefMap α}

/-- A call keeps the shape of the table. -/
structure SameShape (tb tb' : Table α) : Prop where
  size : tb'.size = tb.size
  dataSize : tb'.dataSize = tb.dataSize
  bytes : tb'.bytes = tb.bytes
  length : tb'.elems.length = tb.elems.length

theorem SameShape.refl (tb : Table α) : SameShape tb tb := ⟨rfl, rfl, rfl, rfl⟩

theorem sameShape_set (tb : Table α) (i : ℕ) (e : Elem α) (n : ℕ) :
    SameShape tb { tb.setElem i e with count := n } := ⟨rfl, rfl, rfl, List.length_set⟩

theorem SameShape.sound (h : SameShape tb tb') (hs : Sound tb) : Sound tb' := by
  refine ⟨?_, ?_, ?_, ?_⟩
  · rw [h.length, h.size, hs.length]
  · rw [h.size]
    exact hs.pos
  · rw [h.size]
    exact hs.lt
  · rw [h.dataSize, h.size, h.bytes]
    exact hs.fits

theorem insertAt_sameShape {existed : ℕ}
    (h : insertAt tb i e (some data) existed = Except.ok (err, some tb')) : SameShape tb tb' := by
  unfold insertAt at h
  cases hstatus : e.status with
  | delete =>
    rw [hstatus] at h
    cases h
    exact sameShape_set ..
  | empty =>
    rw [hstatus] at h
    cases h
    exact sameShape_set ..
  | exist =>
    rw [hstatus] at h
    dsimp only at h
    by_cases hexisted : existed ≠ 0
    · rw [if_pos hexisted] at h
      cases h
      exact SameShape.refl tb
    · rw [if_neg hexisted] at h
      cases h
      exact sameShape_set ..

theorem removeAt_sameShape (h : removeAt tb i e = (err, some tb')) : SameShape tb tb' := by
  unfold removeAt at h
  dsimp only at h
  split at h
  · split at h
    · cases h
      exact sameShape_set ..
    · cases h
      exact sameShape_set ..
  · cases h
    exact SameShape.refl tb

theorem step_sameShape {op : Op α} (hs : Sound tb)
    (h : step proc fuel op (some tb) = Except.ok (err, some tb')) : SameShape tb tb' := by
  cases op with
  | insert data existed =>
    by_cases hfull : tb.count = tb.size
    · rw [step, htbInsert, if_pos hfull] at h
      cases h
      exact SameShape.refl tb
    · obtain ⟨i, e, -, hat⟩ := (insert_iff hs hfull existed _).mp ⟨fuel, h⟩
      exact insertAt_sameShape hat
  | remove data =>
    obtain ⟨i, e, -, hat⟩ := (remove_iff hs _).mp ⟨fuel, h⟩
    exact removeAt_sameShape hat

theorem Reaches.sound (h : Reaches proc P tb₀ ops tb) (hs : Sound tb₀) : Sound tb ∧ tb.size = tb₀.size := by
  induction h with
  | start => exact ⟨hs, rfl⟩
  | next _ _ hstep ih =>
    have hshape := step_sameShape ih.1 hstep
    exact ⟨hshape.sound ih.1, hshape.size.trans ih.2⟩

theorem occupied_free (h : e.status ≠ .exist) : occupied e = none := if_neg h

/-- The one element of a datum changes, and the header with it. -/
theorem Represents.set {M' : RefMap α} (hholds : Holds (Same proc) ((tb.elems.map occupied).set i (occupied e')) M')
    (h : Represents proc tb M) {n : ℕ} (hcount : n = M'.present)
    (hword : e'.status = .exist → e'.ref < 2 ^ 32) :
    Represents proc { tb.setElem i e' with count := n } M' := by
  refine ⟨?_, hcount, ?_⟩
  · change Holds (Same proc) ((tb.elems.set i e').map occupied) M'
    rw [List.map_set]
    exact hholds
  · intro e he hexist
    rcases List.mem_or_eq_of_mem_set he with he | rfl
    · exact h.word e he hexist
    · exact hword hexist

variable {existed : ℕ}

/-- Without room to lose, the map of an insertion is told by the two tests. -/
theorem apply_insert (hpresent : M.present ≠ tb.size) :
    (Op.insert data existed).apply proc tb.size M =
      if 0 < M.count data ∧ existed ≠ 0 then M else M.add (Same proc) data := by
  simp only [Op.apply, hpresent, false_or]

theorem init_represents (h : ∀ e ∈ tb.elems, e.status = .empty) (hcount : tb.count = 0) :
    Represents proc tb (RefMap.empty α) := by
  refine ⟨holds_empty ?_, hcount, ?_⟩
  · intro x hx
    obtain ⟨e, he, rfl⟩ := List.mem_map.mp hx
    exact occupied_free (by simp [h e he])
  · intro e he hexist
    rw [h e he] at hexist
    cases hexist

end

end HCore.HashTableRuns
