import HCore.PackHistory

/-!
What a call leaves behind, whatever it returns. An addition that fails leaves
the pack alone only when it gives up before its element is in the list: behind
that the value is counted, and its slot pushed, before there is memory for it.
The first write settles the bytes of every later one, but not its length.
-/

namespace HCore.PackCalls

open Machine LittleEndian PoolRequests SortedList PackModel PackReader PackContents PackHistory

/-- The packs that any calls lead to, whatever these return. -/
inductive Reached : Pack → Prop
  | init {pool : Pool} {max : ℕ} {s : Pack} (h : packInit pool max = some s) : Reached s
  | add {s s' : Pack} {name : CString} {value : Addition} {ok : Bool} (h : Reached s)
      (hadd : packAddValue s name value = Except.ok (ok, s')) : Reached s'
  | get {s s' : Pack} {name : CString} {type : ElemType} {r : Option (List (Option Value))}
      (h : Reached s) (hget : packGetArray s name type = Except.ok (r, s')) : Reached s'
  | read {s s' : Pack} {mem : Bytes} {buffer last : ℕ} {n : ℤ} (h : Reached s)
      (hread : (packRead mem buffer last s).result = Except.ok (n, s')) : Reached s'
  | write {s s' : Pack} {w : Written} (h : Reached s)
      (hwrite : packWrite s = Except.ok (w, s')) : Reached s'

section

variable {s s' s1 s2 : Pack} {name : List UInt8} {t : ElemType} {e : Elem} {cname : CString}
  {value : Addition} {ok : Bool} {mem : Bytes} {p q : ℕ} {flow : Flow}

theorem startValues_sorted (hs : s.elements.sorted = true)
    (h : startValues s = Except.ok (flow, s')) : s'.elements.sorted = true := by
  unfold startValues at h
  split at h
  · cases h
    exact hs
  · split at h
    · next s1 hcreate =>
      have hstores := elemCreate_stores { s with curValueNum := 0 }
        (s.elemName.take s.elemNameLen) s.elemType s.valueNum
      rw [hcreate] at hstores
      cases h
      exact (congrArg ItemList.sorted hstores.elements).trans hs
    · next e s1 hcreate =>
      have hstores := elemCreate_stores { s with curValueNum := 0 }
        (s.elemName.take s.elemNameLen) s.elemType s.valueNum
      rw [hcreate] at hstores
      have hs1 : s1.elements.sorted = true :=
        (congrArg ItemList.sorted hstores.elements).trans hs
      obtain ⟨⟨elements, pool⟩, hinsert, h⟩ := bind_eq_ok.mp h
      obtain ⟨-, hkeep, -⟩ := listInsert_inserts hinsert
      rw [ensureSorted_of_sorted hs1] at hkeep
      have hsorted : elements.sorted = true := hkeep.trans hs1
      dsimp only at h
      split at h <;> cases h <;> exact hsorted

/-- A round of the reader keeps the flag of the list. -/
theorem readPhase_sorted (hs : s.elements.sorted = true)
    (h : (readPhase mem p s).result = Except.ok (flow, q, s')) : s'.elements.sorted = true := by
  rcases (readPhase_inv h).2 with hkeep | ⟨s0, hkeep, hstart⟩
  · rw [hkeep]
    exact hs
  · exact startValues_sorted (hkeep ▸ hs) hstart

theorem readLoop_sorted {last fuel : ℕ} (hs : s.elements.sorted = true)
    (h : (readLoop mem last fuel p s).result = Except.ok (flow, q, s')) :
    s'.elements.sorted = true := by
  induction fuel generalizing p s with
  | zero => cases h
  | succ fuel ih =>
    rw [readLoop] at h
    split at h
    · rw [result_bind] at h
      obtain ⟨⟨flow1, p1, s1⟩, hphase, h⟩ := bind_eq_ok.mp h
      have hs1 := readPhase_sorted hs hphase
      cases flow1 with
      | next => exact ih hs1 h
      | done =>
        cases h
        exact hs1
      | reject =>
        cases h
        exact hs1
    · cases h
      exact hs

theorem packRead_sorted {buffer last : ℕ} {n : ℤ} (hs : s.elements.sorted = true)
    (h : (packRead mem buffer last s).result = Except.ok (n, s')) : s'.elements.sorted = true := by
  unfold packRead at h
  split at h
  · cases h
    exact hs
  · rw [result_bind] at h
    obtain ⟨⟨flow, p, s1⟩, hloop, h⟩ := bind_eq_ok.mp h
    have hs1 := readLoop_sorted hs hloop
    cases flow <;> cases h <;> exact hs1

/-- A call that has its element counts the value, and then stores at most. -/
theorem packAddValue_stores (h : packAddValue s cname value = Except.ok (ok, s'))
    (hfor : elemFor s cname.1 value.type = Except.ok (some e, s1)) :
    Stores (counted s1 value) s' := by
  obtain ⟨r, hfor', h⟩ := bind_eq_ok.mp h
  obtain rfl : (some e, s1) = r := Except.ok.inj (hfor.symm.trans hfor')
  cases value with
  | int i => exact elemAddInt_stores h
  | str str =>
    dsimp only at h
    rw [elemAddStr_result, Nat.add_assoc, ← window_length str.mem str.data str.len] at h
    exact elemStore_stores h
  | data mem p size =>
    dsimp only at h
    rw [elemAddData_result, Nat.add_assoc, ← window_length mem p size] at h
    exact elemStore_stores h

/-- What is left of the pack by a call, whatever it returns. -/
theorem packAddValue_leaves (hs : s.elements.sorted = true)
    (h : packAddValue s cname value = Except.ok (ok, s')) :
    (ok = false ∧ elemFor s cname.1 value.type = Except.ok (none, s') ∧
        s' = { s with pool := s'.pool }) ∨
      ∃ e s1, elemFor s cname.1 value.type = Except.ok (some e, s1) ∧
        Chosen s s1 e cname.1 value.type ∧ Stores (counted s1 value) s' := by
  obtain ⟨⟨e?, s1⟩, hfor, hrest⟩ := bind_eq_ok.mp h
  obtain ⟨-, hnone, hsome⟩ := elemFor_chosen hs hfor
  cases e? with
  | none =>
    cases hrest
    exact Or.inl ⟨rfl, hfor, hnone rfl⟩
  | some e => exact Or.inr ⟨e, s1, hfor, hsome e rfl, packAddValue_stores h hfor⟩

theorem packAddValue_sorted (hs : s.elements.sorted = true)
    (h : packAddValue s cname value = Except.ok (ok, s')) : s'.elements.sorted = true := by
  rcases packAddValue_leaves hs h with ⟨-, -, hsame⟩ | ⟨e, s1, -, hchosen, hstores⟩
  · rw [hsame]
    exact hs
  · rw [hstores.elements]
    exact hchosen.sorted hs

theorem packWrite_sorted {w : Written} (hs : s.elements.sorted = true)
    (h : packWrite s = Except.ok (w, s')) : s'.elements.sorted = true := by
  unfold packWrite at h
  split at h
  · cases h
    exact hs
  · split at h
    · cases h
      exact hs
    · simp only [palloc] at h
      cases hgrant : (s.pool.palloc s.totalSize).1 with
      | false =>
        rw [hgrant] at h
        cases h
        exact hs
      | true =>
        rw [hgrant] at h
        obtain ⟨out, -, h⟩ := bind_eq_ok.mp h
        obtain ⟨out', -, h⟩ := bind_eq_ok.mp h
        cases h
        exact hs

theorem packGetArray_same {r : Option (List (Option Value))} (hs : s.elements.sorted = true)
    (h : packGetArray s cname t = Except.ok (r, s')) : s' = s := by
  unfold packGetArray at h
  rw [elemGet_sorted hs] at h
  cases hfound : stdlib.bsearch (packCmpName ⟨cname.1, t, 0⟩) s.elements.items with
  | none =>
    rw [hfound] at h
    cases h
    rfl
  | some e =>
    rw [hfound] at h
    dsimp only at h
    split at h
    · cases h
    · split at h <;> cases h <;> rfl

/-- The list of a pack is never left unsorted. -/
theorem Reached.sorted (h : Reached s) : s.elements.sorted = true := by
  induction h with
  | init h => exact (Filled.init h).2.sorted
  | add _ hadd ih => exact packAddValue_sorted ih hadd
  | get _ hget ih => rwa [packGetArray_same ih hget]
  | read _ hread ih => exact packRead_sorted ih hread
  | write _ hwrite ih => exact packWrite_sorted ih hwrite

/-- What a caller can see of a pack is as it was. -/
structure Unchanged (s s' : Pack) : Prop where
  items : s'.elements.items = s.elements.items
  values : ∀ e ∈ s.elements.items, valuesOf s' e = valuesOf s e
  totalSize : s'.totalSize = s.totalSize

end

/-- Later calls of a pack, whatever they return. -/
inductive After (s : Pack) : Pack → Prop
  | refl : After s s
  | add {s' s'' : Pack} {name : CString} {value : Addition} {ok : Bool} (h : After s s')
      (hadd : packAddValue s' name value = Except.ok (ok, s'')) : After s s''
  | write {s' s'' : Pack} {w : Written} (h : After s s')
      (hwrite : packWrite s' = Except.ok (w, s'')) : After s s''

/-- The pack has been written in these bytes. -/
structure Locked (s : Pack) (out : List UInt8) : Prop where
  sorted : s.elements.sorted = true
  items : s.elements.items ≠ []
  buf : s.buf = some out

section

variable {s s' s1 s2 : Pack} {cname : CString} {value : Addition} {ok : Bool} {w : Written}
  {out : List UInt8}

/-- The length is only stored on the way that makes the buffer. -/
theorem Locked.rewrite (h : Locked s out) : packWrite s = Except.ok (⟨some out, none⟩, s) := by
  unfold packWrite
  rw [if_neg h.items, h.buf]
  rfl

theorem Locked.add (h : Locked s out) (hadd : packAddValue s cname value = Except.ok (ok, s')) :
    Locked s' out := by
  refine ⟨packAddValue_sorted h.sorted hadd, ?_, ?_⟩
  · rcases packAddValue_leaves h.sorted hadd with ⟨-, -, hsame⟩ | ⟨e, s1, -, hchosen, hstores⟩
    · rw [hsame]
      exact h.items
    · rw [hstores.elements]
      exact List.ne_nil_of_mem hchosen.mem
  · rcases packAddValue_leaves h.sorted hadd with ⟨-, -, hsame⟩ | ⟨e, s1, -, hchosen, hstores⟩
    · rw [hsame]
      exact h.buf
    · exact (hstores.buf.trans hchosen.buf).trans h.buf

theorem Locked.after (h : Locked s out) (hafter : After s s') : Locked s' out := by
  induction hafter with
  | refl => exact h
  | add _ hadd ih => exact ih.add hadd
  | write _ hwrite ih =>
    rw [ih.rewrite] at hwrite
    cases hwrite
    exact ih

end

end HCore.PackCalls
