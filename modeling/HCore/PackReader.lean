import HCore.Framing
import HCore.PackModel

/-!
The reader as a machine over pieces. In every phase the reader waits for a
number of bytes that it knows, and what it does next depends on these bytes
only. The loop over the caller's memory is a run of that machine, as long as
requests for memory are granted and the lists stay within the range of an
`int`.
-/

namespace HCore.PackReader

open Machine LittleEndian PoolRequests SortedList Framing PackModel

section

variable {α β : Type}

@[simp] theorem result_pure (a : α) : (pure a : Traced α).result = Except.ok a := rfl

@[simp] theorem result_lift (x : Exec α) : (Traced.lift x).result = x := rfl

@[simp] theorem result_bind (x : Traced α) (f : α → Traced β) :
    (x >>= f).result = x.result >>= fun a => (f a).result := by
  change (Traced.bind x f).result = _
  unfold Traced.bind
  cases x.result with
  | error e => rfl
  | ok a => rfl

@[simp] theorem memcpy_result (mem : Bytes) (p n : ℕ) :
    (memcpy mem p n).result = Except.ok (window mem p n) := rfl

@[simp] theorem packReadInt_result (mem : Bytes) (p : ℕ) :
    (packReadInt mem p).result = Except.ok (decode32 (window mem p 4)) := rfl

end

@[simp] theorem window_length (mem : Bytes) (p n : ℕ) : (window mem p n).length = n := by
  rw [window, List.length_map, List.length_range]

theorem window_add (mem : Bytes) (p m n : ℕ) :
    window mem p (m + n) = window mem p m ++ window mem (p + m) n := by
  simp only [window, List.range_add, List.map_append, List.map_map]
  congr 1
  apply List.map_congr_left
  intro i _
  rw [Function.comp_apply, Nat.add_assoc]

theorem window_succ (mem : Bytes) (p n : ℕ) :
    window mem p (n + 1) = mem p :: window mem (p + 1) n := by
  rw [Nat.add_comm, window_add]
  rfl

/-- Bytes that a memory holds from an address on. -/
def HoldsAt (mem : Bytes) (p : ℕ) (bytes : List UInt8) : Prop := window mem p bytes.length = bytes

theorem HoldsAt.append {mem : Bytes} {p : ℕ} {bytes rest : List UInt8}
    (h : HoldsAt mem p (bytes ++ rest)) :
    HoldsAt mem p bytes ∧ HoldsAt mem (p + bytes.length) rest := by
  unfold HoldsAt at *
  rw [List.length_append, window_add] at h
  exact List.append_inj h (window_length ..)

/-- The bytes before the first NUL. -/
def untilNul (bytes : List UInt8) : List UInt8 := bytes.takeWhile (· ≠ 0)

theorem copyString_result (mem : Bytes) (n p : ℕ) :
    (copyString mem n p).result = Except.ok (untilNul (window mem p n)) := by
  induction n generalizing p with
  | zero => rfl
  | succ n ih =>
    rw [copyString, window_succ, untilNul, List.takeWhile_cons]
    simp only [result_bind, peek, ok_bind]
    by_cases hnul : mem p = 0
    · simp only [hnul, if_true, result_pure, ne_eq, not_true_eq_false, decide_false]
      rfl
    · simp only [hnul, if_false, result_bind, ih, ok_bind, result_pure, ne_eq, not_false_eq_true,
        decide_true, if_true]
      rfl

theorem snprintfString_result (mem : Bytes) (n p : ℕ) :
    (snprintfString mem n p).result = Except.ok (untilNul (window mem p n)) := by
  unfold snprintfString
  split
  · next hzero =>
    rw [hzero]
    rfl
  · exact copyString_result mem n p

/-- A value of bytes is stored, in a block of `size` bytes. -/
def elemStore (s : Pack) (e : Elem) (size : ℕ) (bytes : List UInt8) : Exec (Bool × Pack) := do
  let (ok, s) ← pushValue s e
  if ok then
    match palloc s size with
    | (false, s) => pure (false, s)
    | (true, s) => pure (true, setValue s e (.data bytes))
  else pure (false, s)

theorem elemAddData_result (s : Pack) (e : Elem) (mem : Bytes) (p n : ℕ) :
    (elemAddData s e mem p n).result = elemStore s e n (window mem p n) := by
  unfold elemAddData elemStore
  rw [result_bind, result_lift]
  congr 1
  funext r
  obtain ⟨ok, s⟩ := r
  cases ok with
  | false => rfl
  | true =>
    dsimp only
    rw [if_pos rfl, if_pos rfl]
    rcases palloc s n with ⟨granted, s⟩
    cases granted <;> rfl

theorem elemAddStr_result (s : Pack) (e : Elem) (str : Str) :
    (elemAddStr s e str).result = elemStore s e (str.len + 1) (untilNul str.bytes) := by
  unfold elemAddStr elemStore
  rw [result_bind, result_lift]
  congr 1
  funext r
  obtain ⟨ok, s⟩ := r
  cases ok with
  | false => rfl
  | true =>
    dsimp only
    rw [if_pos rfl, if_pos rfl]
    rcases palloc s (str.len + 1) with ⟨granted, s⟩
    cases granted with
    | false => rfl
    | true =>
      dsimp only
      rw [result_bind, snprintfString_result]
      rfl

/-- One round of the reader on the bytes that it has waited for. -/
def consume (s : Pack) (bytes : List UInt8) : Exec (Flow × Pack) :=
  match s.phase with
  | .init =>
    if decode32 bytes = 0 then pure (.reject, s)
    else
      pure (.next, { s with num := decode32 bytes, curNum := 0, phase := .elemNameLen, needSize := 4 })
  | .elemNameLen =>
    if s.max ≠ 0 ∧ s.max < s.num then pure (.reject, s)
    else
      pure (.next,
        { s with elemNameLen := decode32 bytes, phase := .elemName, needSize := decode32 bytes })
  | .elemName =>
    match palloc s s.elemNameLen with
    | (false, s) => pure (.reject, { s with elemName := [] })
    | (true, s) => pure (.next, { s with elemName := bytes, phase := .elemType, needSize := 4 })
  | .elemType =>
    pure (.next, { s with elemType := decode32 bytes, phase := .valueNum, needSize := 4 })
  | .valueNum => startValues { s with valueNum := decode32 bytes }
  | .valueDataInt =>
    let s := { s with curValueNum := toUInt32 (s.curValueNum + 1 : ℕ) }
    match s.curElem with
    | none => undefined
    | some e => do
      let (ok, s) ← elemAddInt s e (decode32 bytes)
      if ok then pure (afterValue s .valueDataInt) else pure (.reject, s)
  | .valueDataValueLen =>
    pure (.next,
      { s with valueLen := decode32 bytes, phase := .valueDataValue, needSize := decode32 bytes })
  | .valueDataValue =>
    match s.curElem with
    | none => undefined
    | some e => do
      let (ok, s) ← if s.elemType = ElemType.str.code then
          elemStore s e (s.valueLen + 1) (untilNul bytes)
        else elemStore s e s.valueLen bytes
      if ok then
        pure (afterValue { s with curValueNum := toUInt32 (s.curValueNum + 1 : ℕ) }
          .valueDataValueLen)
      else pure (.reject, s)
  | .done => pure (.done, s)

/-- The number of bytes that a phase reads is the number that it waits for. -/
def Aligned (s : Pack) : Prop :=
  match s.phase with
  | .elemName => s.needSize = s.elemNameLen
  | .valueDataValue => s.needSize = s.valueLen
  | .done => True
  | _ => s.needSize = 4

section

variable {s s' : Pack} {e : Elem}

/-- Storing a value changes the pool and the arrays only. -/
def Stores (s s' : Pack) : Prop := s' = { s with pool := s'.pool, arrays := s'.arrays }

theorem Stores.trans {s'' : Pack} (h : Stores s s') (h' : Stores s' s'') : Stores s s'' := by
  unfold Stores at *
  rw [h', h]

theorem Stores.elements (h : Stores s s') : s'.elements = s.elements := by rw [h]

theorem Stores.totalSize (h : Stores s s') : s'.totalSize = s.totalSize := by rw [h]

theorem Stores.buf (h : Stores s s') : s'.buf = s.buf := by rw [h]

theorem palloc_stores (s : Pack) (size : ℕ) : Stores s (palloc s size).2 := rfl

theorem setValue_stores (s : Pack) (e : Elem) (v : Value) : Stores s (setValue s e v) := rfl

theorem pushValue_stores {ok : Bool} (h : pushValue s e = Except.ok (ok, s')) : Stores s s' := by
  unfold pushValue at h
  split at h
  · cases h
  · obtain ⟨⟨a?, pool⟩, -, h⟩ := bind_eq_ok.mp h
    cases a? with
    | none =>
      cases h
      rfl
    | some a =>
      cases h
      rfl

theorem elemAddInt_stores {i : ℕ} {ok : Bool} (h : elemAddInt s e i = Except.ok (ok, s')) :
    Stores s s' := by
  obtain ⟨⟨pushed, s1⟩, h1, h⟩ := bind_eq_ok.mp h
  have hs1 := pushValue_stores h1
  cases pushed with
  | false =>
    cases h
    exact hs1
  | true =>
    cases h
    exact hs1.trans (setValue_stores ..)

theorem elemStore_stores {size : ℕ} {bytes : List UInt8} {ok : Bool}
    (h : elemStore s e size bytes = Except.ok (ok, s')) : Stores s s' := by
  obtain ⟨⟨pushed, s1⟩, h1, h⟩ := bind_eq_ok.mp h
  have hs1 := pushValue_stores h1
  cases pushed with
  | false =>
    cases h
    exact hs1
  | true =>
    have hs2 := palloc_stores s1 size
    dsimp only at h
    rw [if_pos rfl] at h
    rcases hcase : palloc s1 size with ⟨granted, s2⟩
    rw [hcase] at h hs2
    cases granted with
    | false =>
      cases h
      exact hs1.trans hs2
    | true =>
      cases h
      exact (hs1.trans hs2).trans (setValue_stores ..)

theorem elemCreate_stores (s : Pack) (name : List UInt8) (type num : ℕ) :
    Stores s (elemCreate s name type num).2 := by
  unfold elemCreate
  simp only [palloc]
  cases (s.pool.palloc elemSize).1 with
  | false => rfl
  | true =>
    dsimp only
    cases ((s.pool.palloc elemSize).2.palloc name.length).1 with
    | false => rfl
    | true =>
      cases ElemType.ofCode type with
      | none => rfl
      | some t =>
        dsimp only
        rcases arrayCreate (α := Value) _ _ _ with ⟨_ | a, pool⟩ <;> rfl

/-- In every phase the effect of a round is that of its bytes. -/
theorem readPhase_consume (mem : Bytes) (p : ℕ) (h : Aligned s) :
    ((readPhase mem p s).result >>= fun r => Except.ok (r.1, r.2.2)) =
      consume s (window mem p s.needSize) := by
  unfold Aligned at h
  unfold readPhase consume
  cases hphase : s.phase with
  | init =>
    simp only [hphase] at h
    simp only [result_bind, packReadInt_result, ok_bind, h]
    split <;> rfl
  | elemNameLen =>
    simp only [hphase] at h
    simp only [h]
    split
    · rfl
    · simp only [result_bind, packReadInt_result, ok_bind, result_pure]
      rfl
  | elemName =>
    simp only [hphase] at h
    simp only [h, palloc]
    cases (s.pool.palloc s.elemNameLen).1 with
    | false => rfl
    | true =>
      simp only [result_bind, memcpy_result, ok_bind, result_pure]
      rfl
  | elemType =>
    simp only [hphase] at h
    simp only [result_bind, packReadInt_result, ok_bind, result_pure, h]
    rfl
  | valueNum =>
    simp only [hphase] at h
    simp only [result_bind, packReadInt_result, ok_bind, result_lift, h]
    generalize startValues _ = x
    cases x <;> rfl
  | valueDataInt =>
    simp only [hphase] at h
    simp only [result_bind, packReadInt_result, ok_bind, h]
    cases s.curElem with
    | none => rfl
    | some e =>
      simp only [result_bind, result_lift]
      rcases elemAddInt _ e _ with _ | ⟨ok, s1⟩
      · rfl
      · cases ok <;> rfl
  | valueDataValueLen =>
    simp only [hphase] at h
    simp only [result_bind, packReadInt_result, ok_bind, result_pure, h]
    rfl
  | valueDataValue =>
    simp only [hphase] at h
    simp only [h]
    cases s.curElem with
    | none => rfl
    | some e =>
      dsimp only
      split
      · rw [result_bind, elemAddStr_result, Str.bytes]
        rcases elemStore s e _ _ with _ | ⟨ok, s1⟩
        · rfl
        · cases ok <;> rfl
      · rw [result_bind, elemAddData_result]
        rcases elemStore s e _ _ with _ | ⟨ok, s1⟩
        · rfl
        · cases ok <;> rfl
  | done => rfl

theorem afterValue_valueLen (s : Pack) (next : Phase) :
    (afterValue s next).2.valueLen = s.valueLen := by
  unfold afterValue
  split
  · dsimp only
    split <;> rfl
  · rfl

theorem afterValue_elements (s : Pack) (next : Phase) :
    (afterValue s next).2.elements = s.elements := by
  unfold afterValue
  split
  · dsimp only
    split <;> rfl
  · rfl

/-- The state behind the bytes of a stored value. -/
theorem valueData_inv {x : Exec (Bool × Pack)} {p q : ℕ} {flow : Flow}
    (hstores : ∀ ok s1, x = Except.ok (ok, s1) → Stores s s1)
    (hrun : (x >>= fun r => (if r.1 = true then
        pure ((afterValue { r.2 with
            curValueNum := toUInt32 (r.2.curValueNum + 1 : ℕ) } .valueDataValueLen).1,
          p + (afterValue { r.2 with
            curValueNum := toUInt32 (r.2.curValueNum + 1 : ℕ) } .valueDataValueLen).2.valueLen,
          (afterValue { r.2 with
            curValueNum := toUInt32 (r.2.curValueNum + 1 : ℕ) } .valueDataValueLen).2)
      else pure (.reject, p, r.2) : Traced (Flow × ℕ × Pack)).result) = Except.ok (flow, q, s')) :
    (flow ≠ .reject → q = p + s.valueLen) ∧ s'.elements = s.elements := by
  obtain ⟨⟨ok, s1⟩, h1, hrun⟩ := bind_eq_ok.mp hrun
  have hs1 := hstores ok s1 h1
  cases ok with
  | false =>
    cases hrun
    exact ⟨fun hflow => absurd rfl hflow, hs1.elements⟩
  | true =>
    have hlen : s1.valueLen = s.valueLen := by rw [hs1]
    cases hrun
    rw [afterValue_valueLen, afterValue_elements, hlen]
    exact ⟨fun _ => rfl, hs1.elements⟩

/-- What a round does: unless it rejects or the reader is at its end, it takes the bytes
that it waits for, and only the start of an element changes the list. -/
theorem readPhase_inv {mem : Bytes} {p q : ℕ} {flow : Flow}
    (hrun : (readPhase mem p s).result = Except.ok (flow, q, s')) :
    (Aligned s → flow ≠ .reject → s.phase ≠ .done → q = p + s.needSize) ∧
      (s'.elements = s.elements ∨
        ∃ s0 : Pack, s0.elements = s.elements ∧ startValues s0 = Except.ok (flow, s')) := by
  unfold Aligned
  unfold readPhase at hrun
  cases hphase : s.phase with
  | init =>
    simp only [hphase, result_bind, packReadInt_result, ok_bind] at hrun
    split at hrun
    · cases hrun
      exact ⟨fun _ hflow => absurd rfl hflow, Or.inl rfl⟩
    · cases hrun
      exact ⟨fun h _ _ => by rw [h], Or.inl rfl⟩
  | elemNameLen =>
    simp only [hphase] at hrun
    split at hrun
    · cases hrun
      exact ⟨fun _ hflow => absurd rfl hflow, Or.inl rfl⟩
    · simp only [result_bind, packReadInt_result, ok_bind] at hrun
      cases hrun
      exact ⟨fun h _ _ => by rw [h], Or.inl rfl⟩
  | elemName =>
    simp only [hphase, palloc] at hrun
    cases hgrant : (s.pool.palloc s.elemNameLen).1 with
    | false =>
      rw [hgrant] at hrun
      cases hrun
      exact ⟨fun _ hflow => absurd rfl hflow, Or.inl rfl⟩
    | true =>
      rw [hgrant] at hrun
      cases hrun
      exact ⟨fun h _ _ => by rw [h], Or.inl rfl⟩
  | elemType | valueDataValueLen =>
    simp only [hphase, result_bind, packReadInt_result, ok_bind] at hrun
    cases hrun
    exact ⟨fun h _ _ => by rw [h], Or.inl rfl⟩
  | valueNum =>
    simp only [hphase, result_bind, packReadInt_result, ok_bind, result_lift] at hrun
    obtain ⟨r, hstart, hrun⟩ := bind_eq_ok.mp hrun
    cases hrun
    let s0 : Pack := { s with phase := .valueNum, valueNum := decode32 (window mem p 4) }
    have hs0 : s0.elements = s.elements := rfl
    exact ⟨fun h _ _ => by rw [h], Or.inr ⟨s0, hs0, hstart⟩⟩
  | valueDataInt =>
    simp only [hphase, result_bind, packReadInt_result, ok_bind] at hrun
    cases hcur : s.curElem with
    | none =>
      rw [hcur] at hrun
      cases hrun
    | some e =>
      simp only [hcur, result_bind, result_lift] at hrun
      obtain ⟨⟨ok, s1⟩, hadd, hrun⟩ := bind_eq_ok.mp hrun
      have hkeep := (elemAddInt_stores hadd).elements
      cases ok with
      | false =>
        cases hrun
        exact ⟨fun _ hflow => absurd rfl hflow, Or.inl hkeep⟩
      | true =>
        cases hrun
        exact ⟨fun h _ _ => by rw [h], Or.inl ((afterValue_elements ..).trans hkeep)⟩
  | valueDataValue =>
    simp only [hphase] at hrun
    cases hcur : s.curElem with
    | none =>
      rw [hcur] at hrun
      cases hrun
    | some e =>
      rw [hcur] at hrun
      dsimp only at hrun
      have hinv : (flow ≠ .reject → q = p + s.valueLen) ∧ s'.elements = s.elements := by
        split at hrun
        · rw [result_bind, elemAddStr_result] at hrun
          exact valueData_inv (fun ok s1 h1 => elemStore_stores h1) hrun
        · rw [result_bind, elemAddData_result] at hrun
          exact valueData_inv (fun ok s1 h1 => elemStore_stores h1) hrun
      exact ⟨fun h hflow _ => by rw [h]; exact hinv.1 hflow, Or.inl hinv.2⟩
  | done =>
    simp only [hphase] at hrun
    cases hrun
    exact ⟨fun _ _ hdone => absurd rfl hdone, Or.inl rfl⟩

/-- A round that does not end the reader takes the bytes that it waits for. -/
theorem readPhase_addr {mem : Bytes} {p q : ℕ} {flow : Flow} (h : Aligned s)
    (hrun : (readPhase mem p s).result = Except.ok (flow, q, s')) (hflow : flow ≠ .reject)
    (hdone : s.phase ≠ .done) : q = p + s.needSize :=
  (readPhase_inv hrun).1 h hflow hdone

/-- The array of the element that the reader fills. -/
structure Current (s : Pack) (e : Elem) (a : Slots Value) : Prop where
  elem : s.curElem = some e
  array : s.arrays[e.values]? = some a
  nelts : a.nelts = s.curValueNum
  nalloc : a.nalloc = s.valueNum
  room : a.room = s.valueNum
  lt : s.curValueNum < s.valueNum
  valueNum_lt : s.valueNum < 2 ^ 32
  type : s.elemType = e.type.code

/-- An array with one more value. -/
def Slots.filled (a : Slots Value) (v : Value) : Slots Value :=
  { a with elts := a.elts ++ [some v] }

/-- The array of an element is replaced. -/
def replaceArray (s : Pack) (e : Elem) (a : Slots Value) : Pack :=
  { s with arrays := s.arrays.set e.values a }

variable {a : Slots Value}

theorem pushValue_spare (harray : s.arrays[e.values]? = some a) (hspare : a.nelts < a.nalloc)
    (hroom : a.nalloc ≤ a.room) :
    pushValue s e = Except.ok (true, replaceArray s e { a with elts := a.elts ++ [none] }) := by
  simp only [pushValue, harray, arrayPush_spare s.pool _ hspare hroom, ok_bind, pure_eq_ok,
    replaceArray]

/-- The value is stored in the slot that was pushed for it. -/
theorem setValue_pushed (harray : s.arrays[e.values]? = some a) (v : Value) :
    setValue (replaceArray s e { a with elts := a.elts ++ [none] }) e v =
      replaceArray s e (Slots.filled a v) := by
  obtain ⟨hlt, -⟩ := List.getElem?_eq_some_iff.mp harray
  simp only [setValue, replaceArray, Slots.filled]
  congr 1
  apply List.ext_getElem?
  intro j
  rw [List.getElem?_modify, List.getElem?_set, List.getElem?_set]
  by_cases hj : e.values = j
  · simp only [hj, if_true, hj ▸ hlt, Option.map_eq_map, Option.map_some, Slots.setLast,
      List.dropLast_concat]
  · simp only [hj, if_false, Option.map_eq_map, Option.map_id']

theorem elemAddInt_spare (harray : s.arrays[e.values]? = some a) (hspare : a.nelts < a.nalloc)
    (hroom : a.nalloc ≤ a.room) (i : ℕ) :
    elemAddInt s e i = Except.ok (true, replaceArray s e (Slots.filled a (.int i))) := by
  simp only [elemAddInt, pushValue_spare harray hspare hroom, ok_bind, if_true, pure_eq_ok,
    setValue_pushed harray]

theorem elemStore_spare (h : s.pool.Granting) (harray : s.arrays[e.values]? = some a)
    (hspare : a.nelts < a.nalloc) (hroom : a.nalloc ≤ a.room) (size : ℕ) (bytes : List UInt8) :
    elemStore s e size bytes =
      Except.ok (true,
        replaceArray { s with pool := s.pool.tick } e (Slots.filled a (.data bytes))) := by
  have hset := setValue_pushed (s := { s with pool := s.pool.tick }) harray (.data bytes)
  simp only [elemStore, pushValue_spare harray hspare hroom, ok_bind, if_true, palloc,
    replaceArray, h.palloc, pure_eq_ok]
  exact congrArg (fun t => Except.ok (true, t)) hset

/-- The phase in which the values of an element of this type are read. -/
def valuePhase : ElemType → Phase
  | .int => .valueDataInt
  | .data => .valueDataValueLen
  | .str => .valueDataValueLen

/-- A new element without values yet. -/
structure Started (s s' : Pack) (t : ElemType) (pos : ℕ) : Prop where
  granting : s'.pool.Granting
  usable : s'.elements.Usable
  items : s'.elements.items = s.elements.items.take pos ++
    ⟨s.elemName.take s.elemNameLen, t, s.arrays.length⟩ :: s.elements.items.drop pos
  same : s' =
    { s with
      pool := s'.pool
      elements := s'.elements
      arrays := s.arrays ++ [⟨[], s.valueNum, s.valueNum⟩]
      curElem := some ⟨s.elemName.take s.elemNameLen, t, s.arrays.length⟩
      curValueNum := 0
      phase := valuePhase t
      needSize := 4 }

theorem elemCreate_granting (h : s.pool.Granting) (name : List UInt8) (type num : ℕ) :
    ∃ pool', pool'.Granting ∧ elemCreate s name type num =
      match ElemType.ofCode type with
      | none => (none, { s with pool := pool' })
      | some t =>
        (some ⟨name, t, s.arrays.length⟩,
          { s with
            pool := pool'
            arrays := s.arrays ++
              [⟨[], if num = 0 then 1 else num, if num = 0 then 1 else num⟩] }) := by
  cases htype : ElemType.ofCode type with
  | none =>
    refine ⟨s.pool.tick.tick, h, ?_⟩
    simp only [elemCreate, palloc, h.palloc, h.tick.palloc, htype]
  | some t =>
    refine ⟨s.pool.tick.tick.tick.tick, h, ?_⟩
    simp only [elemCreate, palloc, h.palloc, h.tick.palloc, htype,
      arrayCreate_granting h.tick.tick]

/-- A new element is created and inserted. In a sorted list it goes between
those that compare at most and at least equal. -/
theorem startValues_granting (h : s.pool.Granting) (hl : s.elements.Usable)
    (hlen : s.elements.items.length < 2 ^ 30) (hnum : s.valueNum ≠ 0) {t : ElemType}
    (htype : ElemType.ofCode s.elemType = some t) :
    ∃ s' pos, startValues s = Except.ok (.next, s') ∧ Started s s' t pos ∧
      (Ascends (fun y => packCmpName y ⟨s.elemName.take s.elemNameLen, t, s.arrays.length⟩)
          s.elements.items →
        (∀ x ∈ s.elements.items.take pos,
          packCmpName x ⟨s.elemName.take s.elemNameLen, t, s.arrays.length⟩ ≤ 0) ∧
        ∀ x ∈ s.elements.items.drop pos,
          0 ≤ packCmpName x ⟨s.elemName.take s.elemNameLen, t, s.arrays.length⟩) := by
  obtain ⟨pool', hpool', hcreate⟩ := elemCreate_granting (s := { s with curValueNum := 0 }) h
    (s.elemName.take s.elemNameLen) s.elemType s.valueNum
  obtain ⟨l', pool'', pos, hinsert, hgrants, husable, hitems, hsigns⟩ :=
    listInsert_spec stdlib packCmpName ⟨s.elemName.take s.elemNameLen, t, s.arrays.length⟩ hpool' hl hlen
  have hpool'' : pool''.Granting := by
    intro i size
    rw [hgrants]
    exact hpool' i size
  rw [htype] at hcreate
  simp only [hnum, if_false] at hcreate
  refine ⟨{ s with
      pool := pool''
      elements := l'
      arrays := s.arrays ++ [⟨[], s.valueNum, s.valueNum⟩]
      curElem := some ⟨s.elemName.take s.elemNameLen, t, s.arrays.length⟩
      curValueNum := 0
      phase := valuePhase t
      needSize := 4 }, pos, ?_, ⟨hpool'', husable, hitems, rfl⟩, hsigns⟩
  unfold startValues
  rw [if_neg hnum]
  simp only [hcreate, hinsert, ok_bind, htype]
  cases t <;> rfl

/-- An unknown type is rejected. -/
theorem startValues_unknown (h : s.pool.Granting) (htype : ElemType.ofCode s.elemType = none) :
    ∃ s', startValues s = Except.ok (.reject, s') ∧ s'.phase = s.phase := by
  unfold startValues
  by_cases hnum : s.valueNum = 0
  · rw [if_pos hnum]
    exact ⟨_, rfl, rfl⟩
  · obtain ⟨pool', -, hcreate⟩ := elemCreate_granting (s := { s with curValueNum := 0 }) h
      (s.elemName.take s.elemNameLen) s.elemType s.valueNum
    rw [htype] at hcreate
    rw [if_neg hnum]
    simp only [hcreate]
    exact ⟨_, rfl, rfl⟩

/-- What is stored of a value of bytes. -/
def storedBytes (elemType : ℕ) (bytes : List UInt8) : List UInt8 :=
  if elemType = ElemType.str.code then untilNul bytes else bytes

/-- The reader with one more value. -/
def withValue (s : Pack) (e : Elem) (a : Slots Value) (v : Value) : Pack :=
  { replaceArray s e (Slots.filled a v) with curValueNum := s.curValueNum + 1 }

theorem consume_valueDataInt (hphase : s.phase = .valueDataInt) (hcur : Current s e a)
    (bytes : List UInt8) :
    consume s bytes =
      Except.ok (afterValue (withValue s e a (.int (decode32 bytes))) .valueDataInt) := by
  have hnelts := hcur.nelts
  have hnalloc := hcur.nalloc
  have hroom := hcur.room
  have hlt := hcur.lt
  have hnum := hcur.valueNum_lt
  have hcount : toUInt32 (s.curValueNum + 1 : ℕ) = s.curValueNum + 1 := toUInt32_of_lt (by omega)
  have hadd := elemAddInt_spare (s := { s with curValueNum := s.curValueNum + 1 }) hcur.array
    (by omega) (by omega) (decode32 bytes)
  simp only [hphase, hcur.elem] at hadd
  simp only [consume, hphase, hcount, hcur.elem, hadd, ok_bind, if_true, pure_eq_ok, withValue,
    replaceArray]

theorem consume_valueDataValue (h : s.pool.Granting) (hphase : s.phase = .valueDataValue)
    (hcur : Current s e a) (bytes : List UInt8) :
    consume s bytes =
      Except.ok (afterValue (withValue { s with pool := s.pool.tick } e a
        (.data (storedBytes s.elemType bytes))) .valueDataValueLen) := by
  have hnelts := hcur.nelts
  have hnalloc := hcur.nalloc
  have hroom := hcur.room
  have hlt := hcur.lt
  have hnum := hcur.valueNum_lt
  have hcount : toUInt32 (s.curValueNum + 1 : ℕ) = s.curValueNum + 1 := toUInt32_of_lt (by omega)
  have hstore := elemStore_spare h hcur.array (by omega) (by omega)
  simp only [consume, hphase, hcur.elem, hstore, storedBytes]
  split
  · simp only [ok_bind, if_true, replaceArray, hcount]
    rfl
  · simp only [ok_bind, if_true, replaceArray, hcount]
    rfl

def packNeed (s : Pack) : Option ℕ := if s.phase = .done then none else some s.needSize

def packStep (s : Pack) (bytes : List UInt8) : Option Pack :=
  match consume s bytes with
  | Except.ok (.reject, _) => none
  | Except.ok (_, s') => some s'
  | Except.error _ => none

def packMachine : Framing.Machine Pack UInt8 := ⟨packNeed, packStep⟩

/-- A round keeps the alignment, its flow agrees with the phase, and no empty
piece follows an empty piece. -/
structure Goes (need : ℕ) (flow : Flow) (s : Pack) : Prop where
  aligned : Aligned s
  done : flow = .done ↔ s.phase = .done
  need : need = 0 → s.phase ≠ .done → s.needSize = 4

theorem afterValue_accepts (s : Pack) (next : Phase) : (afterValue s next).1 ≠ .reject := by
  unfold afterValue
  split
  · dsimp only
    split <;> simp
  · simp

theorem afterValue_goes {next : Phase} (hnext : next = .valueDataInt ∨ next = .valueDataValueLen)
    (n : ℕ) : Goes n (afterValue s next).1 (afterValue s next).2 := by
  unfold afterValue
  split
  · dsimp only
    split
    · exact ⟨trivial, by simp, by simp⟩
    · exact ⟨rfl, by simp, by simp⟩
  · rcases hnext with rfl | rfl
    · exact ⟨rfl, by simp, by simp⟩
    · exact ⟨rfl, by simp, by simp⟩

/-- What a new element leaves in the reader if it is accepted. -/
theorem startValues_next {flow : Flow} (h : startValues s = Except.ok (flow, s'))
    (hflow : flow ≠ .reject) :
    flow = .next ∧ s.valueNum ≠ 0 ∧ ∃ t, ElemType.ofCode s.elemType = some t ∧
      s' = { s with
        pool := s'.pool
        elements := s'.elements
        arrays := s'.arrays
        curElem := s'.curElem
        curValueNum := 0
        phase := valuePhase t
        needSize := 4 } := by
  unfold startValues at h
  split at h
  · cases h
    exact absurd rfl hflow
  · next hnum =>
    split at h
    · cases h
      exact absurd rfl hflow
    · next e s1 hcreate =>
      obtain ⟨⟨elements, pool⟩, -, h⟩ := bind_eq_ok.mp h
      have hs1 : s1 = { s with pool := s1.pool, arrays := s1.arrays, curValueNum := 0 } := by
        have hstores := elemCreate_stores { s with curValueNum := 0 }
          (s.elemName.take s.elemNameLen) s.elemType s.valueNum
        rw [hcreate] at hstores
        exact hstores
      have htype : s1.elemType = s.elemType := by rw [hs1]
      dsimp only at h
      rw [htype] at h
      cases hcode : ElemType.ofCode s.elemType with
      | none =>
        rw [hcode] at h
        cases h
        exact absurd rfl hflow
      | some t =>
        rw [hcode] at h
        rw [hs1] at h
        cases t <;> cases h <;> exact ⟨rfl, hnum, _, rfl, rfl⟩

/-- The reader has memory, and its lists stay small on the input to come. -/
structure Sound (s : Pack) (rest : List UInt8) : Prop where
  aligned : Aligned s
  granting : s.pool.Granting
  usable : s.elements.Usable
  room : 4 * s.elements.items.length + rest.length < 2 ^ 31
  name : s.phase = .elemType ∨ s.phase = .valueNum → s.elemName.length = s.elemNameLen
  current : s.phase = .valueDataInt ∨ s.phase = .valueDataValueLen ∨ s.phase = .valueDataValue →
    ∃ e a, Current s e a

variable {bytes rest : List UInt8}

/-- The reader after a value is ready for what comes next. -/
theorem afterValue_sound {next : Phase} (hnext : next = .valueDataInt ∨ next = .valueDataValueLen)
    (hgrant : s.pool.Granting) (husable : s.elements.Usable)
    (hroom : 4 * s.elements.items.length + rest.length < 2 ^ 31)
    (hcur : s.curValueNum ≠ s.valueNum → ∃ e a, Current s e a) :
    Sound (afterValue s next).2 rest := by
  have haligned := (afterValue_goes (s := s) hnext 0).aligned
  have hne : next ≠ .elemType ∧ next ≠ .valueNum := by
    rcases hnext with rfl | rfl <;> decide
  unfold afterValue at haligned ⊢
  by_cases hlast : s.curValueNum = s.valueNum
  · rw [if_pos hlast] at haligned ⊢
    dsimp only at haligned ⊢
    by_cases hend : toUInt32 (s.curNum + 1 : ℕ) = s.num
    · rw [if_pos hend] at haligned ⊢
      exact ⟨haligned, hgrant, husable, hroom, by simp, by simp⟩
    · rw [if_neg hend] at haligned ⊢
      exact ⟨haligned, hgrant, husable, hroom, by simp, by simp⟩
  · rw [if_neg hlast] at haligned ⊢
    obtain ⟨e, a, h⟩ := hcur hlast
    refine ⟨haligned, hgrant, husable, hroom, ?_, ?_⟩
    · intro hphase
      rcases hphase with hphase | hphase
      · exact absurd hphase hne.1
      · exact absurd hphase hne.2
    · intro _
      exact ⟨e, a, h.elem, h.array, h.nelts, h.nalloc, h.room, h.lt, h.valueNum_lt, h.type⟩

/-- The current array after a value, if the element is not full. -/
theorem Current.withValue (h : Current s e a) (v : Value)
    (hmore : (withValue s e a v).curValueNum ≠ (withValue s e a v).valueNum) :
    Current (withValue s e a v) e (Slots.filled a v) := by
  have hlt := h.lt
  have hnelts := h.nelts
  have hmore' : s.curValueNum + 1 ≠ s.valueNum := hmore
  obtain ⟨hbound, -⟩ := List.getElem?_eq_some_iff.mp h.array
  refine ⟨h.elem, ?_, ?_, h.nalloc, h.room, ?_, h.valueNum_lt, h.type⟩
  · simp only [PackReader.withValue, replaceArray, List.getElem?_set, hbound, if_true]
  · simp only [Slots.filled, Slots.nelts, List.length_append, List.length_singleton,
      PackReader.withValue, replaceArray] at hnelts ⊢
    omega
  · simp only [PackReader.withValue, replaceArray]
    omega

theorem ElemType.code_ofCode {code : ℕ} {t : ElemType} (h : ElemType.ofCode code = some t) :
    code = t.code := by
  match code, h with
  | 0, h => cases h; rfl
  | 1, h => cases h; rfl
  | 2, h => cases h; rfl

theorem Started.sound {t : ElemType} {pos : ℕ} (h : Started s s' t pos)
    (htype : ElemType.ofCode s.elemType = some t) (hnum : s.valueNum ≠ 0)
    (hlt : s.valueNum < 2 ^ 32)
    (hroom : 4 * (s.elements.items.length + 1) + rest.length < 2 ^ 31) : Sound s' rest := by
  have hphase : s'.phase = valuePhase t := by rw [h.same]
  have hneed : s'.needSize = 4 := by rw [h.same]
  have hlen : s'.elements.items.length = s.elements.items.length + 1 := by
    rw [h.items, List.length_append, List.length_cons, List.length_take, List.length_drop]
    omega
  have harray : s'.arrays[s.arrays.length]? = some ⟨[], s.valueNum, s.valueNum⟩ := by
    rw [h.same]
    exact List.getElem?_concat_length ..
  have hcount : s'.curValueNum = 0 := by rw [h.same]
  have hvalueNum : s'.valueNum = s.valueNum := by rw [h.same]
  refine ⟨?_, h.granting, h.usable, by rw [hlen]; exact hroom, ?_, ?_⟩
  · unfold Aligned
    rw [hphase]
    cases t <;> exact hneed
  · rw [hphase]
    cases t <;> simp [valuePhase]
  · intro _
    refine ⟨_, _, by rw [h.same], harray, ?_, hvalueNum.symm, hvalueNum.symm, ?_, ?_, ?_⟩
    · rw [hcount]
      rfl
    · rw [hcount, hvalueNum]
      omega
    · rw [hvalueNum]
      exact hlt
    · rw [h.same]
      exact ElemType.code_ofCode htype

/-- Every round on sound input succeeds, and what it does not reject is sound
again. -/
theorem consume_sound (h : Sound s (bytes ++ rest)) (hneed : packNeed s = some bytes.length) :
    ∃ flow s', consume s bytes = Except.ok (flow, s') ∧ (flow = .reject → s'.phase = s.phase) ∧
      (flow ≠ .reject → Sound s' rest) := by
  have hroom := h.room
  rw [List.length_append] at hroom
  have halign := h.aligned
  unfold Aligned at halign
  have hlen : s.phase ≠ .done → s.needSize = bytes.length := by
    intro hphase
    rw [packNeed, if_neg hphase] at hneed
    exact Option.some.inj hneed
  cases hphase : s.phase with
  | init =>
    simp only [consume, hphase]
    split
    · exact ⟨_, _, rfl, fun _ => hphase, fun hne => absurd rfl hne⟩
    · exact ⟨_, _, rfl, by simp, fun _ => ⟨rfl, h.granting, h.usable, by dsimp only; omega, by simp,
        by simp⟩⟩
  | elemNameLen =>
    simp only [consume, hphase]
    split
    · exact ⟨_, _, rfl, fun _ => hphase, fun hne => absurd rfl hne⟩
    · exact ⟨_, _, rfl, by simp, fun _ => ⟨rfl, h.granting, h.usable, by dsimp only; omega, by simp,
        by simp⟩⟩
  | elemName =>
    simp only [hphase] at halign
    have hbytes := hlen (by rw [hphase]; simp)
    simp only [consume, hphase, palloc, h.granting.palloc]
    exact ⟨_, _, rfl, by simp, fun _ => ⟨rfl, h.granting, h.usable, by dsimp only; omega, by simp; omega,
      by simp⟩⟩
  | elemType =>
    have hname := h.name (Or.inl hphase)
    simp only [consume, hphase]
    exact ⟨_, _, rfl, by simp, fun _ => ⟨rfl, h.granting, h.usable, by dsimp only; omega, fun _ => hname,
      by simp⟩⟩
  | valueNum =>
    simp only [hphase] at halign
    have hfour := hlen (by rw [hphase]; simp)
    simp only [consume, hphase]
    by_cases hzero : decode32 bytes = 0
    · refine ⟨.reject, { s with valueNum := decode32 bytes }, ?_, fun _ => hphase,
        fun hne => absurd rfl hne⟩
      rw [← hphase]
      exact if_pos hzero
    · cases htype : ElemType.ofCode s.elemType with
      | none =>
        obtain ⟨s', hrun, hphase'⟩ := startValues_unknown (s := { s with valueNum := decode32 bytes })
          h.granting htype
        simp only [hphase] at hrun
        exact ⟨.reject, s', hrun, fun _ => hphase'.trans hphase, fun hne => absurd rfl hne⟩
      | some t =>
        obtain ⟨s', pos, hrun, hstarted, -⟩ := startValues_granting
          (s := { s with valueNum := decode32 bytes }) h.granting h.usable
          (by dsimp only; omega) hzero htype
        simp only [hphase] at hrun
        exact ⟨.next, s', hrun, by simp, fun _ => hstarted.sound htype hzero (decode32_lt bytes)
          (by dsimp only; omega)⟩
  | valueDataInt =>
    obtain ⟨e, a, hcur⟩ := h.current (Or.inl hphase)
    have hafter : Sound (afterValue (withValue s e a (.int (decode32 bytes))) .valueDataInt).2 rest :=
      afterValue_sound (Or.inl rfl) h.granting h.usable
        (by dsimp only [withValue, replaceArray]; omega)
        (fun hmore => ⟨e, _, hcur.withValue _ hmore⟩)
    exact ⟨_, _, consume_valueDataInt hphase hcur bytes, fun hreject => absurd hreject (afterValue_accepts _ _),
      fun _ => hafter⟩
  | valueDataValueLen =>
    obtain ⟨e, a, hcur⟩ := h.current (Or.inr (Or.inl hphase))
    simp only [consume, hphase]
    exact ⟨_, _, rfl, by simp, fun _ => ⟨rfl, h.granting, h.usable, by dsimp only; omega, by simp,
      fun _ => ⟨e, a, hcur.elem, hcur.array, hcur.nelts, hcur.nalloc, hcur.room, hcur.lt,
        hcur.valueNum_lt, hcur.type⟩⟩⟩
  | valueDataValue =>
    obtain ⟨e, a, hcur⟩ := h.current (Or.inr (Or.inr hphase))
    have hcur' : Current { s with pool := s.pool.tick } e a := ⟨hcur.elem, hcur.array, hcur.nelts,
      hcur.nalloc, hcur.room, hcur.lt, hcur.valueNum_lt, hcur.type⟩
    have hafter : Sound (afterValue (withValue { s with pool := s.pool.tick } e a
        (.data (storedBytes s.elemType bytes))) .valueDataValueLen).2 rest :=
      afterValue_sound (Or.inr rfl) h.granting h.usable
        (by dsimp only [withValue, replaceArray]; omega)
        (fun hmore => ⟨e, _, hcur'.withValue _ hmore⟩)
    exact ⟨_, _, consume_valueDataValue h.granting hphase hcur bytes, fun hreject => absurd hreject (afterValue_accepts _ _),
      fun _ => hafter⟩
  | done =>
    rw [packNeed, if_pos hphase] at hneed
    cases hneed

theorem packStep_eq_some {t : Pack} : packStep s bytes = some t ↔
    ∃ flow, flow ≠ .reject ∧ consume s bytes = Except.ok (flow, t) := by
  unfold packStep
  rcases consume s bytes with _ | ⟨flow, s'⟩
  · simp
  · cases flow <;> simp

theorem packNeed_eq_some {n : ℕ} (h : packNeed s = some n) : s.phase ≠ .done ∧ s.needSize = n := by
  unfold packNeed at h
  split at h
  · cases h
  · next hphase => exact ⟨hphase, Option.some.inj h⟩

/-- The reader behind a value that has been counted, whatever the memory for it was. -/
theorem consume_valueDataInt_next {flow : Flow} (hphase : s.phase = .valueDataInt)
    (hrun : consume s bytes = Except.ok (flow, s')) (hflow : flow ≠ .reject) :
    ∃ s1, Stores { s with curValueNum := toUInt32 (s.curValueNum + 1 : ℕ) } s1 ∧
      afterValue s1 .valueDataInt = (flow, s') := by
  unfold consume at hrun
  simp only [hphase] at hrun
  cases hcur : s.curElem with
  | none =>
    simp only [hcur] at hrun
    cases hrun
  | some e =>
    simp only [hcur] at hrun
    obtain ⟨⟨ok, s1⟩, h1, hrun⟩ := bind_eq_ok.mp hrun
    have hs1 := elemAddInt_stores h1
    cases ok with
    | false =>
      cases hrun
      exact absurd rfl hflow
    | true =>
      simp only [hphase]
      exact ⟨s1, hs1, Except.ok.inj hrun⟩

theorem consume_valueDataValue_next {flow : Flow} (hphase : s.phase = .valueDataValue)
    (hrun : consume s bytes = Except.ok (flow, s')) (hflow : flow ≠ .reject) :
    ∃ s1, Stores { s with curValueNum := toUInt32 (s.curValueNum + 1 : ℕ) } s1 ∧
      afterValue s1 .valueDataValueLen = (flow, s') := by
  unfold consume at hrun
  simp only [hphase] at hrun
  cases hcur : s.curElem with
  | none =>
    simp only [hcur] at hrun
    cases hrun
  | some e =>
    simp only [hcur] at hrun
    rw [ite_bind] at hrun
    obtain ⟨⟨ok, s1⟩, h1, hrun⟩ := bind_eq_ok.mp hrun
    have hs1 : Stores s s1 := by
      split at h1
      · exact elemStore_stores h1
      · exact elemStore_stores h1
    cases ok with
    | false =>
      cases hrun
      exact absurd rfl hflow
    | true =>
      refine ⟨{ s1 with curValueNum := toUInt32 (s1.curValueNum + 1 : ℕ) }, ?_, Except.ok.inj hrun⟩
      have hcount : s1.curValueNum = s.curValueNum := by rw [hs1]
      rw [hcount, ← hcur]
      exact congrArg (fun t : Pack => { t with curValueNum := toUInt32 (s.curValueNum + 1 : ℕ) }) hs1

/-- Every round that is not rejected goes on as its flow says. -/
theorem consume_goes {flow : Flow} (h : Aligned s) (hneed : packNeed s = some bytes.length)
    (hrun : consume s bytes = Except.ok (flow, s')) (hflow : flow ≠ .reject) :
    Goes bytes.length flow s' := by
  obtain ⟨hdone, hsize⟩ := packNeed_eq_some hneed
  have hconsume := hrun
  unfold Aligned at h
  unfold consume at hrun
  cases hphase : s.phase with
  | init | elemNameLen =>
    simp only [hphase] at hrun
    split at hrun
    · cases hrun
      exact absurd rfl hflow
    · simp only [hphase] at h
      cases hrun
      exact ⟨rfl, by simp, by omega⟩
  | elemName =>
    simp only [hphase, palloc] at hrun
    cases hgrant : (s.pool.palloc s.elemNameLen).1 with
    | false =>
      rw [hgrant] at hrun
      cases hrun
      exact absurd rfl hflow
    | true =>
      rw [hgrant] at hrun
      cases hrun
      exact ⟨rfl, by simp, by simp⟩
  | elemType =>
    simp only [hphase] at hrun
    cases hrun
    exact ⟨rfl, by simp, by simp⟩
  | valueNum =>
    simp only [hphase] at hrun
    obtain ⟨rfl, -, t, -, hs'⟩ := startValues_next hrun hflow
    have hphase' : s'.phase = valuePhase t := by rw [hs']
    have hneed' : s'.needSize = 4 := by rw [hs']
    refine ⟨?_, ?_, fun _ _ => hneed'⟩
    · unfold Aligned
      rw [hphase']
      cases t <;> exact hneed'
    · rw [hphase']
      cases t <;> simp [valuePhase]
  | valueDataInt =>
    obtain ⟨s1, -, hafter⟩ := consume_valueDataInt_next hphase hconsume hflow
    have hgoes := afterValue_goes (s := s1) (Or.inl rfl : Phase.valueDataInt = _ ∨ _) bytes.length
    rwa [hafter] at hgoes
  | valueDataValueLen =>
    simp only [hphase] at hrun h
    cases hrun
    exact ⟨rfl, by simp, by omega⟩
  | valueDataValue =>
    obtain ⟨s1, -, hafter⟩ := consume_valueDataValue_next hphase hconsume hflow
    have hgoes := afterValue_goes (s := s1) (Or.inr rfl : Phase.valueDataValueLen = _ ∨ _)
      bytes.length
    rwa [hafter] at hgoes
  | done => exact absurd hphase hdone

theorem packMachine_aligned : Kept packMachine (fun s _ => Aligned s) := by
  intro s bytes rest t hs hneed hstep
  obtain ⟨flow, hflow, hrun⟩ := packStep_eq_some.mp hstep
  exact (consume_goes hs hneed hrun hflow).aligned

theorem packMachine_kept : Kept packMachine Sound := by
  intro s bytes rest t hs hneed hstep
  obtain ⟨flow, hflow, hrun⟩ := packStep_eq_some.mp hstep
  obtain ⟨flow', s', hrun', -, hgood⟩ := consume_sound hs hneed
  rw [hrun] at hrun'
  cases hrun'
  exact hgood hflow

theorem packMachine_productive : Productive packMachine (fun s _ => Aligned s) := by
  intro s rest t hs hneed hstep
  obtain ⟨flow, hflow, hrun⟩ := packStep_eq_some.mp hstep
  have hempty : packNeed s = some ([] : List UInt8).length := hneed
  have hgoes := consume_goes hs hempty hrun hflow
  change packNeed t ≠ some 0
  unfold packNeed
  split
  · simp
  · next hphase =>
    rw [hgoes.need rfl hphase]
    simp

/-- A new pack. -/
theorem packInit_granting {pool : Pool} (h : pool.Granting) (max : ℕ) :
    ∃ s, packInit pool max = some s := by
  obtain ⟨l, hcreate, -, -⟩ := createList_granting (α := Elem) h
  apply Option.isSome_iff_exists.mp
  rw [packInit, hcreate]
  rfl

/-- The result of the loop that a run describes. -/
def LoopEnds (last : ℕ) (r : Exec (Flow × ℕ × Pack)) : Outcome Pack UInt8 → Prop
  | .stop s rest => r = Except.ok (.done, last - rest.length, s)
  | .reject => ∃ q s, r = Except.ok (.reject, q, s) ∧ s.phase ≠ .done

/-- A round of the loop is a round on the bytes that it waits for. -/
theorem readPhase_of_consume {mem : Bytes} {p : ℕ} {flow : Flow} {t : Pack} (h : Aligned s)
    (hmem : HoldsAt mem p bytes) (hneed : s.needSize = bytes.length) (hdone : s.phase ≠ .done)
    (hrun : consume s bytes = Except.ok (flow, t)) :
    ∃ q, (readPhase mem p s).result = Except.ok (flow, q, t) ∧
      (flow ≠ .reject → q = p + bytes.length) := by
  have hphase := readPhase_consume mem p h
  rw [hneed, hmem, hrun] at hphase
  obtain ⟨⟨flow', q, t'⟩, hresult, heq⟩ := bind_eq_ok.mp hphase
  cases heq
  refine ⟨q, hresult, fun hflow => ?_⟩
  rw [readPhase_addr h hresult hflow hdone, hneed]

/-- The loop over the caller's memory is a run of the machine, as long as
memory does not run out before a piece is rejected. -/
theorem readLoop_runs {input : List UInt8} {out : Outcome Pack UInt8}
    (hrun : Runs packMachine s input out) (hs : Aligned s) (hsound : out = .reject → Sound s input)
    {mem : Bytes} {p fuel : ℕ} (hmem : HoldsAt mem p input)
    (hfuel : rounds packMachine s input < fuel) :
    LoopEnds (p + input.length) (readLoop mem (p + input.length) fuel p s).result out := by
  induction hrun generalizing p fuel with
  | @final s input hneed =>
    obtain ⟨fuel, rfl⟩ : ∃ k, fuel = k + 1 := ⟨fuel - 1, by omega⟩
    have hphase : s.phase = .done := by
      by_contra hne
      have hsome : packNeed s = some s.needSize := if_neg hne
      have hnone : packNeed s = none := hneed
      rw [hnone] at hsome
      cases hsome
    have hround : (readPhase mem p s).result = Except.ok (.done, p, s) := by
      simp only [readPhase, hphase, result_pure]
    simp only [LoopEnds, readLoop, Nat.add_sub_cancel]
    split
    · simp only [result_bind, hround, ok_bind, result_pure]
    · rfl
  | @wait s input n hneed hlen =>
    obtain ⟨fuel, rfl⟩ : ∃ k, fuel = k + 1 := ⟨fuel - 1, by omega⟩
    obtain ⟨-, hsize⟩ := packNeed_eq_some hneed
    simp only [LoopEnds, readLoop, Nat.add_sub_cancel]
    rw [if_neg (by omega)]
    rfl
  | @reject s bytes rest hneed hstep =>
    obtain ⟨fuel, rfl⟩ : ∃ k, fuel = k + 1 := ⟨fuel - 1, by omega⟩
    obtain ⟨hbytes, -⟩ := hmem.append
    obtain ⟨hphase, hsize⟩ := packNeed_eq_some hneed
    obtain ⟨flow, s', hcons, hkeep, -⟩ := consume_sound (hsound rfl) hneed
    have hflow : flow = .reject := by
      by_contra hne
      have hsome := packStep_eq_some.mpr ⟨flow, hne, hcons⟩
      have hnone : packStep s bytes = none := hstep
      rw [hnone] at hsome
      cases hsome
    obtain ⟨q, hround, -⟩ := readPhase_of_consume hs hbytes hsize hphase hcons
    subst hflow
    refine ⟨q, s', ?_, by rw [hkeep rfl]; exact hphase⟩
    rw [readLoop, if_pos (by rw [List.length_append]; omega)]
    simp only [result_bind, hround, ok_bind, result_pure]
  | @piece s t bytes rest out hneed hstep hrest ih =>
    obtain ⟨fuel, rfl⟩ : ∃ k, fuel = k + 1 := ⟨fuel - 1, by omega⟩
    obtain ⟨hbytes, htail⟩ := hmem.append
    obtain ⟨hphase, hsize⟩ := packNeed_eq_some hneed
    obtain ⟨flow, hflow, hcons⟩ := packStep_eq_some.mp hstep
    have hgoes := consume_goes hs hneed hcons hflow
    obtain ⟨q, hround, hq⟩ := readPhase_of_consume hs hbytes hsize hphase hcons
    have haddr := hq hflow
    subst haddr
    have hlt : rounds packMachine t rest < rounds packMachine s (bytes ++ rest) :=
      rounds_lt packMachine_productive hs hneed hstep
    have hlast : p + (bytes ++ rest).length = p + bytes.length + rest.length := by
      rw [List.length_append]
      omega
    rw [readLoop, if_pos (by rw [List.length_append]; omega)]
    simp only [result_bind, hround, ok_bind]
    cases flow with
    | next =>
      dsimp only
      rw [hlast]
      exact ih hgoes.aligned (fun hout => packMachine_kept s bytes rest t (hsound hout) hneed hstep)
        htail (by omega)
    | done =>
      have hfinal : packMachine.need t = none := if_pos (hgoes.done.mp rfl)
      rw [hrest.deterministic (.final hfinal)]
      simp only [LoopEnds, result_pure, hlast, Nat.add_sub_cancel]
    | reject => exact absurd rfl hflow

/-- The result of a call that a run describes. -/
def CallEnds (n : ℕ) (r : Exec (ℤ × Pack)) : Outcome Pack UInt8 → Prop
  | .stop s rest => r = Except.ok ((n : ℤ) - rest.length, s)
  | .reject => ∃ s, r = Except.ok (-1, s) ∧ s.phase ≠ .done

/-- A call of the reader is a run of the machine. -/
theorem packRead_of_runs {input : List UInt8} {out : Outcome Pack UInt8}
    (hrun : Runs packMachine s input out) (hs : Aligned s) (hsound : out = .reject → Sound s input)
    {mem : Bytes} {buffer : ℕ} (hmem : HoldsAt mem buffer input) :
    CallEnds input.length (packRead mem buffer (buffer + input.length) s).result out := by
  have hfuel : rounds packMachine s input < readFuel (buffer + input.length - buffer) := by
    unfold rounds readFuel
    split <;> omega
  have hloop := readLoop_runs hrun hs hsound hmem hfuel
  unfold packRead
  rw [if_neg (by omega), result_bind]
  cases out with
  | stop s' rest =>
    obtain ⟨before, hinput, -⟩ := hrun.reads
    have hlen : rest.length ≤ input.length := by
      rw [hinput, List.length_append]
      omega
    have hloop' : (readLoop mem (buffer + input.length)
        (readFuel (buffer + input.length - buffer)) buffer s).result =
        Except.ok (.done, buffer + input.length - rest.length, s') := hloop
    rw [hloop', ok_bind]
    change Except.ok _ = Except.ok _
    congr 2
    omega
  | reject =>
    obtain ⟨q, s', hloop', hphase⟩ := hloop
    rw [hloop', ok_bind]
    exact ⟨s', rfl, hphase⟩

theorem packMachine_runs (s : Pack) (hs : Aligned s) (input : List UInt8) :
    ∃ out, Runs packMachine s input out :=
  packMachine_aligned.runs packMachine_productive s input hs

end

end HCore.PackReader
