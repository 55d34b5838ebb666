import HCore.PackGrammar

/-!
The reader on well-formed input. A new reader that is given a message, or the
first elements of one, holds these elements afterwards: their arrays in the
order they came, with the values as they are stored, and their entries in the
list. Entries that come in order stay in that order.
-/

namespace HCore.PackDecoding

open Machine LittleEndian PoolRequests SortedList Framing PackModel PackReader PackGrammar

/-- What the reader keeps of a value: a string ends before its first NUL. -/
def storedValue (t : ElemType) : Value → Value
  | .int i => .int i
  | .data bytes => .data (storedBytes t.code bytes)

/-- The array of an element that announces `n` values. -/
def arrayOf (t : ElemType) (n : ℕ) (values : List Value) : Slots Value :=
  ⟨values.map fun v => some (storedValue t v), n, n⟩

def arraysOf (elems : List Sent) : List (Slots Value) :=
  elems.map fun e => arrayOf e.type e.values.length e.values

/-- The entries of elements whose arrays are numbered as they came. -/
def indexed (elems : List Sent) : List Elem := elems.mapIdx fun i e => ⟨e.name, e.type, i⟩

theorem indexed_concat (elems : List Sent) (e : Sent) :
    indexed (elems ++ [e]) = indexed elems ++ [⟨e.name, e.type, elems.length⟩] := by
  rw [indexed, List.mapIdx_concat]
  rfl

theorem arraysOf_concat (elems : List Sent) (e : Sent) :
    arraysOf (elems ++ [e]) = arraysOf elems ++ [arrayOf e.type e.values.length e.values] := by
  rw [arraysOf, List.map_append]
  rfl

theorem arraysOf_length (elems : List Sent) : (arraysOf elems).length = elems.length :=
  List.length_map ..

/-- The reader holds these elements, with these arrays. -/
structure Holds (s : Pack) (elems : List Sent) (arrays : List (Slots Value)) : Prop where
  granting : s.pool.Granting
  usable : s.elements.Usable
  arrays : s.arrays = arrays
  length : s.elements.items.length = elems.length
  items : (indexed elems).Pairwise (fun a b => packCmpName a b < 0) →
    s.elements.items = indexed elems

structure Counts (s : Pack) (max num : ℕ) (elems : List Sent) : Prop where
  max : s.max = max
  num : s.num = num
  curNum : s.curNum = elems.length

/-- The reader waits for an element. -/
structure AtElem (s : Pack) (max num : ℕ) (elems : List Sent) : Prop where
  phase : s.phase = .elemNameLen
  needSize : s.needSize = 4
  counts : Counts s max num elems
  holds : Holds s elems (arraysOf elems)

/-- The reader behind an element: it waits for the next one, or is done. -/
structure PastElem (s : Pack) (max num : ℕ) (elems : List Sent) : Prop where
  done : elems.length = num → s.phase = .done
  more : elems.length ≠ num → AtElem s max num elems
  holds : Holds s elems (arraysOf elems)

/-- The reader inside an element with some of its values. -/
structure Within (s : Pack) (max num : ℕ) (elems : List Sent) (name : List UInt8) (t : ElemType)
    (n : ℕ) (values : List Value) : Prop where
  counts : Counts s max num elems
  valueNum : s.valueNum = n
  curValueNum : s.curValueNum = values.length
  elemType : s.elemType = t.code
  curElem : s.curElem = some ⟨name, t, elems.length⟩
  holds : Holds s (elems ++ [⟨name, t, values⟩]) (arraysOf elems ++ [arrayOf t n values])

/-- The reader waits for a value. -/
structure AtValue (s : Pack) (max num : ℕ) (elems : List Sent) (name : List UInt8) (t : ElemType)
    (n : ℕ) (values : List Value) : Prop where
  phase : s.phase = valuePhase t
  needSize : s.needSize = 4
  within : Within s max num elems name t n values

/-- The reader behind a value. -/
structure PastValue (s : Pack) (max num : ℕ) (elems : List Sent) (name : List UInt8) (t : ElemType)
    (n : ℕ) (values : List Value) : Prop where
  last : values.length = n → PastElem s max num (elems ++ [⟨name, t, values⟩])
  more : values.length ≠ n → AtValue s max num elems name t n values

section

variable {s s' : Pack} {max num n : ℕ} {elems : List Sent} {name bytes : List UInt8} {t : ElemType}
  {values : List Value} {v : Value}

theorem reads_piece (flow : Flow) (hphase : s.phase ≠ .done) (hneed : s.needSize = bytes.length)
    (hrun : consume s bytes = Except.ok (flow, s')) (hflow : flow ≠ .reject) :
    Reads packMachine s bytes s' := by
  apply Reads.single
  · change packNeed s = some bytes.length
    rw [packNeed, if_neg hphase, hneed]
  · exact packStep_eq_some.mpr ⟨flow, hflow, hrun⟩

theorem Within.current (h : Within s max num elems name t n values) (hlt : values.length < n)
    (hn : n < 2 ^ 32) : Current s ⟨name, t, elems.length⟩ (arrayOf t n values) := by
  have harrays := h.holds.arrays
  have hcur := h.curValueNum
  have hnum := h.valueNum
  refine ⟨h.curElem, ?_, ?_, hnum.symm, hnum.symm, by omega, by omega, h.elemType⟩
  · rw [harrays, ← arraysOf_length elems, List.getElem?_concat_length]
  · rw [hcur]
    exact List.length_map ..

/-- A value is added to the current element. -/
theorem Within.withValue (h : Within s max num elems name t n values) :
    Within (withValue s ⟨name, t, elems.length⟩ (arrayOf t n values) (storedValue t v))
      max num elems name t n (values ++ [v]) := by
  have hholds := h.holds
  have hentries (vs : List Value) : indexed (elems ++ [⟨name, t, vs⟩]) =
      indexed elems ++ [⟨name, t, elems.length⟩] := indexed_concat ..
  refine ⟨⟨h.counts.max, h.counts.num, h.counts.curNum⟩, h.valueNum, ?_, h.elemType, h.curElem,
    ⟨hholds.granting, hholds.usable, ?_, ?_, ?_⟩⟩
  · simp only [PackReader.withValue, replaceArray, h.curValueNum, List.length_append,
      List.length_singleton]
  · simp only [PackReader.withValue, replaceArray, hholds.arrays]
    rw [List.set_append_right _ _ (arraysOf_length elems).le, arraysOf_length, Nat.sub_self,
      List.set_cons_zero]
    simp only [Slots.filled, arrayOf, List.map_append, List.map_cons, List.map_nil]
  · have hlength := hholds.length
    simp only [List.length_append, List.length_singleton] at hlength ⊢
    exact hlength
  · have hitems := hholds.items
    rw [hentries] at hitems ⊢
    exact hitems

theorem Within.tick (h : Within s max num elems name t n values) :
    Within { s with pool := s.pool.tick } max num elems name t n values :=
  ⟨⟨h.counts.max, h.counts.num, h.counts.curNum⟩, h.valueNum, h.curValueNum, h.elemType, h.curElem,
    ⟨h.holds.granting, h.holds.usable, h.holds.arrays, h.holds.length, h.holds.items⟩⟩

theorem afterValue_past (h : Within s max num elems name t n values) (hlt : elems.length < num)
    (hnum : num < 2 ^ 32) {next : Phase} (hnext : next = valuePhase t) :
    PastValue (afterValue s next).2 max num elems name t n values := by
  have hcount : toUInt32 (s.curNum + 1 : ℕ) = elems.length + 1 := by
    rw [h.counts.curNum]
    exact toUInt32_of_lt (by omega)
  have hfull : s.curValueNum = s.valueNum ↔ values.length = n := by
    rw [h.curValueNum, h.valueNum]
  have hlength : (elems ++ [Sent.mk name t values]).length = elems.length + 1 := by
    rw [List.length_append, List.length_singleton]
  have hholds := h.holds
  unfold afterValue
  by_cases hlast : values.length = n
  · subst hlast
    have harrays := hholds.arrays.trans (arraysOf_concat elems ⟨name, t, values⟩).symm
    refine ⟨fun _ => ?_, fun hmore => absurd rfl hmore⟩
    rw [if_pos (hfull.mpr rfl)]
    dsimp only
    rw [hcount, h.counts.num]
    by_cases hend : elems.length + 1 = num
    · rw [if_pos hend]
      exact ⟨fun _ => rfl, fun hmore => absurd (hlength.trans hend) hmore, hholds.granting,
        hholds.usable, harrays, hholds.length, hholds.items⟩
    · rw [if_neg hend]
      refine ⟨fun hdone => absurd (hlength.symm.trans hdone) hend, fun _ => ?_, hholds.granting,
        hholds.usable, harrays, hholds.length, hholds.items⟩
      exact ⟨rfl, rfl, ⟨h.counts.max, rfl, hlength.symm⟩, hholds.granting, hholds.usable, harrays,
        hholds.length, hholds.items⟩
  · refine ⟨fun hend => absurd hend hlast, fun _ => ?_⟩
    rw [if_neg (mt hfull.mp hlast)]
    exact ⟨hnext, rfl, ⟨h.counts.max, h.counts.num, h.counts.curNum⟩, h.valueNum, h.curValueNum,
      h.elemType, h.curElem, hholds.granting, hholds.usable, hholds.arrays, hholds.length,
      hholds.items⟩

/-- A value of the current element. -/
theorem reads_value (h : AtValue s max num elems name t n values) (hlt : elems.length < num)
    (hnum : num < 2 ^ 32) (hmore : values.length < n) (hn : n < 2 ^ 32) (hv : FitsType t v) :
    ∃ s', Reads packMachine s (encodeValue v) s' ∧
      PastValue s' max num elems name t n (values ++ [v]) := by
  have hcur := h.within.current hmore hn
  have hphase := h.phase
  cases v with
  | int i =>
    obtain ⟨rfl, hi⟩ := hv
    have hrun := consume_valueDataInt hphase hcur (encode32 i)
    rw [decode32_of_lt hi] at hrun
    have hpast := afterValue_past (h.within.withValue (v := .int i)) hlt hnum
      (rfl : Phase.valueDataInt = valuePhase .int)
    exact ⟨_, reads_piece _ (by simp [hphase, valuePhase]) h.needSize hrun (afterValue_accepts _ _),
      hpast⟩
  | data data =>
    obtain ⟨htype, hlen⟩ := hv
    have hvalues : Phase.valueDataValueLen = valuePhase t := by
      cases t with
      | int => exact absurd rfl htype
      | data => rfl
      | str => rfl
    rw [← hvalues] at hphase
    have hlength : Reads packMachine s (encode32 data.length)
        { s with
          valueLen := data.length, phase := .valueDataValue, needSize := data.length } := by
      refine reads_piece .next (by simp [hphase]) h.needSize ?_ (by simp)
      simp only [consume, hphase, decode32_of_lt hlen]
      rfl
    have hwithin : Within { s with
        valueLen := data.length, phase := .valueDataValue, needSize := data.length }
        max num elems name t n values :=
      ⟨⟨h.within.counts.max, h.within.counts.num, h.within.counts.curNum⟩, h.within.valueNum,
        h.within.curValueNum, h.within.elemType, h.within.curElem, h.within.holds.granting,
        h.within.holds.usable, h.within.holds.arrays, h.within.holds.length, h.within.holds.items⟩
    have hrun := consume_valueDataValue hwithin.holds.granting rfl (hwithin.current hmore hn) data
    have hstored : storedValue t (.data data) = .data (storedBytes s.elemType data) := by
      rw [h.within.elemType, storedValue]
    have hpast := afterValue_past (hwithin.tick.withValue (v := .data data)) hlt hnum hvalues
    rw [hstored] at hpast
    exact ⟨_, hlength.trans (reads_piece _ (by simp) rfl hrun (afterValue_accepts _ _)), hpast⟩

/-- The rest of the values of an element. -/
theorem reads_values (more : List Value) (hne : more ≠ []) (hfits : ∀ v ∈ more, FitsType t v)
    (h : AtValue s max num elems name t n values) (hlt : elems.length < num) (hnum : num < 2 ^ 32)
    (hn : n < 2 ^ 32) (hlen : values.length + more.length = n) :
    ∃ s', Reads packMachine s (more.flatMap encodeValue) s' ∧
      PastElem s' max num (elems ++ [⟨name, t, values ++ more⟩]) := by
  induction more generalizing s values with
  | nil => exact absurd rfl hne
  | cons v more ih =>
    rw [List.length_cons] at hlen
    obtain ⟨s1, hreads, hpast⟩ := reads_value h hlt hnum (by omega) hn (hfits v List.mem_cons_self)
    have hlength : (values ++ [v]).length = values.length + 1 := by
      rw [List.length_append, List.length_singleton]
    rw [List.flatMap_cons]
    by_cases hlast : (values ++ [v]).length = n
    · obtain rfl : more = [] := List.eq_nil_of_length_eq_zero (by omega)
      rw [List.flatMap_nil, List.append_nil]
      exact ⟨s1, hreads, hpast.last hlast⟩
    · have hrest : more ≠ [] := by
        intro hnil
        rw [hnil, List.length_nil] at hlen
        omega
      obtain ⟨s2, hreads', hpast'⟩ := ih hrest (fun w hw => hfits w (List.mem_cons_of_mem v hw))
        (hpast.more hlast) (by omega)
      rw [List.append_assoc] at hpast'
      exact ⟨s2, hreads.trans hreads', hpast'⟩

/-- The reader behind the name of an element. -/
structure PastName (s : Pack) (max num : ℕ) (elems : List Sent) (name : List UInt8) : Prop where
  phase : s.phase = .elemType
  needSize : s.needSize = 4
  name : s.elemName.take s.elemNameLen = name
  counts : Counts s max num elems
  holds : Holds s elems (arraysOf elems)

theorem reads_name (h : AtElem s max num elems) (hadmits : Admits max num)
    (hname : name.length < 2 ^ 32) :
    ∃ s', Reads packMachine s (encodeBytes name) s' ∧ PastName s' max num elems name := by
  have hphase := h.phase
  have hholds := h.holds
  have hbound : ¬ (s.max ≠ 0 ∧ s.max < s.num) := by
    rw [h.counts.max, h.counts.num]
    intro hbad
    exact absurd (hadmits hbad.1) (Nat.not_le.mpr hbad.2)
  have hlength : Reads packMachine s (encode32 name.length)
      { s with elemNameLen := name.length, phase := .elemName, needSize := name.length } := by
    refine reads_piece .next (by simp [hphase]) h.needSize ?_ (by simp)
    simp only [consume, hphase, if_neg hbound, decode32_of_lt hname]
    rfl
  refine ⟨{ s with
      pool := s.pool.tick
      elemNameLen := name.length
      elemName := name
      phase := .elemType
      needSize := 4 },
    hlength.trans (reads_piece .next (by simp) rfl ?_ (by simp)), rfl, rfl,
    List.take_length, ⟨h.counts.max, h.counts.num, h.counts.curNum⟩, hholds.granting,
    hholds.usable, hholds.arrays, hholds.length, hholds.items⟩
  simp only [consume, palloc, hholds.granting.palloc]
  rfl

/-- The reader behind the type of an element. -/
structure PastType (s : Pack) (max num : ℕ) (elems : List Sent) (name : List UInt8) (code : ℕ) :
    Prop where
  phase : s.phase = .valueNum
  needSize : s.needSize = 4
  name : s.elemName.take s.elemNameLen = name
  elemType : s.elemType = code
  counts : Counts s max num elems
  holds : Holds s elems (arraysOf elems)

theorem reads_type (h : PastName s max num elems name) {code : ℕ} (hcode : code < 2 ^ 32) :
    ∃ s', Reads packMachine s (encode32 code) s' ∧ PastType s' max num elems name code := by
  have hphase := h.phase
  have hholds := h.holds
  have hdecode := decode32_of_lt hcode
  refine ⟨{ s with elemType := code, phase := .valueNum, needSize := 4 },
    reads_piece .next (by simp [hphase]) h.needSize ?_ (by simp), rfl, rfl, h.name, rfl,
    ⟨h.counts.max, h.counts.num, h.counts.curNum⟩, hholds.granting, hholds.usable, hholds.arrays,
    hholds.length, hholds.items⟩
  simp only [consume, hphase, hdecode]
  rfl

theorem ElemType.ofCode_code (t : ElemType) : ElemType.ofCode t.code = some t := by
  cases t <;> rfl

theorem ElemType.code_lt (t : ElemType) : t.code < 2 ^ 32 := by
  cases t <;> decide

theorem reads_valueNum (h : PastType s max num elems name t.code) (hlen : elems.length < 2 ^ 30)
    (hpos : 0 < n) (hn : n < 2 ^ 32) :
    ∃ s', Reads packMachine s (encode32 n) s' ∧ AtValue s' max num elems name t n [] := by
  have hphase := h.phase
  have hholds := h.holds
  have hdecode := decode32_of_lt hn
  have hlength := hholds.length
  have htype : ElemType.ofCode s.elemType = some t := by rw [h.elemType, ElemType.ofCode_code]
  have hnumber : s.arrays.length = elems.length := by rw [hholds.arrays, arraysOf_length]
  obtain ⟨s', pos, hrun, hstarted, hsigns⟩ := startValues_granting (s := { s with valueNum := n })
    hholds.granting hholds.usable (by dsimp only; omega) hpos.ne' htype
  have hitems := hstarted.items
  have hsame := hstarted.same
  dsimp only at hsigns hitems hsame
  rw [h.name, hnumber] at hsigns hitems hsame
  refine ⟨s', reads_piece .next (by simp [hphase]) h.needSize ?_ (by simp), ?_, ?_,
    ⟨⟨?_, ?_, ?_⟩, ?_, ?_, ?_, ?_, ⟨hstarted.granting, hstarted.usable, ?_, ?_, ?_⟩⟩⟩
  · simp only [consume, hphase, hdecode]
    simp only [hphase] at hrun
    exact hrun
  · rw [hsame]
  · rw [hsame]
  · rw [hsame]
    exact h.counts.max
  · rw [hsame]
    exact h.counts.num
  · rw [hsame]
    exact h.counts.curNum
  · rw [hsame]
  · rw [hsame]
    rfl
  · rw [hsame]
    exact h.elemType
  · rw [hsame]
  · rw [hsame, hholds.arrays]
    rfl
  · rw [hitems]
    simp only [List.length_append, List.length_cons, List.length_take, List.length_drop,
      List.length_nil]
    omega
  · intro hsorted
    rw [indexed_concat, List.pairwise_append] at hsorted
    obtain ⟨hold, -, hlast⟩ := hsorted
    have hbefore := hholds.items hold
    have hbelow : ∀ a ∈ s.elements.items, packCmpName a ⟨name, t, elems.length⟩ < 0 := by
      intro a ha
      rw [hbefore] at ha
      exact hlast a ha _ List.mem_cons_self
    obtain ⟨-, habove⟩ := hsigns (Ascends.of_neg hbelow)
    rw [hitems, take_drop_of_below habove hbelow, hbefore, indexed_concat]

/-- One more of the elements that the count announces. -/
theorem reads_elem (h : AtElem s max num elems) (hadmits : Admits max num)
    (hlt : elems.length < num) (hnum : num < 2 ^ 32) (hlen : elems.length < 2 ^ 30) {e : Sent}
    (he : e.Valid) :
    ∃ s', Reads packMachine s (encodeElem e) s' ∧ PastElem s' max num (elems ++ [e]) := by
  obtain ⟨s1, hreads1, h1⟩ := reads_name h hadmits he.name_lt
  obtain ⟨s2, hreads2, h2⟩ := reads_type h1 (ElemType.code_lt e.type)
  obtain ⟨s3, hreads3, h3⟩ := reads_valueNum h2 hlen he.values_pos he.values_lt
  obtain ⟨s4, hreads4, h4⟩ := reads_values e.values (List.ne_nil_of_length_pos he.values_pos)
    he.value h3 hlt hnum he.values_lt (Nat.zero_add _)
  exact ⟨s4, ((hreads1.trans hreads2).trans hreads3).trans hreads4, h4⟩

/-- Any number of the elements that the count announces. -/
theorem reads_elems (more : List Sent) (hadmits : Admits max num) (hvalid : ∀ e ∈ more, e.Valid)
    (h : AtElem s max num elems) (hlt : elems.length < num) (hnum : num < 2 ^ 32)
    (hle : elems.length + more.length ≤ num) (hlen : elems.length + more.length ≤ 2 ^ 30) :
    ∃ s', Reads packMachine s (more.flatMap encodeElem) s' ∧
      PastElem s' max num (elems ++ more) := by
  induction more generalizing s elems with
  | nil =>
    rw [List.append_nil]
    exact ⟨s, .nil, fun hend => absurd hend hlt.ne, fun _ => h, h.holds⟩
  | cons e more ih =>
    rw [List.length_cons] at hle hlen
    obtain ⟨s1, hreads, hpast⟩ := reads_elem h hadmits hlt hnum (by omega)
      (hvalid e List.mem_cons_self)
    have hlength : (elems ++ [e]).length = elems.length + 1 := by
      rw [List.length_append, List.length_singleton]
    rw [List.flatMap_cons]
    by_cases hend : (elems ++ [e]).length = num
    · obtain rfl : more = [] := List.eq_nil_of_length_eq_zero (by omega)
      rw [List.flatMap_nil, List.append_nil]
      exact ⟨s1, hreads, hpast⟩
    · obtain ⟨s2, hreads', hpast'⟩ := ih (fun x hx => hvalid x (List.mem_cons_of_mem e hx))
        (hpast.more hend) (by omega) (by omega) (by omega)
      rw [List.append_assoc] at hpast'
      exact ⟨s2, hreads.trans hreads', hpast'⟩

/-- A reader that has read nothing. -/
structure Fresh (s : Pack) (max : ℕ) : Prop where
  cursor : packCursor s = .start max
  holds : Holds s [] []

theorem packInit_fresh {pool : Pool} (h : pool.Granting) (hinit : packInit pool max = some s) :
    Fresh s max := by
  obtain ⟨l, hcreate, hitems, husable⟩ := createList_granting (α := Elem) h
  rw [packInit, hcreate] at hinit
  cases hinit
  exact ⟨rfl, h, husable, rfl, by rw [hitems]; rfl, fun _ => hitems⟩

theorem Fresh.aligned (h : Fresh s max) : Aligned s := by
  have hcursor := h.cursor
  simp only [packCursor, Cursor.start, Cursor.mk.injEq] at hcursor
  unfold Aligned
  rw [hcursor.2.1]
  exact hcursor.2.2.1

theorem reads_count (h : Fresh s max) (hpos : 0 < num) (hnum : num < 2 ^ 32) :
    ∃ s', Reads packMachine s (encode32 num) s' ∧ AtElem s' max num [] := by
  have hcursor := h.cursor
  have hholds := h.holds
  simp only [packCursor, Cursor.start, Cursor.mk.injEq] at hcursor
  obtain ⟨hmax, hphase, hneed, -⟩ := hcursor
  refine ⟨{ s with num, curNum := 0, phase := .elemNameLen, needSize := 4 },
    reads_piece .next (by simp [hphase]) hneed ?_ (by simp), rfl, rfl, ⟨hmax, rfl, rfl⟩,
    hholds.granting, hholds.usable, hholds.arrays, hholds.length, hholds.items⟩
  simp only [consume, hphase, decode32_of_lt hnum, hpos.ne', if_false]
  rfl

/-- The first elements of a message. -/
theorem reads_before (h : Fresh s max) (hadmits : Admits max num) (hvalid : ∀ e ∈ elems, e.Valid)
    (hpos : 0 < num) (hnum : num < 2 ^ 32) (hle : elems.length ≤ num)
    (hlen : elems.length ≤ 2 ^ 30) :
    ∃ s', Reads packMachine s (encode32 num ++ elems.flatMap encodeElem) s' ∧
      PastElem s' max num elems := by
  obtain ⟨s1, hreads1, h1⟩ := reads_count h hpos hnum
  obtain ⟨s2, hreads2, h2⟩ := reads_elems elems hadmits hvalid h1 hpos hnum
    (by rwa [List.length_nil, Nat.zero_add]) (by rwa [List.length_nil, Nat.zero_add])
  exact ⟨s2, hreads1.trans hreads2, h2⟩

/-- A message is read to its end. -/
theorem reads_message (h : Fresh s max) (hmessage : Message max elems)
    (hlen : elems.length ≤ 2 ^ 30) :
    ∃ s', Reads packMachine s (encodePack elems) s' ∧ s'.phase = .done ∧
      Holds s' elems (arraysOf elems) := by
  obtain ⟨s', hreads, hpast⟩ := reads_before h hmessage.admits hmessage.valid hmessage.pos
    hmessage.lt (le_refl _) hlen
  exact ⟨s', hreads, hpast.done rfl, hpast.holds⟩

end

end HCore.PackDecoding
