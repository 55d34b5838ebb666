import HCore.PackReader

/-!
The grammar of packed messages: a count, and for each element its name, its
type, the number of its values, and the values. The cursor is the reader
without its memory: the fields that decide how long the next piece is and
whether it is accepted. The cursor ends a message exactly when the bytes that
it has read are one in the grammar.
-/

namespace HCore.PackGrammar

open Machine LittleEndian Framing PackModel PackReader

/-- An element as it is sent. -/
structure Sent where
  name : List UInt8
  type : ElemType
  values : List Value

/-- The values that an element of the type can have. -/
def FitsType (type : ElemType) : Value → Prop
  | .int i => type = .int ∧ i < 2 ^ 32
  | .data bytes => type ≠ .int ∧ bytes.length < 2 ^ 32

structure Sent.Valid (e : Sent) : Prop where
  name_lt : e.name.length < 2 ^ 32
  values_pos : 0 < e.values.length
  values_lt : e.values.length < 2 ^ 32
  value : ∀ v ∈ e.values, FitsType e.type v

def encodeValue : Value → List UInt8
  | .int i => encode32 i
  | .data bytes => encodeBytes bytes

/-- An element up to its values. -/
def encodeHead (name : List UInt8) (type valueNum : ℕ) : List UInt8 :=
  encodeBytes name ++ encode32 type ++ encode32 valueNum

def encodeElem (e : Sent) : List UInt8 :=
  encodeHead e.name e.type.code e.values.length ++ e.values.flatMap encodeValue

def encodePack (elems : List Sent) : List UInt8 :=
  encode32 elems.length ++ elems.flatMap encodeElem

/-- The count check of the reader. -/
def Admits (max n : ℕ) : Prop := max ≠ 0 → n ≤ max

/-- The messages that a reader with the bound `max` accepts. -/
structure Message (max : ℕ) (elems : List Sent) : Prop where
  pos : 0 < elems.length
  lt : elems.length < 2 ^ 32
  admits : Admits max elems.length
  valid : ∀ e ∈ elems, e.Valid

structure Cursor where
  max : ℕ
  phase : Phase
  needSize : ℕ
  num : ℕ
  curNum : ℕ
  valueLen : ℕ
  curValueNum : ℕ
  valueNum : ℕ
  elemType : ℕ
  deriving DecidableEq, Repr

namespace Cursor

def start (max : ℕ) : Cursor := ⟨max, .init, 4, 0, 0, 0, 0, 0, 0⟩

/-- The cursor behind a value that has been counted. -/
def afterValue (c : Cursor) (next : Phase) : Cursor :=
  if c.curValueNum = c.valueNum then
    if toUInt32 (c.curNum + 1 : ℕ) = c.num then
      { c with curNum := toUInt32 (c.curNum + 1 : ℕ), phase := .done }
    else
      { c with curNum := toUInt32 (c.curNum + 1 : ℕ), phase := .elemNameLen, needSize := 4 }
  else { c with phase := next, needSize := 4 }

def countValue (c : Cursor) : Cursor := { c with curValueNum := toUInt32 (c.curValueNum + 1 : ℕ) }

/-- The cursor behind the next piece. -/
def step (c : Cursor) (bytes : List UInt8) : Option Cursor :=
  match c.phase with
  | .init =>
    if decode32 bytes = 0 then none
    else some { c with num := decode32 bytes, curNum := 0, phase := .elemNameLen, needSize := 4 }
  | .elemNameLen =>
    if c.max ≠ 0 ∧ c.max < c.num then none
    else some { c with phase := .elemName, needSize := decode32 bytes }
  | .elemName => some { c with phase := .elemType, needSize := 4 }
  | .elemType => some { c with elemType := decode32 bytes, phase := .valueNum, needSize := 4 }
  | .valueNum =>
    if decode32 bytes = 0 then none
    else
      match ElemType.ofCode c.elemType with
      | none => none
      | some t =>
        some { c with
          valueNum := decode32 bytes, curValueNum := 0, phase := valuePhase t, needSize := 4 }
  | .valueDataInt => some (c.countValue.afterValue .valueDataInt)
  | .valueDataValueLen =>
    some { c with valueLen := decode32 bytes, phase := .valueDataValue, needSize := decode32 bytes }
  | .valueDataValue => some (c.countValue.afterValue .valueDataValueLen)
  | .done => some c

def need (c : Cursor) : Option ℕ := if c.phase = .done then none else some c.needSize

end Cursor

def cursorMachine : Framing.Machine Cursor UInt8 := ⟨Cursor.need, Cursor.step⟩

/-- The elements that lie before the next one. -/
structure Between (c : Cursor) (elems : List Sent) : Prop where
  valid : ∀ e ∈ elems, e.Valid
  length : elems.length = c.curNum
  lt : c.curNum < c.num
  num_lt : c.num < 2 ^ 32
  admits : elems ≠ [] → Admits c.max c.num

/-- The values that lie before the next one of the current element. -/
structure Within (c : Cursor) (name : List UInt8) (t : ElemType) (values : List Value) : Prop where
  name_lt : name.length < 2 ^ 32
  type : c.elemType = t.code
  value : ∀ v ∈ values, FitsType t v
  length : values.length = c.curValueNum
  lt : c.curValueNum < c.valueNum
  valueNum_lt : c.valueNum < 2 ^ 32
  admits : Admits c.max c.num

/-- The bytes up to the next element. -/
def before (c : Cursor) (elems : List Sent) : List UInt8 :=
  encode32 c.num ++ elems.flatMap encodeElem

section

variable {c c' : Cursor} {elems : List Sent} {name : List UInt8} {t : ElemType}
  {values : List Value} {bytes : List UInt8}

/-- The current element ends with this value. -/
theorem Within.last (h' : Within c name t values) {v : Value} (hv : FitsType t v)
    (hlast : c.curValueNum + 1 = c.valueNum) : (Sent.mk name t (values ++ [v])).Valid := by
  have hlen := h'.length
  have hlt := h'.valueNum_lt
  refine ⟨h'.name_lt, by simp, ?_, ?_⟩
  · simp only [List.length_append, List.length_singleton]
    omega
  · intro w hw
    rcases List.mem_append.mp hw with hw | hw
    · exact h'.value w hw
    · rw [List.mem_singleton.mp hw]
      exact hv

/-- The cursor of a reader. -/
def packCursor (s : Pack) : Cursor :=
  ⟨s.max, s.phase, s.needSize, s.num, s.curNum, s.valueLen, s.curValueNum, s.valueNum, s.elemType⟩

theorem Stores.cursor {s s1 : Pack} (h : Stores s s1) : packCursor s1 = packCursor s := by
  rw [h]
  rfl

theorem afterValue_cursor (s : Pack) (next : Phase) :
    packCursor (afterValue s next).2 = (packCursor s).afterValue next := by
  unfold afterValue Cursor.afterValue
  simp only [packCursor]
  by_cases hlast : s.curValueNum = s.valueNum
  · simp only [hlast, if_true]
    split <;> rfl
  · simp only [hlast, if_false]

/-- A round that is not rejected moves the cursor, whatever the memory for it was. -/
theorem consume_cursor {s s' : Pack} {flow : Flow} (hneed : packNeed s = some bytes.length)
    (hrun : consume s bytes = Except.ok (flow, s')) (hflow : flow ≠ .reject) :
    (packCursor s).step bytes = some (packCursor s') := by
  obtain ⟨hdone, hsize⟩ := packNeed_eq_some hneed
  have hconsume := hrun
  unfold consume at hrun
  simp only [Cursor.step, packCursor]
  cases hphase : s.phase with
  | init | elemNameLen =>
    simp only [hphase] at hrun ⊢
    split at hrun
    · cases hrun
      exact absurd rfl hflow
    · next hpos =>
      refine (if_neg hpos).trans ?_
      cases hrun
      rfl
  | elemName =>
    simp only [hphase, palloc] at hrun ⊢
    cases hgrant : (s.pool.palloc s.elemNameLen).1 with
    | false =>
      rw [hgrant] at hrun
      cases hrun
      exact absurd rfl hflow
    | true =>
      rw [hgrant] at hrun
      cases hrun
      rfl
  | elemType | valueDataValueLen =>
    simp only [hphase] at hrun ⊢
    cases hrun
    rfl
  | valueNum =>
    simp only [hphase] at hrun ⊢
    obtain ⟨-, hnum, t, htype, hs'⟩ := startValues_next hrun hflow
    dsimp only at hnum htype hs'
    rw [if_neg hnum, htype, hs']
  | valueDataInt =>
    obtain ⟨s1, hs1, hafter⟩ := consume_valueDataInt_next hphase hconsume hflow
    have hcursor := afterValue_cursor s1 .valueDataInt
    rw [hafter, Stores.cursor hs1] at hcursor
    dsimp only
    rw [← packCursor, hcursor]
    simp only [Cursor.countValue, packCursor, hphase]
  | valueDataValue =>
    obtain ⟨s1, hs1, hafter⟩ := consume_valueDataValue_next hphase hconsume hflow
    have hcursor := afterValue_cursor s1 .valueDataValueLen
    rw [hafter, Stores.cursor hs1] at hcursor
    dsimp only
    rw [← packCursor, hcursor]
    simp only [Cursor.countValue, packCursor, hphase]
  | done => exact absurd hphase hdone

end

end HCore.PackGrammar
