import HCore.LittleEndian
import HCore.SortedList

/-!
The message pack: elements sorted by type and name, each with an array of
values; a writer that emits them into one buffer, and a reader that is fed
buffers as they arrive and keeps its place in between. The value arrays are
kept by number, as the source keeps pointers to them. Reads of the caller's
memory are recorded with their addresses, also when an execution fails.
-/

namespace HCore.PackModel

open Machine LittleEndian PoolRequests SortedList

/-- An execution together with the addresses it reads of the caller's memory. -/
structure Traced (α : Type) where
  reads : List ℕ
  result : Exec α

namespace Traced

def bind {α β : Type} (x : Traced α) (f : α → Traced β) : Traced β :=
  match x.result with
  | Except.ok a => ⟨x.reads ++ (f a).reads, (f a).result⟩
  | Except.error e => ⟨x.reads, Except.error e⟩

def lift {α : Type} (x : Exec α) : Traced α := ⟨[], x⟩

instance : Monad Traced where
  pure a := ⟨[], Except.ok a⟩
  bind := bind

end Traced

/-- A byte of memory for each address. -/
abbrev Bytes := ℕ → UInt8

/-- The `n` bytes of `mem` from `p` on. -/
def window (mem : Bytes) (p n : ℕ) : List UInt8 := (List.range n).map fun i => mem (p + i)

/-- `hcore_str_t`, in the memory it points into. -/
structure Str where
  mem : Bytes
  data : ℕ
  len : ℕ

def Str.bytes (str : Str) : List UInt8 := window str.mem str.data str.len

/-- A C string: its bytes do not contain the NUL that ends it. -/
abbrev CString := { bytes : List UInt8 // (0 : UInt8) ∉ bytes }

def CString.len (name : CString) : ℕ := name.1.length

/-- The memory of a C string. -/
def CString.str (name : CString) : Str := ⟨fun i => name.1.getD i 0, 0, name.len⟩

/-- `hcore_memcpy` from the caller's memory. -/
def memcpy (mem : Bytes) (p n : ℕ) : Traced (List UInt8) :=
  ⟨List.range' p n, Except.ok (window mem p n)⟩

/-- `*p` -/
def peek (mem : Bytes) (p : ℕ) : Traced UInt8 := ⟨[p], Except.ok (mem p)⟩

/-- The loop `while (*p && buf < last)` of `%s`, with room for `n` bytes. It
looks at the next byte before it looks at the room. -/
def copyString (mem : Bytes) : ℕ → ℕ → Traced (List UInt8)
  | 0, p => do
    let _ ← peek mem p
    pure []
  | n + 1, p => do
    let c ← peek mem p
    if c = 0 then pure []
    else do
      let rest ← copyString mem n (p + 1)
      pure (c :: rest)

/-- `hcore_snprintf(buf, max, "%s", p)`; the format is only looked at when
there is room. -/
def snprintfString (mem : Bytes) (max p : ℕ) : Traced (List UInt8) :=
  if max = 0 then pure [] else copyString mem max p

/-- `hcore_pack_elem_type_e`. -/
inductive ElemType
  | int
  | data
  | str
  deriving DecidableEq, Repr

def ElemType.code : ElemType → ℕ
  | int => 0
  | data => 1
  | str => 2

def ElemType.ofCode : ℕ → Option ElemType
  | 0 => some int
  | 1 => some data
  | 2 => some str
  | _ => none

/-- A slot of a value array: an `unsigned int`, or a size with its bytes. -/
inductive Value
  | int (i : ℕ)
  | data (bytes : List UInt8)
  deriving DecidableEq, Repr

/-- `hcore_pack_elem_t`; `values` is the number of its array. -/
structure Elem where
  name : List UInt8
  type : ElemType
  values : ℕ
  deriving DecidableEq, Repr

/-- `hcore_memcmp` of two strings of one length: the first difference. -/
def memcmp : List UInt8 → List UInt8 → ℤ
  | a :: x, b :: y => if a = b then memcmp x y else (a.toNat : ℤ) - b.toNat
  | _, _ => 0

/-- `hcore_pack_cmp_name`: the differences are cut to an `int`. -/
def packCmpName (a b : Elem) : ℤ :=
  if a.type ≠ b.type then toInt32 ((a.type.code : ℤ) - b.type.code)
  else if a.name.length ≠ b.name.length then toInt32 ((a.name.length : ℤ) - b.name.length)
  else memcmp a.name b.name

/-- The phases of the reader. -/
inductive Phase
  | init
  | elemNameLen
  | elemName
  | elemType
  | valueNum
  | valueDataInt
  | valueDataValueLen
  | valueDataValue
  | done
  deriving DecidableEq, Repr

/-- `hcore_pack_t`. -/
structure Pack where
  pool : Pool
  arrays : List (Slots Value)
  elements : ItemList Elem
  max : ℕ
  buf : Option (List UInt8)
  totalSize : ℕ
  phase : Phase
  needSize : ℕ
  num : ℕ
  curNum : ℕ
  valueLen : ℕ
  curValueNum : ℕ
  valueNum : ℕ
  elemType : ℕ
  elemNameLen : ℕ
  elemName : List UInt8
  curElem : Option Elem

/-- `hcore_pack_init` of a cleared `hcore_pack_t`. -/
def packInit (pool : Pool) (max : ℕ) : Option Pack :=
  match createList pool with
  | (none, _) => none
  | (some elements, pool) =>
    some
      { pool, arrays := [], elements, max, buf := none, totalSize := 4, phase := .init,
        needSize := 4, num := 0, curNum := 0, valueLen := 0, curValueNum := 0, valueNum := 0,
        elemType := 0, elemNameLen := 0, elemName := [], curElem := none }

/-- `sizeof(hcore_pack_elem_t)`. -/
def elemSize : ℕ := 40

/-- `sizeof` the slots of the value arrays. -/
def valueSize : ElemType → ℕ
  | .int => 4
  | .data => 16
  | .str => 16

/-- `hcore_palloc(pack->pool, size)`. -/
def palloc (s : Pack) (size : ℕ) : Bool × Pack :=
  ((s.pool.palloc size).1, { s with pool := (s.pool.palloc size).2 })

/-- `hcore_pack_elem_create`: NULL for a type that is not known. -/
def elemCreate (s : Pack) (name : List UInt8) (type num : ℕ) : Option Elem × Pack :=
  match palloc s elemSize with
  | (false, s) => (none, s)
  | (true, s) =>
    match palloc s name.length with
    | (false, s) => (none, s)
    | (true, s) =>
      match ElemType.ofCode type with
      | none => (none, s)
      | some type =>
        let num := if num = 0 then 1 else num
        match arrayCreate s.pool num (valueSize type) with
        | (none, pool) => (none, { s with pool })
        | (some a, pool) =>
          (some ⟨name, type, s.arrays.length⟩, { s with pool, arrays := s.arrays ++ [a] })

/-- `hcore_array_push(e->values)`: whether the result is not NULL. -/
def pushValue (s : Pack) (e : Elem) : Exec (Bool × Pack) :=
  match s.arrays[e.values]? with
  | none => undefined
  | some a => do
    let (a?, pool) ← arrayPush s.pool a (valueSize e.type)
    match a? with
    | none => pure (false, { s with pool })
    | some a => pure (true, { s with pool, arrays := s.arrays.set e.values a })

/-- The value is stored in the slot that was pushed last. -/
def setValue (s : Pack) (e : Elem) (v : Value) : Pack :=
  { s with arrays := s.arrays.modify e.values (·.setLast v) }

/-- `hcore_pack_elem_add_int`: whether it returns `HCORE_OK`. -/
def elemAddInt (s : Pack) (e : Elem) (i : ℕ) : Exec (Bool × Pack) := do
  let (ok, s) ← pushValue s e
  if ok then pure (true, setValue s e (.int i)) else pure (false, s)

/-- `hcore_pack_elem_add_data`. -/
def elemAddData (s : Pack) (e : Elem) (mem : Bytes) (p size : ℕ) : Traced (Bool × Pack) := do
  let (ok, s) ← Traced.lift (pushValue s e)
  if ok then
    match palloc s size with
    | (false, s) => pure (false, s)
    | (true, s) => do
      let bytes ← memcpy mem p size
      pure (true, setValue s e (.data bytes))
  else pure (false, s)

/-- `hcore_pack_elem_add_str`: the value ends before the first NUL. -/
def elemAddStr (s : Pack) (e : Elem) (str : Str) : Traced (Bool × Pack) := do
  let (ok, s) ← Traced.lift (pushValue s e)
  if ok then
    match palloc s (str.len + 1) with
    | (false, s) => pure (false, s)
    | (true, s) => do
      let bytes ← snprintfString str.mem str.len str.data
      pure (true, setValue s e (.data bytes))
  else pure (false, s)

/-- `hcore_pack_elem_get`. -/
def elemGet (s : Pack) (name : List UInt8) (type : ElemType) : Option Elem × Pack :=
  let (found, elements) := listSearch stdlib packCmpName s.elements ⟨name, type, 0⟩
  (found, { s with elements })

/-- The element that a value is added to: an old one, or a new one that counts
its name, its type and the number of its values. -/
def elemFor (s : Pack) (name : List UInt8) (type : ElemType) : Exec (Option Elem × Pack) :=
  match elemGet s name type with
  | (some e, s) => pure (some e, s)
  | (none, s) =>
    if s.max ≠ 0 ∧ s.max ≤ s.elements.items.length then pure (none, s)
    else
      match elemCreate s name type.code 0 with
      | (none, s) => pure (none, s)
      | (some e, s) => do
        let (elements, pool) ← listInsert stdlib packCmpName s.pool s.elements e
        pure (some e,
          { s with pool, elements, totalSize := s.totalSize + 4 + name.length + 4 + 4 })

/-- The value of an addition, by the type of its element. -/
inductive Addition
  | int (i : UInt32)
  | str (str : Str)
  | data (mem : Bytes) (p size : ℕ)

def Addition.type : Addition → ElemType
  | int _ => .int
  | str _ => .str
  | data .. => .data

/-- `hcore_pack_add_value`: whether it returns `HCORE_OK`. The size is counted
before the value is stored. -/
def packAddValue (s : Pack) (name : CString) (value : Addition) : Exec (Bool × Pack) := do
  let (e?, s) ← elemFor s name.1 value.type
  match e? with
  | none => pure (false, s)
  | some e =>
    match value with
    | .int i => elemAddInt { s with totalSize := s.totalSize + 4 } e i.toNat
    | .str str => (elemAddStr { s with totalSize := s.totalSize + 4 + str.len } e str).result
    | .data mem p size =>
      (elemAddData { s with totalSize := s.totalSize + 4 + size } e mem p size).result

def packAddInt (s : Pack) (name : CString) (i : UInt32) : Exec (Bool × Pack) :=
  packAddValue s name (.int i)

def packAddStr (s : Pack) (name : CString) (str : Str) : Exec (Bool × Pack) :=
  packAddValue s name (.str str)

def packAddStrChar (s : Pack) (name str : CString) : Exec (Bool × Pack) :=
  packAddValue s name (.str str.str)

/-- `hcore_cpymem` to the end of what has been written of a buffer of `size`
bytes. -/
def cpymem (size : ℕ) (out bytes : List UInt8) : Exec (List UInt8) :=
  if out.length + bytes.length ≤ size then pure (out ++ bytes) else undefined

def packWriteInt (size : ℕ) (out : List UInt8) (i : ℕ) : Exec (List UInt8) :=
  cpymem size out (encode32 i)

def packWriteStr (size : ℕ) (out str : List UInt8) : Exec (List UInt8) := do
  let out ← packWriteInt size out str.length
  cpymem size out str

/-- The loop over the values of an element. -/
def writeValues (size : ℕ) : List (Option Value) → List UInt8 → Exec (List UInt8)
  | [], out => pure out
  | none :: _, _ => undefined
  | some (.int i) :: values, out => do
    let out ← packWriteInt size out i
    writeValues size values out
  | some (.data bytes) :: values, out => do
    let out ← packWriteStr size out bytes
    writeValues size values out

/-- The loop over the elements. -/
def writeElems (size : ℕ) (arrays : List (Slots Value)) :
    List Elem → List UInt8 → Exec (List UInt8)
  | [], out => pure out
  | e :: elems, out =>
    match arrays[e.values]? with
    | none => undefined
    | some a => do
      let out ← packWriteStr size out e.name
      let out ← packWriteInt size out e.type.code
      let out ← packWriteInt size out a.nelts
      let out ← writeValues size a.elts out
      writeElems size arrays elems out

/-- What `hcore_pack_write` returns, and what it stores to `*size`. -/
structure Written where
  buf : Option (List UInt8)
  size : Option ℕ

/-- `hcore_pack_write`. -/
def packWrite (s : Pack) : Exec (Written × Pack) :=
  if s.elements.items = [] then pure (⟨none, none⟩, s)
  else if s.buf.isSome then pure (⟨s.buf, none⟩, s)
  else
    match palloc s s.totalSize with
    | (false, s) => pure (⟨none, none⟩, s)
    | (true, s) => do
      let out ← packWriteInt s.totalSize [] s.elements.items.length
      let out ← writeElems s.totalSize s.arrays s.elements.items out
      pure (⟨some out, some out.length⟩, { s with buf := some out })

/-- How the loop of the reader goes on. -/
inductive Flow
  | next
  | done
  | reject
  deriving DecidableEq, Repr

/-- `hcore_pack_read_int`. -/
def packReadInt (mem : Bytes) (p : ℕ) : Traced ℕ := do
  let bytes ← memcpy mem p 4
  pure (decode32 bytes)

/-- The reader after a value: the next value, the next element, or the end. -/
def afterValue (s : Pack) (next : Phase) : Flow × Pack :=
  if s.curValueNum = s.valueNum then
    let s := { s with curNum := toUInt32 (s.curNum + 1 : ℕ) }
    if s.curNum = s.num then (.done, { s with phase := .done })
    else (.next, { s with phase := .elemNameLen, needSize := 4 })
  else (.next, { s with phase := next, needSize := 4 })

/-- The phase `hcore_pack_phase_value_num`, behind the reading of the number. -/
def startValues (s : Pack) : Exec (Flow × Pack) :=
  if s.valueNum = 0 then pure (.reject, s)
  else
    match elemCreate { s with curValueNum := 0 } (s.elemName.take s.elemNameLen) s.elemType
      s.valueNum with
    | (none, s) => pure (.reject, { s with curElem := none })
    | (some e, s) => do
      let (elements, pool) ← listInsert stdlib packCmpName s.pool s.elements e
      let s := { s with pool, elements, curElem := some e }
      match ElemType.ofCode s.elemType with
      | some .int => pure (.next, { s with phase := .valueDataInt, needSize := 4 })
      | some _ => pure (.next, { s with phase := .valueDataValueLen, needSize := 4 })
      | none => pure (.reject, s)

/-- One round of the loop of the reader: what it does in its phase. -/
def readPhase (mem : Bytes) (p : ℕ) (s : Pack) : Traced (Flow × ℕ × Pack) :=
  match s.phase with
  | .init => do
    let num ← packReadInt mem p
    if num = 0 then pure (.reject, p + 4, s)
    else pure (.next, p + 4, { s with num, curNum := 0, phase := .elemNameLen, needSize := 4 })
  | .elemNameLen =>
    if s.max ≠ 0 ∧ s.max < s.num then pure (.reject, p, s)
    else do
      let len ← packReadInt mem p
      pure (.next, p + 4, { s with elemNameLen := len, phase := .elemName, needSize := len })
  | .elemName =>
    match palloc s s.elemNameLen with
    | (false, s) => pure (.reject, p, { s with elemName := [] })
    | (true, s) => do
      let name ← memcpy mem p s.elemNameLen
      pure (.next, p + s.elemNameLen,
        { s with elemName := name, phase := .elemType, needSize := 4 })
  | .elemType => do
    let elemType ← packReadInt mem p
    pure (.next, p + 4, { s with elemType, phase := .valueNum, needSize := 4 })
  | .valueNum => do
    let valueNum ← packReadInt mem p
    let (flow, s) ← Traced.lift (startValues { s with valueNum })
    pure (flow, p + 4, s)
  | .valueDataInt => do
    let i ← packReadInt mem p
    let s := { s with curValueNum := toUInt32 (s.curValueNum + 1 : ℕ) }
    match s.curElem with
    | none => Traced.lift undefined
    | some e => do
      let (ok, s) ← Traced.lift (elemAddInt s e i)
      if ok then
        let (flow, s) := afterValue s .valueDataInt
        pure (flow, p + 4, s)
      else pure (.reject, p + 4, s)
  | .valueDataValueLen => do
    let valueLen ← packReadInt mem p
    pure (.next, p + 4, { s with valueLen, phase := .valueDataValue, needSize := valueLen })
  | .valueDataValue =>
    match s.curElem with
    | none => Traced.lift undefined
    | some e => do
      let (ok, s) ← if s.elemType = ElemType.str.code then elemAddStr s e ⟨mem, p, s.valueLen⟩
        else elemAddData s e mem p s.valueLen
      if ok then
        let s := { s with curValueNum := toUInt32 (s.curValueNum + 1 : ℕ) }
        let (flow, s) := afterValue s .valueDataValueLen
        pure (flow, p + s.valueLen, s)
      else pure (.reject, p, s)
  | .done => pure (.done, p, s)

/-- The loop `while (p + pack->need_size <= last)`. -/
def readLoop (mem : Bytes) (last : ℕ) : ℕ → ℕ → Pack → Traced (Flow × ℕ × Pack)
  | 0, _, _ => Traced.lift outOfFuel
  | fuel + 1, p, s =>
    if p + s.needSize ≤ last then do
      let (flow, p, s) ← readPhase mem p s
      match flow with
      | .next => readLoop mem last fuel p s
      | .done => pure (.done, p, s)
      | .reject => pure (.reject, p, s)
    else pure (.done, p, s)

/-- The rounds that a reader can make on `n` bytes: no two rounds in a row
take nothing. -/
def readFuel (n : ℕ) : ℕ := 2 * n + 3

/-- `hcore_pack_read`. -/
def packRead (mem : Bytes) (buffer last : ℕ) (s : Pack) : Traced (ℤ × Pack) :=
  if last < buffer then pure (-1, s)
  else do
    let (flow, p, s) ← readLoop mem last (readFuel (last - buffer)) buffer s
    match flow with
    | .reject => pure (-1, s)
    | _ => pure ((p : ℤ) - buffer, s)

end HCore.PackModel
