import HCore.Machine

/-!
The open-addressing hash table. A table is a header and `size` elements in one
block of memory; the bytes of an element are read even where nothing has been
stored, so an empty element has data too. Probing adds the odd numbers to the
hash value, in 32-bit arithmetic, and ends at the first element that exists or
whose bytes compare equal. NULL arguments are `none`.
-/

namespace HCore.HashTable

open Machine

inductive Status
  | empty
  | exist
  | delete
  deriving DecidableEq, Repr

inductive TableType
  | common
  | fixedSize
  deriving DecidableEq, Repr

inductive Err
  | success
  | argsError
  | mallocFailed
  | sizeFullWarning
  | elemExist
  | elemNoExist
  | sizeFull
  deriving DecidableEq, Repr

structure Elem (α : Type) where
  status : Status
  ref : ℕ
  data : α
  deriving DecidableEq, Repr

structure Limit where
  elemMax : ℕ
  resize : ℕ
  deriving DecidableEq, Repr

/-- Memory for a table: its bytes, and what they hold as elements. -/
structure Block (α : Type) where
  bytes : ℕ
  elem : ℕ → Elem α

/-- `hcore_htb_table_t`, with the bytes of the block that it lies in. -/
structure Table (α : Type) where
  limit : Limit
  type : TableType
  size : ℕ
  count : ℕ
  dataSize : ℕ
  elems : List (Elem α)
  bytes : ℕ
  deriving DecidableEq, Repr

/-- `hcore_htb_proc_t` -/
structure Proc (α : Type) where
  compare : α → α → ℤ
  hash : α → ℕ

/-- Where the element `i` of `HCORE_HTB_GET_ELEM` begins in its block. -/
def elemOffset (dataSize i : ℕ) : ℕ := 24 + i * (8 + dataSize)

/-- `hcore_htb_get_size_total` -/
def htbGetSizeTotal (size dataSize : ℕ) : ℕ := (24 + size * (8 + dataSize)) % 2 ^ 32

section

variable {α : Type}

/-- The element `i`, which must lie in the block. -/
def Table.getElem (tb : Table α) (i : ℕ) : Exec (Elem α) :=
  match tb.elems[i]? with
  | some e => if elemOffset tb.dataSize (i + 1) ≤ tb.bytes then pure e else undefined
  | none => undefined

/-- The header and the status of every element are written. -/
def setUp (block : Block α) (size dataSize : ℕ) (type : TableType) (limit : Option Limit) :
    Exec (Table α) :=
  if elemOffset dataSize (size - 1) + 4 ≤ block.bytes then
    pure {
      limit := limit.getD ⟨0, 0⟩
      type
      size
      count := 0
      dataSize
      elems := (List.range size).map fun i => { block.elem i with status := .empty }
      bytes := block.bytes
    }
  else undefined

/-- `hcore_htb_init` -/
def htbInit (malloc : ℕ → Option (Block α)) (ptb : Option (Block α)) (size dataSize : ℕ)
    (type : TableType) (limit : Option Limit) : Exec (Err × Option (Table α)) :=
  match ptb with
  | none => pure (.argsError, none)
  | some block =>
    if size = 0 ∨ dataSize = 0 then pure (.argsError, none)
    else
      match type with
      | .common =>
        match malloc (htbGetSizeTotal size dataSize) with
        | none => pure (.mallocFailed, none)
        | some block => do
          let tb ← setUp block size dataSize type limit
          pure (.success, some tb)
      | .fixedSize => do
        let tb ← setUp block size dataSize type limit
        pure (.success, some tb)

/-- The next index and collision number of `hcore_htb_find_pos`. -/
def nextProbe (size : ℕ) (p : ℕ × ℕ) : ℕ × ℕ :=
  let collisionNum := (p.2 + 1) % 2 ^ 32
  let index := (p.1 + toUInt32 ((2 * collisionNum % 2 ^ 32 : ℕ) - 1)) % 2 ^ 32
  (if size ≤ index then index % size else index, collisionNum)

/-- The loop of `hcore_htb_find_pos`. -/
def findLoop (tb : Table α) (data : α) (proc : Proc α) : ℕ → ℕ × ℕ → Exec ℕ
  | 0, _ => outOfFuel
  | fuel + 1, p => do
    let elem ← tb.getElem p.1
    if elem.status ≠ .exist then
      if proc.compare elem.data data = 0 then pure p.1
      else findLoop tb data proc fuel (nextProbe tb.size p)
    else pure p.1

/-- `hcore_htb_find_pos` -/
def htbFindPos (fuel : ℕ) (tb : Option (Table α)) (data : Option α) (proc : Option (Proc α)) :
    Exec ℕ :=
  match tb, data, proc with
  | some tb, some data, some proc =>
    if tb.size = 0 then undefined else findLoop tb data proc fuel (proc.hash data % tb.size, 0)
  | _, _, _ => pure (toUInt32 (-1))

def Table.setElem (tb : Table α) (i : ℕ) (e : Elem α) : Table α := { tb with elems := tb.elems.set i e }

/-- The result of a successful insertion into a table that has room. -/
def insertRet (tb : Table α) : Err :=
  if tb.type = .fixedSize ∧ 7 < tb.count * 10 % 2 ^ 32 / tb.size then .sizeFullWarning else .success

/-- The last lines of an insertion, at the element that was found. -/
def insertAt (tb : Table α) (index : ℕ) (elem : Elem α) (data : Option α) (existed : ℕ) :
    Exec (Err × Option (Table α)) :=
  match elem.status with
  | .delete =>
    let tb' := tb.setElem index { elem with status := .exist, ref := 1 }
    pure (insertRet tb, some { tb' with count := (tb.count + 1) % 2 ^ 32 })
  | .exist =>
    if existed ≠ 0 then pure (.elemExist, some tb)
    else pure (.success, some (tb.setElem index { elem with ref := (elem.ref + 1) % 2 ^ 32 }))
  | .empty =>
    match data with
    | none => undefined
    | some data =>
      let tb' := tb.setElem index ⟨.exist, 1, data⟩
      pure (insertRet tb, some { tb' with count := (tb.count + 1) % 2 ^ 32 })

/-- `hcore_htb_insert` -/
def htbInsert (fuel : ℕ) (ptb : Option (Table α)) (data : Option α) (proc : Option (Proc α))
    (existed : ℕ) : Exec (Err × Option (Table α)) :=
  match ptb with
  | none => pure (.argsError, none)
  | some tb =>
    if tb.count = tb.size then pure (.sizeFull, some tb)
    else do
      let index ← htbFindPos fuel (some tb) data proc
      let elem ← tb.getElem index
      insertAt tb index elem data existed

/-- The last lines of a removal, at the element that was found. -/
def removeAt (tb : Table α) (index : ℕ) (elem : Elem α) : Err × Option (Table α) :=
  if elem.status = .exist then
    let ref := toUInt32 ((elem.ref : ℤ) - 1)
    if ref = 0 then
      let tb' := tb.setElem index { elem with status := .delete, ref }
      (.success, some { tb' with count := toUInt32 ((tb.count : ℤ) - 1) })
    else (.success, some (tb.setElem index { elem with ref }))
  else (.elemNoExist, some tb)

/-- `hcore_htb_remove` -/
def htbRemove (fuel : ℕ) (ptb : Option (Table α)) (data : Option α) (proc : Option (Proc α)) :
    Exec (Err × Option (Table α)) :=
  match ptb, data, proc with
  | some tb, some data, some proc => do
    let index ← htbFindPos fuel (some tb) (some data) (some proc)
    let elem ← tb.getElem index
    pure (removeAt tb index elem)
  | tb, _, _ => pure (.argsError, tb)

end

end HCore.HashTable
