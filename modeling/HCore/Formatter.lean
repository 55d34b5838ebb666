import HCore.DecimalText
import HCore.TextWindow

/-!
The formatter. A format is given by its bytes before the zero, so what is
left of it is a list, and to go on behind the end of the list is to read
behind the zero. An argument is what `va_arg` finds at its place; the type
has to be the one that is asked for, up to the sign. The arithmetic of a
double is the machine's: an argument brings the results that are used of it.
-/

namespace HCore.Formatter

open Machine DecimalText TextWindow

/-- The bytes of a literal, without the zero behind them. -/
def bytesOf (literal : String) : List UInt8 := literal.toList.map (fun c => UInt8.ofNat c.toNat)

/-- A double: `f < 0`, its integral part without the sign, and what a scale
makes of the rest, `(f - (double)ui64) * scale + 0.5`. -/
structure Double where
  negative : Bool
  whole : BitVec 64
  fraction : ℕ → BitVec 64

/-- A pointer to characters brings the bytes that can be read there, and one
to a `hcore_str_t` the bytes of that string. -/
inductive Arg
  | word (v : BitVec 32)
  | long (v : BitVec 64)
  | double (f : Double)
  | chars (bytes : List UInt8)
  | str (data : List UInt8)

/-- `va_arg` of a type with 32 bits. -/
def vaWord : List Arg → Exec (BitVec 32 × List Arg)
  | .word v :: args => pure (v, args)
  | _ => undefined

/-- `va_arg` of a type with 64 bits. -/
def vaLong : List Arg → Exec (BitVec 64 × List Arg)
  | .long v :: args => pure (v, args)
  | _ => undefined

def vaDouble : List Arg → Exec (Double × List Arg)
  | .double f :: args => pure (f, args)
  | _ => undefined

def vaChars : List Arg → Exec (List UInt8 × List Arg)
  | .chars bytes :: args => pure (bytes, args)
  | _ => undefined

def vaStr : List Arg → Exec (List UInt8 × List Arg)
  | .str data :: args => pure (data, args)
  | _ => undefined

/-- The variables that a directive sets. -/
structure Spec where
  zero : UInt8
  width : ℕ
  sign : Bool
  hex : ℕ
  maxWidth : Bool
  fracWidth : ℕ
  slen : ℕ
  deriving DecidableEq, Repr

/-- `(size_t) -1`. -/
def noLen : ℕ := 2 ^ 64 - 1

/-- The loops over the digits of a width, in 32 bits. -/
def readWidth (width : ℕ) : List UInt8 → ℕ × List UInt8
  | [] => (width, [])
  | c :: fmt =>
    if IsDigit c then readWidth (toUInt32 ((width * 10 + digitValue c : ℕ) : ℤ)) fmt
    else (width, c :: fmt)

/-- The loop over the flags. -/
def readFlags (s : Spec) : List UInt8 → List Arg → Exec (Spec × List UInt8 × List Arg)
  | [], args => pure (s, [], args)
  | c :: fmt, args =>
    if c = 117 then readFlags { s with sign := false } fmt args  -- 'u'
    else if c = 109 then readFlags { s with maxWidth := true } fmt args  -- 'm'
    else if c = 88 then readFlags { s with hex := 2, sign := false } fmt args  -- 'X'
    else if c = 120 then readFlags { s with hex := 1, sign := false } fmt args  -- 'x'
    else if c = 46 then  -- '.'
      let (fracWidth, fmt) := readWidth s.fracWidth fmt
      pure ({ s with fracWidth := fracWidth }, fmt, args)
    else if c = 42 then do  -- '*'
      let (slen, args) ← vaLong args
      readFlags { s with slen := slen.toNat } fmt args
    else pure (s, c :: fmt, args)

/-- What stands between the `%` and the conversion. -/
def readSpec (fmt : List UInt8) (args : List Arg) : Exec (Spec × List UInt8 × List Arg) :=
  let zero : UInt8 := if fmt.head? = some 48 then 48 else 32
  let (width, fmt) := readWidth 0 fmt
  readFlags ⟨zero, width, true, 0, false, 0, noLen⟩ fmt args

inductive Conversion
  | str
  | chars
  | offset
  | pid
  | time
  | msec
  | size
  | int
  | number
  | long
  | int32
  | int64
  | double
  | pointer
  | char
  | zero
  | newline
  | percent
  | other
  deriving DecidableEq, Repr

/-- The cases of the switch. -/
def conversion (c : UInt8) : Conversion :=
  if c = 86 then .str  -- 'V'
  else if c = 115 then .chars  -- 's'
  else if c = 79 then .offset  -- 'O'
  else if c = 80 then .pid  -- 'P'
  else if c = 84 then .time  -- 'T'
  else if c = 77 then .msec  -- 'M'
  else if c = 122 then .size  -- 'z'
  else if c = 105 then .int  -- 'i'
  else if c = 100 then .number  -- 'd'
  else if c = 108 then .long  -- 'l'
  else if c = 68 then .int32  -- 'D'
  else if c = 76 then .int64  -- 'L'
  else if c = 102 then .double  -- 'f'
  else if c = 112 then .pointer  -- 'p'
  else if c = 99 then .char  -- 'c'
  else if c = 90 then .zero  -- 'Z'
  else if c = 78 then .newline  -- 'N'
  else if c = 37 then .percent  -- '%'
  else .other

/-- `HCORE_INT64_LEN`, the room in front of the end of `temp`. -/
def int64Len : ℕ := 20

/-- `HCORE_INT_T_LEN`. -/
def intLen : ℕ := 11

/-- The tables `hex` and `HEX` behind the ten digits that they begin with. -/
def hexDigit (ten : ℕ) (d : ℕ) : UInt8 := UInt8.ofNat (if d < 10 then d + 48 else d - 10 + ten)

/-- The loops that store digits in front of one another in `temp`; `room` is
what is left in front of the last one. -/
def storeDigits (base : ℕ) (letter : ℕ → UInt8) :
    ℕ → ℕ → List UInt8 → Exec (List UInt8)
  | 0, _, _ => undefined
  | room + 1, n, digits =>
    if n / base = 0 then pure (letter (n % base) :: digits)
    else storeDigits base letter room (n / base) (letter (n % base) :: digits)

/-- The digits of a number; small decimal numbers are divided in 32 bits. -/
def numDigits (hexadecimal : ℕ) (ui64 : BitVec 64) : Exec (List UInt8) :=
  if hexadecimal = 0 then
    if ui64.toNat ≤ 2 ^ 32 - 1 then
      storeDigits 10 (fun d => UInt8.ofNat (d + 48)) int64Len (ui64.setWidth 32).toNat []
    else storeDigits 10 (fun d => UInt8.ofNat (d + 48)) int64Len ui64.toNat []
  else if hexadecimal = 1 then storeDigits 16 (hexDigit 97) int64Len ui64.toNat []
  else storeDigits 16 (hexDigit 65) int64Len ui64.toNat []

/-- `while (len++ < width && buf < last)`, with `n` for `width - len`. -/
def pad (zero : UInt8) : ℕ → Window → Exec Window
  | 0, w => pure w
  | n + 1, w =>
    if w.buf < w.last then do
      let w ← w.put zero
      pad zero n w
    else pure w

def sprintfNum (w : Window) (ui64 : BitVec 64) (zero : UInt8) (hexadecimal width : ℕ) :
    Exec Window := do
  let digits ← numDigits hexadecimal ui64
  let w ← pad zero (width - digits.length) w
  let len := if w.last < w.buf + digits.length then w.last - w.buf else digits.length
  w.puts (digits.take len)

/-- `hcore_cpymem(buf, bytes, len)`. -/
def cpymem (w : Window) (bytes : List UInt8) (len : ℕ) : Exec Window :=
  if len ≤ bytes.length then w.puts (bytes.take len) else undefined

/-- `while (*p && buf < last)`. -/
def putTerminated (w : Window) : List UInt8 → Exec Window
  | [] => undefined
  | c :: bytes =>
    if c ≠ 0 ∧ w.buf < w.last then do
      let w ← w.put c
      putTerminated w bytes
    else pure w

/-- The two cases of a pointer to characters. -/
def putChars (w : Window) (slen : ℕ) (bytes : List UInt8) : Exec Window :=
  if slen = noLen then putTerminated w bytes else cpymem w bytes (min w.room slen)

/-- `scale *= 10`, so many times, in 32 bits. -/
def scaleOf : ℕ → ℕ
  | 0 => 1
  | n + 1 => toUInt32 ((scaleOf n * 10 : ℕ) : ℤ)

/-- The two parts of a double. -/
def doubleParts (s : Spec) (f : Double) : BitVec 64 × BitVec 64 :=
  if s.fracWidth ≠ 0 then
    if (f.fraction (scaleOf s.fracWidth)).toNat = scaleOf s.fracWidth then (f.whole + 1, 0)
    else (f.whole, f.fraction (scaleOf s.fracWidth))
  else (f.whole, 0)

/-- The minus in front of a double. -/
def putSign (w : Window) (negative : Bool) : Exec Window := if negative then w.put 45 else pure w

/-- The point, for which there may be no room. -/
def putPoint (w : Window) : Exec Window := if w.buf < w.last then w.put 46 else pure w

def putDouble (w : Window) (s : Spec) (f : Double) : Exec Window := do
  let w ← putSign w f.negative
  let (ui64, frac) := doubleParts s f
  let w ← sprintfNum w ui64 s.zero 0 s.width
  if s.fracWidth ≠ 0 then do
    let w ← putPoint w
    sprintfNum w frac 48 0 s.fracWidth
  else pure w

/-- What the switch leaves in `i64` and `ui64`, with what it changes in the
variables of the directive. -/
structure Integer where
  spec : Spec
  i64 : BitVec 64
  ui64 : BitVec 64

/-- An argument of 32 bits that is signed or not as the directive says. -/
def wordInteger (s : Spec) (v : BitVec 32) : Integer :=
  if s.sign then ⟨s, v.signExtend 64, 0⟩ else ⟨s, 0, v.setWidth 64⟩

def longInteger (s : Spec) (v : BitVec 64) : Integer := if s.sign then ⟨s, v, 0⟩ else ⟨s, 0, v⟩

/-- The conversions of integers. -/
def readInteger (s : Spec) (args : List Arg) : Conversion → Exec (Integer × List Arg)
  | .offset | .time => do
    let (v, args) ← vaLong args
    pure (⟨{ s with sign := true }, v, 0⟩, args)
  | .pid => do
    let (v, args) ← vaWord args
    pure (⟨{ s with sign := true }, v.signExtend 64, 0⟩, args)
  | .msec => do
    let (v, args) ← vaWord args
    if v = -1 then pure (⟨{ s with sign := true }, -1, 0⟩, args)
    else pure (⟨{ s with sign := false }, 0, v.setWidth 64⟩, args)
  | .int => do
    let (v, args) ← vaWord args
    pure (wordInteger (if s.maxWidth then { s with width := intLen } else s) v, args)
  | .number | .int32 => do
    let (v, args) ← vaWord args
    pure (wordInteger s v, args)
  | .size | .long | .int64 => do
    let (v, args) ← vaLong args
    pure (longInteger s v, args)
  | .pointer => do
    let (v, args) ← vaLong args
    pure (⟨{ s with hex := 2, sign := false, zero := 48, width := 16 }, 0, v⟩, args)
  | _ => undefined

/-- What follows the switch. The negation of the most negative number is taken
as the machine takes it. -/
def putInteger (w : Window) (x : Integer) : Exec Window :=
  if x.spec.sign then
    if x.i64.toInt < 0 then do
      let w ← w.put 45
      sprintfNum w (-x.i64) x.spec.zero x.spec.hex x.spec.width
    else sprintfNum w x.i64 x.spec.zero x.spec.hex x.spec.width
  else sprintfNum w x.ui64 x.spec.zero x.spec.hex x.spec.width

/-- The switch over a conversion that is not the end of the format. -/
def convert (w : Window) (s : Spec) (c : UInt8) (args : List Arg) : Exec (Window × List Arg) :=
  match conversion c with
  | .str => do
    let (data, args) ← vaStr args
    let w ← cpymem w data (min w.room data.length)
    pure (w, args)
  | .chars => do
    let (bytes, args) ← vaChars args
    let w ← putChars w s.slen bytes
    pure (w, args)
  | .double => do
    let (f, args) ← vaDouble args
    let w ← putDouble w s f
    pure (w, args)
  | .char => do
    let (v, args) ← vaWord args
    let w ← w.put (UInt8.ofNat (v.toNat &&& 0xff))
    pure (w, args)
  | .zero => do
    let w ← w.put 0
    pure (w, args)
  | .newline => do
    let w ← w.put 10
    pure (w, args)
  | .percent => do
    let w ← w.put 37
    pure (w, args)
  | .other => do
    let w ← w.put c
    pure (w, args)
  | integer => do
    let (x, args) ← readInteger s args integer
    let w ← putInteger w x
    pure (w, args)

/-- The main loop. -/
def vslprintfFrom : ℕ → Window → List UInt8 → List Arg → Exec Window
  | 0, _, _, _ => outOfFuel
  | _ + 1, w, [], _ => pure w
  | fuel + 1, w, c :: fmt, args =>
    if w.buf < w.last then
      if c = 37 then do
        let (s, fmt, args) ← readSpec fmt args
        match fmt with
        | [] => do
          -- the default case copies the zero, and the loop reads behind it
          let _ ← w.put 0
          undefined
        | c :: fmt => do
          let (w, args) ← convert w s c args
          vslprintfFrom fuel w fmt args
      else do
        let w ← w.put c
        vslprintfFrom fuel w fmt args
    else pure w

/-- Every round of the loop takes a byte of the format at least. -/
def vslprintf (w : Window) (fmt : List UInt8) (args : List Arg) : Exec Window :=
  vslprintfFrom (fmt.length + 1) w fmt args

end HCore.Formatter
