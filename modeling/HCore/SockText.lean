import HCore.FormatText
import HCore.InetAddr
import HCore.UrlText
import Mathlib.Data.Fin.VecNotation

/-!
Socket addresses as text. The text of an address goes through the formatter,
so it is cut where the buffer ends, and the callers size the buffer for the
address alone: there is no room in it for the brackets, the port or the zero
that the printer adds. What fits is read back by the URL parser.
-/

namespace HCore.SockText

open Machine BitMap DecimalText TextWindow Numerals Formatter FormatText NetMask InetAddr PortRange
  UrlText

/-- A port in network byte order: the two bytes in memory. -/
abbrev NetPort := UInt8 × UInt8

def ntohs (port : NetPort) : ℕ := port.1.toNat * 256 + port.2.toNat

/-- A socket address by its family, with what is read of it. -/
inductive SockAddr
  | inet (sinPort : NetPort) (sinAddr : Fin 4 → UInt8)
  | inet6 (sin6Port : NetPort) (sin6Addr : Fin 16 → UInt8)
  | unix (sunPath : Fin 108 → UInt8)
  | other (family : ℕ) (h : family ≠ 2 ∧ family ≠ 10 ∧ family ≠ 1)

def afInet6 : ℕ := 10

def afUnix : ℕ := 1

def SockAddr.family : SockAddr → ℕ
  | inet _ _ => afInet
  | inet6 _ _ => afInet6
  | unix _ => afUnix
  | other family _ => family

/-- `sizeof("ffff:ffff:ffff:ffff:ffff:ffff:255.255.255.255") - 1`. -/
def inet6Addrstrlen : ℕ := 45

/-- `offsetof(struct sockaddr_un, sun_path)`. -/
def sunPathOffset : ℕ := 2

/-- `sizeof(struct sockaddr_un)`. -/
def sizeofSockaddrUn : ℕ := 110

/-- `HCORE_UNIX_ADDRSTRLEN`. -/
def unixAddrstrlen : ℕ := 5 + sizeofSockaddrUn - sunPathOffset

def getMaxAddrLen (family : ℕ) : ℕ :=
  if family = afInet then inetAddrstrlen
  else if family = afInet6 then inet6Addrstrlen
  else if family = afUnix then unixAddrstrlen
  else unixAddrstrlen

/-- `strnlen`, which must find a zero where the bytes end before `n`. -/
def strnlen (bytes : List UInt8) (n : ℕ) : Exec ℕ :=
  let len := ((bytes.take n).takeWhile (fun c => decide (c ≠ 0))).length
  if len < n ∧ len = bytes.length then undefined else pure len

/-- The cursor one byte back. -/
def back (w : Window) : Window := ⟨w.byte, w.buf - 1, w.last, (Nat.sub_le ..).trans w.le⟩

/-- An argument of type `int` with the value of a byte or a port. -/
def intArg (n : ℕ) : Arg := .word (BitVec.ofNat 32 n)

/-- The two calls for a unix socket, where the path may be missing. -/
def unixNtop (path : Fin 108 → UInt8) (socklen : ℕ) (w : Window) : Exec Window :=
  if socklen ≤ sunPathOffset then vslprintf w (bytesOf "unix:%Z") []
  else do
    let n ← strnlen (List.ofFn path) (socklen - sunPathOffset)
    vslprintf w (bytesOf "unix:%*s%Z") [.long (BitVec.ofNat 64 n), .chars (List.ofFn path)]

/-- The length that is returned, and the memory, for the text at the cursor
with the length up to the end; `inetNtop` gives the text that the function of
that name stores, if it does not return NULL. -/
def sockNtop (inetNtop : (Fin 16 → UInt8) → ℕ → Option (List UInt8)) (sa : SockAddr)
    (socklen : ℕ) (w : Window) : Exec (ℕ × Window) :=
  match sa with
  | .inet port addr => do
    let p ← vslprintf w (bytesOf "%ud.%ud.%ud.%ud:%d")
      [intArg (addr 0).toNat, intArg (addr 1).toNat, intArg (addr 2).toNat, intArg (addr 3).toNat,
        intArg (ntohs port)]
    pure (p.buf - w.buf, p)
  | .inet6 port addr => do
    let p ← w.put 91
    match inetNtop addr inet6Addrstrlen with
    | none => pure (0, p)
    | some text => do
      let p ← p.puts (text ++ [0])
      -- the zero is where the text goes on
      let p ← vslprintf (back p) (bytesOf "]:%d") [intArg (ntohs port)]
      pure (p.buf - w.buf, p)
  | .unix path => do
    let p ← unixNtop path socklen w
    pure (toUInt64 ((p.buf : ℤ) - w.buf - 1), p)
  | .other _ _ => pure (0, w)

/-- A number in decimal. -/
def decimalText (n : ℕ) : List UInt8 := numeral 10 decimalDigit n

/-- The path of a unix socket, up to a zero. -/
def pathText (path : Fin 108 → UInt8) (socklen : ℕ) : List UInt8 :=
  ((List.ofFn path).take (socklen - sunPathOffset)).takeWhile (fun c => decide (c ≠ 0))

/-- The fields of an address as text. -/
def addrFields (addr : Fin 4 → UInt8) : List (List UInt8) :=
  [decimalText (addr 0).toNat, decimalText (addr 1).toNat, decimalText (addr 2).toNat,
    decimalText (addr 3).toNat]

def hostText (addr : Fin 4 → UInt8) : List UInt8 := List.intercalate [46] (addrFields addr)

/-- The text that the printer is asked for, if all of it fits. -/
def completeText (inetNtop : (Fin 16 → UInt8) → ℕ → Option (List UInt8)) (socklen : ℕ) :
    SockAddr → List UInt8
  | .inet port addr => hostText addr ++ 58 :: decimalText (ntohs port)
  | .inet6 port addr =>
    91 :: ((inetNtop addr inet6Addrstrlen).getD [] ++ 93 :: 58 :: decimalText (ntohs port))
  | .unix path => unixText ++ pathText path socklen
  | .other _ _ => []

theorem ntohs_lt (port : NetPort) : ntohs port < 65536 := by
  have hhigh := port.1.toNat_lt
  have hlow := port.2.toNat_lt
  unfold ntohs
  omega

theorem hostText_eq (addr : Fin 4 → UInt8) : hostText addr =
    decimalText (addr 0).toNat ++ 46 :: (decimalText (addr 1).toNat ++ 46 ::
      (decimalText (addr 2).toNat ++ 46 :: decimalText (addr 3).toNat)) := by
  simp [hostText, addrFields, List.intercalate]

section

variable {fmt text : List UInt8} {args : List Arg} {whole : Bool} {n : ℕ}

theorem numText_decimal (ui64 : BitVec 64) : numText ui64 32 0 0 = decimalText ui64.toNat := by
  unfold numText
  rw [Nat.zero_sub, List.replicate_zero, List.nil_append]
  rfl

/-- `%ud` prints a number of 32 bits. -/
theorem prints_unsigned (hn : n < 2 ^ 32) (h : Prints fmt args text whole) :
    Prints (37 :: 117 :: 100 :: fmt) (intArg n :: args) (decimalText n ++ text) whole := by
  have hpiece : integerText (wordInteger ⟨32, 0, false, 0, false, 0, noLen⟩ (BitVec.ofNat 32 n)) =
      decimalText n := by
    refine (numText_decimal ((BitVec.ofNat 32 n).setWidth 64)).trans (congrArg decimalText ?_)
    rw [BitVec.toNat_setWidth, BitVec.toNat_ofNat]
    omega
  rw [← hpiece]
  exact Prints.directive rfl (Yields.integer rfl) h

/-- A number in decimal, filled up to a width. -/
def padded (zero : UInt8) (width n : ℕ) : List UInt8 :=
  List.replicate (width - (decimalText n).length) zero ++ decimalText n

/-- A signed number of 32 bits is printed as its directive says. -/
theorem prints_padded {zero : UInt8} {width : ℕ} {flags : List UInt8} (hn : n < 2 ^ 31)
    (hspec : readSpec (flags ++ 100 :: fmt) (intArg n :: args) =
      Except.ok (⟨zero, width, true, 0, false, 0, noLen⟩, 100 :: fmt, intArg n :: args))
    (h : Prints fmt args text whole) :
    Prints (37 :: (flags ++ 100 :: fmt)) (intArg n :: args) (padded zero width n ++ text)
      whole := by
  have hval : (BitVec.ofNat 32 n).toNat = n := by
    rw [BitVec.toNat_ofNat]
    omega
  have hext : (BitVec.ofNat 32 n).signExtend 64 = (BitVec.ofNat 32 n).setWidth 64 :=
    BitVec.signExtend_eq_setWidth_of_msb_false
      (BitVec.msb_eq_false_iff_two_mul_lt.mpr (by omega))
  have hwide : ((BitVec.ofNat 32 n).setWidth 64).toNat = n := by
    rw [BitVec.toNat_setWidth, hval]
    omega
  have hdigits : digitsText 0 ((BitVec.ofNat 32 n).setWidth 64) = decimalText n := by
    rw [digitsText, if_pos rfl, hwide]
    rfl
  have hpiece : integerText (wordInteger ⟨zero, width, true, 0, false, 0, noLen⟩
      (BitVec.ofNat 32 n)) = padded zero width n := by
    unfold integerText wordInteger
    rw [if_pos rfl]
    dsimp only
    rw [if_pos rfl, hext, BitVec.toInt_eq_toNat_of_lt (by omega), if_neg (by omega), numText,
      hdigits, padded]
  rw [← hpiece]
  exact Prints.directive hspec (Yields.integer rfl) h

/-- `%d` prints a number of 32 bits with a sign. -/
theorem prints_signed (hn : n < 2 ^ 31) (h : Prints fmt args text whole) :
    Prints (37 :: 100 :: fmt) (intArg n :: args) (decimalText n ++ text) whole := by
  have hprints := @prints_padded fmt text args whole n 32 0 [] hn rfl h
  rwa [padded, Nat.zero_sub, List.replicate_zero, List.nil_append] at hprints

theorem prints_inet (port : NetPort) (addr : Fin 4 → UInt8) :
    Prints (bytesOf "%ud.%ud.%ud.%ud:%d")
      [intArg (addr 0).toNat, intArg (addr 1).toNat, intArg (addr 2).toNat, intArg (addr 3).toNat,
        intArg (ntohs port)]
      (hostText addr ++ 58 :: decimalText (ntohs port)) true := by
  have hbyte (i : Fin 4) : (addr i).toNat < 2 ^ 32 := by
    have hlt := (addr i).toNat_lt
    omega
  have hport : ntohs port < 2 ^ 31 := by
    have hlt := ntohs_lt port
    omega
  have hlast := prints_signed hport (@Prints.done [])
  rw [List.append_nil] at hlast
  have hprints := prints_unsigned (hbyte 0) (Prints.plain (show (46 : UInt8) ≠ 37 by decide)
    (prints_unsigned (hbyte 1) (Prints.plain (show (46 : UInt8) ≠ 37 by decide)
      (prints_unsigned (hbyte 2) (Prints.plain (show (46 : UInt8) ≠ 37 by decide)
        (prints_unsigned (hbyte 3) (Prints.plain (show (58 : UInt8) ≠ 37 by decide) hlast)))))))
  have htext : hostText addr ++ 58 :: decimalText (ntohs port) =
      decimalText (addr 0).toNat ++ 46 :: (decimalText (addr 1).toNat ++ 46 ::
        (decimalText (addr 2).toNat ++ 46 :: (decimalText (addr 3).toNat ++
          58 :: decimalText (ntohs port)))) := by
    rw [hostText_eq]
    simp only [List.append_assoc, List.cons_append]
  rw [htext]
  exact hprints

theorem prints_inet6 (port : NetPort) : Prints (bytesOf "]:%d") [intArg (ntohs port)]
    (93 :: 58 :: decimalText (ntohs port)) true := by
  have hport : ntohs port < 2 ^ 31 := by
    have hlt := ntohs_lt port
    omega
  have hlast := prints_signed hport (@Prints.done [])
  rw [List.append_nil] at hlast
  exact Prints.literal (show 37 ∉ [93, 58] by decide) hlast

theorem prints_path {bytes : List UInt8} (hn : n < 2 ^ 64 - 1) (hbytes : n ≤ bytes.length) :
    Prints (bytesOf "unix:%*s%Z") [.long (BitVec.ofNat 64 n), .chars bytes]
      (unixText ++ (bytes.take n ++ [0])) true := by
  have hval : (BitVec.ofNat 64 n).toNat = n := by
    rw [BitVec.toNat_ofNat]
    omega
  have hpiece : Yields ⟨32, 0, true, 0, false, 0, (BitVec.ofNat 64 n).toNat⟩ 115 .chars
      [.chars bytes] (bytes.take n) [] := by
    rw [hval]
    exact Yields.counted (by unfold noLen; dsimp only; omega) hbytes
  exact Prints.literal (show 37 ∉ unixText by decide) (Prints.directive rfl hpiece prints_zero)

end

section

variable {w : Window}

theorem back_emit {a : List UInt8} (h : a.length < w.room) (c d : UInt8) (b : List UInt8) :
    (back (w.emit (a ++ [c]))).emit (d :: b) = w.emit (a ++ d :: b) := by
  have hlt : (w.emit a).buf < (w.emit a).last := by
    have hroom := Window.room_emit w a
    unfold Window.room at *
    omega
  rw [Window.emit_append, Window.emit_append, Window.emit_cons_of_lt hlt, Window.emit_nil,
    Window.emit_cons_of_lt hlt]
  have hlt' : (back ((w.emit a).next c hlt)).buf < (back ((w.emit a).next c hlt)).last := hlt
  have hsame : (back ((w.emit a).next c hlt)).next d hlt' = (w.emit a).next d hlt :=
    Window.ext (Function.update_idem ..) rfl rfl
  rw [Window.emit_cons_of_lt hlt', hsame]

variable {inetNtop : (Fin 16 → UInt8) → ℕ → Option (List UInt8)} {socklen : ℕ}

theorem sockNtop_inet (port : NetPort) (addr : Fin 4 → UInt8) (w : Window) :
    sockNtop inetNtop (.inet port addr) socklen w =
      Except.ok (min w.room (completeText inetNtop socklen (.inet port addr)).length,
        w.emit (completeText inetNtop socklen (.inet port addr))) := by
  rw [sockNtop, (prints_inet port addr).emits w, ok_bind, Window.emit_buf, Nat.add_sub_cancel_left,
    pure_eq_ok]
  rfl

/-- The text of `inet_ntop` and its zero have to fit. -/
theorem sockNtop_inet6 (port : NetPort) {addr : Fin 16 → UInt8} {text : List UInt8}
    (hntop : inetNtop addr inet6Addrstrlen = some text) {w : Window}
    (hroom : text.length + 2 ≤ w.room) :
    sockNtop inetNtop (.inet6 port addr) socklen w =
      Except.ok (min w.room (completeText inetNtop socklen (.inet6 port addr)).length,
        w.emit (completeText inetNtop socklen (.inet6 port addr))) := by
  have hlt : w.buf < w.last := by
    unfold Window.room at hroom
    omega
  have hfits : (text ++ [0]).length ≤ (w.emit [91]).room := by
    rw [Window.room_emit, List.length_append]
    simp only [List.length_cons, List.length_nil]
    omega
  have hopen : (w.emit [91]).emit (text ++ [0]) = w.emit ((91 :: text) ++ [0]) := by
    rw [← Window.emit_append]
    rfl
  have hback := back_emit (a := 91 :: text) (by rw [List.length_cons]; omega) 0 93
    (58 :: decimalText (ntohs port)) (w := w)
  have htext : completeText inetNtop socklen (.inet6 port addr) =
      (91 :: text) ++ 93 :: 58 :: decimalText (ntohs port) := by
    rw [completeText, hntop]
    rfl
  rw [sockNtop, Window.put_eq hlt, ok_bind, hntop]
  dsimp only
  rw [Window.puts_eq hfits, ok_bind, hopen, (prints_inet6 port).emits, ok_bind, hback, htext,
    Window.emit_buf, Nat.add_sub_cancel_left, pure_eq_ok]

theorem strnlen_path (path : Fin 108 → UInt8) (hlen : socklen ≤ sizeofSockaddrUn) :
    strnlen (List.ofFn path) (socklen - sunPathOffset) =
      Except.ok (pathText path socklen).length := by
  unfold strnlen
  dsimp only
  rw [if_neg, pure_eq_ok]
  · rfl
  · rintro ⟨hshort, hend⟩
    rw [hend, List.length_ofFn] at hshort
    unfold sizeofSockaddrUn at hlen
    unfold sunPathOffset at hshort
    omega

theorem pathText_isPrefix (path : Fin 108 → UInt8) (socklen : ℕ) :
    pathText path socklen <+: List.ofFn path :=
  (List.takeWhile_prefix _).trans (List.take_prefix ..)

theorem unixNtop_eq (path : Fin 108 → UInt8) (hlen : socklen ≤ sizeofSockaddrUn) (w : Window) :
    unixNtop path socklen w =
      Except.ok (w.emit (completeText inetNtop socklen (.unix path) ++ [0])) := by
  have hbytes : (pathText path socklen).length ≤ (List.ofFn path).length :=
    (pathText_isPrefix path socklen).length_le
  unfold unixNtop
  by_cases hpath : socklen ≤ sunPathOffset
  · have hnil : pathText path socklen = [] := by
      unfold pathText
      rw [Nat.sub_eq_zero_of_le hpath]
      rfl
    rw [if_pos hpath, completeText, hnil]
    exact (Prints.literal (show 37 ∉ unixText by decide) prints_zero).emits w
  · have hsmall : (pathText path socklen).length < 2 ^ 64 - 1 := by
      rw [List.length_ofFn] at hbytes
      omega
    have hprints := prints_path hsmall hbytes
    rw [← List.prefix_iff_eq_take.mp (pathText_isPrefix path socklen), ← List.append_assoc] at hprints
    rw [if_neg hpath, strnlen_path path hlen, ok_bind, hprints.emits w]
    rfl

/-- The zero behind the path is counted, and taken off again. -/
theorem sockNtop_unix (path : Fin 108 → UInt8) (hlen : socklen ≤ sizeofSockaddrUn) (w : Window) :
    sockNtop inetNtop (.unix path) socklen w =
      Except.ok (toUInt64 (((min w.room
          ((completeText inetNtop socklen (.unix path)).length + 1) : ℕ) : ℤ) - 1),
        w.emit (completeText inetNtop socklen (.unix path) ++ [0])) := by
  have hcount (len : ℕ) : (((w.buf + len : ℕ) : ℤ) - w.buf - 1) = (len : ℤ) - 1 := by
    push_cast
    ring
  rw [sockNtop, unixNtop_eq path hlen, ok_bind, Window.emit_buf, hcount, List.length_append,
    List.length_singleton, pure_eq_ok]

end

/-- The digits of a number. -/
def digits (n : ℕ) : ℕ := (decimalText n).length

theorem completeText_inet_length (inetNtop : (Fin 16 → UInt8) → ℕ → Option (List UInt8))
    (socklen : ℕ) (port : NetPort) (addr : Fin 4 → UInt8) :
    (completeText inetNtop socklen (.inet port addr)).length =
      digits (addr 0).toNat + digits (addr 1).toNat + digits (addr 2).toNat +
        digits (addr 3).toNat + digits (ntohs port) + 4 := by
  unfold digits
  rw [completeText, hostText_eq]
  simp only [List.length_append, List.length_cons]
  omega

/-- There is no longer text of an address with its port than
`255.255.255.255:65535`. -/
theorem completeText_inet_length_le (inetNtop : (Fin 16 → UInt8) → ℕ → Option (List UInt8))
    (socklen : ℕ) (port : NetPort) (addr : Fin 4 → UInt8) :
    (completeText inetNtop socklen (.inet port addr)).length ≤ 21 := by
  have hbyte (i : Fin 4) : digits (addr i).toNat ≤ 3 := by
    have hlt := (addr i).toNat_lt
    exact numeral_length_le (by omega) (by omega) (by omega)
  have hport : digits (ntohs port) ≤ 5 := by
    have hlt := ntohs_lt port
    exact numeral_length_le (by omega) (by omega) (by omega)
  have hzero := hbyte 0
  have hone := hbyte 1
  have htwo := hbyte 2
  have hthree := hbyte 3
  rw [completeText_inet_length]
  omega

/-- A window of each size. -/
def windowOf (room : ℕ) : Window := ⟨fun _ => 0, 0, room, Nat.zero_le room⟩

/-- `htons` takes back what `ntohs` does. -/
theorem htons_ntohs (port : NetPort) : htons (ntohs port) = [port.1, port.2] := by
  have hlow := port.2.toNat_lt
  have hhigh : ntohs port >>> 8 = port.1.toNat := by
    rw [Nat.shiftRight_eq_div_pow]
    unfold ntohs
    omega
  unfold htons
  rw [hhigh, UInt8.ofNat_toNat]
  congr 2
  refine UInt8.toNat.inj ?_
  rw [UInt8.toNat_ofNat']
  unfold ntohs
  omega

theorem port_decimalText {port : NetPort} (h : 1 ≤ ntohs port) :
    Port (decimalText (ntohs port)) (ntohs port) :=
  ⟨number_numeral _, h, Nat.le_of_lt_succ (ntohs_lt port)⟩

/-- The text of an address stands for its four bytes. -/
theorem address_hostText (addr : Fin 4 → UInt8) : Address (hostText addr) (List.ofFn addr) := by
  have hfield : ∀ field ∈ addrFields addr, ∃ i, Number field (addr i).toNat := by
    intro field hmem
    simp only [addrFields, List.mem_cons, List.not_mem_nil, or_false] at hmem
    rcases hmem with rfl | rfl | rfl | rfl
    all_goals exact ⟨_, number_numeral _⟩
  refine ⟨addrFields addr, ⟨by simp [addrFields], rfl, ?_, ?_⟩, rfl, ?_, ?_⟩
  · intro field hmem
    obtain ⟨i, hnum⟩ := hfield field hmem
    exact hnum.2.1
  · intro field hmem
    obtain ⟨i, hnum⟩ := hfield field hmem
    rw [hnum.2.2]
    exact Nat.le_of_lt_succ (addr i).toNat_lt
  · intro hmem
    obtain ⟨i, hnum⟩ := hfield [] hmem
    exact hnum.1 rfl
  · have hbyte (i : Fin 4) : UInt8.ofNat (decimal (decimalText (addr i).toNat)) = addr i := by
      rw [decimalText, (number_numeral _).2.2, UInt8.ofNat_toNat]
    simp only [octets, addrFields, List.map_cons, List.map_nil, hbyte]
    rfl

theorem isDigit_decimalText (n : ℕ) : ∀ c ∈ decimalText n, IsDigit c := (number_numeral n).2.1

/-- The characters of an address are digits and dots. -/
theorem hostText_chars (addr : Fin 4 → UInt8) : ∀ c ∈ hostText addr, IsDigit c ∨ c = 46 := by
  obtain ⟨fields, hfields, -⟩ := address_hostText addr
  exact hfields.chars

section

variable {inetNtop : (Fin 16 → UInt8) → ℕ → Option (List UInt8)} {socklen : ℕ} {port : NetPort}
  {addr : Fin 4 → UInt8} {c : UInt8}

theorem not_mem_hostText (hdigit : ¬ IsDigit c) (hdot : c ≠ 46) : c ∉ hostText addr :=
  fun hc => (hostText_chars addr c hc).elim hdigit hdot

theorem not_mem_completeText (hdigit : ¬ IsDigit c) (hdot : c ≠ 46) (hcolon : c ≠ 58) :
    c ∉ completeText inetNtop socklen (.inet port addr) := by
  rw [completeText, List.mem_append, List.mem_cons]
  rintro (hc | rfl | hc)
  · exact not_mem_hostText hdigit hdot hc
  · exact hcolon rfl
  · exact hdigit (isDigit_decimalText _ c hc)

/-- The parser reads the complete text of an address back. -/
theorem parseUrl_completeText (haddr : List.ofFn addr ≠ inaddrNone) (hport : 1 ≤ ntohs port)
    (url : Url) :
    ∃ url', parseUrl (completeText inetNtop socklen (.inet port addr)) url =
        Except.ok (hcoreOk, url') ∧
      url'.sinAddr = List.ofFn addr ∧ url'.sinPort = [port.1, port.2] := by
  have hread := (address_hostText addr).inetAddr_eq
  have hhost : 58 ∉ hostText addr := not_mem_hostText (by decide) (by decide)
  have hform : UrlForm url.listen (completeText inetNtop socklen (.inet port addr))
      (hostText addr) (decimalText (ntohs port)) (ntohs port) (inetAddr (hostText addr)) :=
    UrlForm.address hhost (port_decimalText hport) (by rwa [hread])
  have hplain : ¬ unixText <+: completeText inetNtop socklen (.inet port addr) := by
    intro hbegins
    have hletter : (117 : UInt8) ∈ unixText := by decide
    exact not_mem_completeText (by decide) (by decide) (by decide) (hbegins.subset hletter)
  have hne : completeText inetNtop socklen (.inet port addr) ≠ [] := by
    simp [completeText]
  rw [parseUrl_inet hplain]
  rcases parseInetSock_cases hne
      { url with urlText := completeText inetNtop socklen (.inet port addr) } with
    ⟨host, portText, p, addr', url', hform', hrun, hurl, -⟩ | ⟨hnot, -⟩
  · refine ⟨url', hrun, ?_, ?_⟩
    · rw [hurl.sinAddr_eq]
      obtain ⟨-, -, -, ⟨-, rfl⟩ | ⟨hstar, -⟩⟩ := (urlForm_colon hhost).mp hform'
      · exact hread
      · rw [hstar, inetAddr_star] at hread
        exact absurd hread.symm haddr
    · obtain ⟨-, -, hp, -⟩ := (urlForm_colon hhost).mp hform'
      rw [hurl.sinPort_eq, hp.unique (port_decimalText hport), htons_ntohs]
  · exact absurd hform (hnot _ _ _ _)

end

/-- **An address is read back** from its text, whatever the buffer held before. -/
theorem sock_ntop_parse_url (inetNtop : (Fin 16 → UInt8) → ℕ → Option (List UInt8))
    (socklen : ℕ) (port : NetPort) (addr : Fin 4 → UInt8) (w : Window) (url : Url)
    (haddr : List.ofFn addr ≠ inaddrNone) (hport : 1 ≤ ntohs port)
    (hroom : (completeText inetNtop socklen (.inet port addr)).length ≤ w.room) :
    ∃ len w', sockNtop inetNtop (.inet port addr) socklen w = Except.ok (len, w') ∧
      len = (w'.since w.buf).length ∧ 0 ∉ w'.since w.buf ∧
      ∃ url', parseUrl (w'.since w.buf) url = Except.ok (hcoreOk, url') ∧
        url'.sinAddr = List.ofFn addr ∧ url'.sinPort = [port.1, port.2] := by
  have htext : (w.emit (completeText inetNtop socklen (.inet port addr))).since w.buf =
      completeText inetNtop socklen (.inet port addr) := by
    rw [Window.since_emit, List.take_of_length_le hroom]
  refine ⟨_, _, sockNtop_inet port addr w, ?_, ?_, ?_⟩
  · rw [htext, Nat.min_eq_right hroom]
  · rw [htext]
    exact not_mem_completeText (by decide) (by decide) (by decide)
  · rw [htext]
    exact parseUrl_completeText haddr hport url

/-- The address 127.0.0.1 with port 80. -/
theorem sock_ntop_parse_url_loopback :
    ∃ len w', sockNtop (fun _ _ => some [58, 58]) (.inet (0, 80) ![127, 0, 0, 1]) 16 (windowOf 21) =
        Except.ok (len, w') ∧
      len = (w'.since (windowOf 21).buf).length ∧ 0 ∉ w'.since (windowOf 21).buf ∧
      ∃ url', parseUrl (w'.since (windowOf 21).buf) emptyUrl = Except.ok (hcoreOk, url') ∧
        url'.sinAddr = List.ofFn ![127, 0, 0, 1] ∧ url'.sinPort = [0, 80] :=
  sock_ntop_parse_url _ 16 (0, 80) ![127, 0, 0, 1] (windowOf 21) emptyUrl (by decide) (by decide)
    (completeText_inet_length_le ..)

/-- Along with its text the printer needs room for the port and for what
stands around the address. -/
def Fits (inetNtop : (Fin 16 → UInt8) → ℕ → Option (List UInt8)) (socklen : ℕ) :
    SockAddr → Prop
  | .inet port addr =>
    digits (addr 0).toNat + digits (addr 1).toNat + digits (addr 2).toNat +
      digits (addr 3).toNat + digits (ntohs port) ≤ 11
  | .inet6 port addr =>
    ∀ text, inetNtop addr inet6Addrstrlen = some text → text.length + digits (ntohs port) ≤ 42
  | .unix path => (pathText path socklen).length ≤ 107
  | .other _ _ => True

/-- In a buffer of the length for the family the call keeps to the buffer,
stores the complete text and returns its length. -/
def Sufficient (inetNtop : (Fin 16 → UInt8) → ℕ → Option (List UInt8)) (socklen : ℕ)
    (sa : SockAddr) : Prop :=
  ∀ w : Window, w.room = getMaxAddrLen sa.family →
    ∃ w', sockNtop inetNtop sa socklen w =
        Except.ok ((completeText inetNtop socklen sa).length, w') ∧
      (∀ a, a < w.buf ∨ w.last ≤ a → w'.byte a = w.byte a) ∧
      completeText inetNtop socklen sa <+: w'.since w.buf

/-- The families with an address. -/
def Known (socklen : ℕ) : SockAddr → Prop
  | .inet _ _ => True
  | .inet6 _ _ => True
  | .unix _ => socklen ≤ sizeofSockaddrUn
  | .other _ _ => False

section

variable {inetNtop : (Fin 16 → UInt8) → ℕ → Option (List UInt8)} {socklen : ℕ}

/-- Where the call emits a text and returns so many bytes, the buffer is
sufficient if that is the length of the complete text. -/
theorem sufficient_iff {sa : SockAddr} {cap ret : ℕ} {extra : List UInt8}
    (hcap : getMaxAddrLen sa.family = cap)
    (hrun : ∀ w : Window, w.room = cap → sockNtop inetNtop sa socklen w =
      Except.ok (ret, w.emit (completeText inetNtop socklen sa ++ extra)))
    (hfits : ret ≤ cap) :
    Sufficient inetNtop socklen sa ↔ ret = (completeText inetNtop socklen sa).length := by
  unfold Sufficient
  rw [hcap]
  constructor
  · intro h
    obtain ⟨w', hok, -⟩ := h (windowOf cap) rfl
    rw [hrun _ rfl] at hok
    exact (Prod.mk.inj (Except.ok.inj hok)).1
  · intro hret w hroom
    refine ⟨_, by rw [hrun w hroom, hret], fun a ha => Window.emit_byte_outside w _ ha, ?_⟩
    rw [Window.since_emit, hroom]
    exact List.prefix_take_iff.mpr ⟨List.prefix_append .., hret ▸ hfits⟩

/-- Where nothing but the text is emitted, it has to be no longer than the buffer. -/
theorem sufficient_iff_length_le {sa : SockAddr} {cap : ℕ}
    (hcap : getMaxAddrLen sa.family = cap)
    (hrun : ∀ w : Window, w.room = cap → sockNtop inetNtop sa socklen w =
      Except.ok (min w.room (completeText inetNtop socklen sa).length,
        w.emit (completeText inetNtop socklen sa))) :
    Sufficient inetNtop socklen sa ↔ (completeText inetNtop socklen sa).length ≤ cap := by
  have hrun' (w : Window) (hroom : w.room = cap) : sockNtop inetNtop sa socklen w =
      Except.ok (min cap (completeText inetNtop socklen sa).length,
        w.emit (completeText inetNtop socklen sa ++ [])) := by
    rw [hrun w hroom, hroom, List.append_nil]
  rw [sufficient_iff hcap hrun' (min_le_left ..)]
  exact min_eq_right_iff

theorem sufficient_inet_iff (port : NetPort) (addr : Fin 4 → UInt8) :
    Sufficient inetNtop socklen (.inet port addr) ↔ Fits inetNtop socklen (.inet port addr) := by
  have hcap : getMaxAddrLen (SockAddr.inet port addr).family = 15 := rfl
  rw [sufficient_iff_length_le hcap (fun w _ => sockNtop_inet port addr w),
    completeText_inet_length, Fits]
  omega

theorem completeText_inet6_length (port : NetPort) {addr : Fin 16 → UInt8} {text : List UInt8}
    (hntop : inetNtop addr inet6Addrstrlen = some text) :
    (completeText inetNtop socklen (.inet6 port addr)).length =
      text.length + digits (ntohs port) + 3 := by
  unfold digits
  rw [completeText, hntop]
  simp only [Option.getD_some, List.length_append, List.length_cons]
  omega

theorem fits_inet6_iff (port : NetPort) {addr : Fin 16 → UInt8} {text : List UInt8}
    (hntop : inetNtop addr inet6Addrstrlen = some text) :
    Fits inetNtop socklen (.inet6 port addr) ↔ text.length + digits (ntohs port) ≤ 42 := by
  constructor
  · exact fun h => h text hntop
  · intro h text' hntop'
    obtain rfl := Option.some.inj (hntop.symm.trans hntop')
    exact h

theorem sufficient_inet6_iff (port : NetPort) {addr : Fin 16 → UInt8} {text : List UInt8}
    (hntop : inetNtop addr inet6Addrstrlen = some text) (hle : text.length ≤ 39) :
    Sufficient inetNtop socklen (.inet6 port addr) ↔ Fits inetNtop socklen (.inet6 port addr) := by
  have hcap : getMaxAddrLen (SockAddr.inet6 port addr).family = 45 := rfl
  have hrun (w : Window) (hroom : w.room = 45) := @sockNtop_inet6 inetNtop socklen port _ _ hntop w
    (show text.length + 2 ≤ w.room by omega)
  rw [sufficient_iff_length_le hcap hrun, completeText_inet6_length port hntop,
    fits_inet6_iff port hntop]
  omega

theorem sufficient_unix_iff (path : Fin 108 → UInt8) (hlen : socklen ≤ sizeofSockaddrUn) :
    Sufficient inetNtop socklen (.unix path) ↔ Fits inetNtop socklen (.unix path) := by
  have hcap : getMaxAddrLen (SockAddr.unix path).family = 113 := rfl
  have htext : (completeText inetNtop socklen (.unix path)).length =
      5 + (pathText path socklen).length := by
    rw [completeText, List.length_append]
    rfl
  have hret (n : ℕ) : toUInt64 (((min 113 (n + 1) : ℕ) : ℤ) - 1) = min 113 (n + 1) - 1 := by
    have hcast : ((min 113 (n + 1) : ℕ) : ℤ) - 1 = ((min 113 (n + 1) - 1 : ℕ) : ℤ) := by
      omega
    rw [hcast, toUInt64_of_lt (by omega)]
  have hrun (w : Window) (hroom : w.room = 113) :
      sockNtop inetNtop (.unix path) socklen w =
        Except.ok (min 113 (5 + (pathText path socklen).length + 1) - 1,
          w.emit (completeText inetNtop socklen (.unix path) ++ [0])) := by
    rw [sockNtop_unix path hlen, hroom, htext, hret]
  rw [sufficient_iff hcap hrun (by omega), htext, Fits]
  omega

end

/-- **The buffers are sufficient** exactly for the addresses whose text is short enough. -/
theorem sock_ntop_sufficient_iff (inetNtop : (Fin 16 → UInt8) → ℕ → Option (List UInt8))
    (hntop : ∀ addr, ∃ text, inetNtop addr inet6Addrstrlen = some text ∧ text.length ≤ 39)
    (sa : SockAddr) (socklen : ℕ) (hsa : Known socklen sa) :
    Sufficient inetNtop socklen sa ↔ Fits inetNtop socklen sa := by
  cases sa with
  | inet port addr => exact sufficient_inet_iff port addr
  | inet6 port addr =>
    obtain ⟨text, htext, hle⟩ := hntop addr
    exact sufficient_inet6_iff port htext hle
  | unix path => exact sufficient_unix_iff path hsa
  | other family h => exact absurd hsa id

/-- The text `[::]:80` fits. -/
theorem sock_ntop_sufficient_iff_any :
    Sufficient (fun _ _ => some [58, 58]) 28 (.inet6 (0, 80) (fun _ => 0)) ↔
      Fits (fun _ _ => some [58, 58]) 28 (.inet6 (0, 80) (fun _ => 0)) :=
  sock_ntop_sufficient_iff (fun _ _ => some [58, 58]) (fun _ => ⟨_, rfl, by decide⟩) _ 28 trivial

/-- The text `255.255.255.255:65535` is cut. -/
theorem broadcast_text_cut :
    ¬ ∀ inetNtop : (Fin 16 → UInt8) → ℕ → Option (List UInt8),
      (∀ addr, ∃ text, inetNtop addr inet6Addrstrlen = some text ∧ text.length ≤ 39) →
      ∀ sa socklen, Known socklen sa → Sufficient inetNtop socklen sa := by
  intro h
  have hbuffer := h (fun _ _ => some [58, 58]) (fun _ => ⟨_, rfl, by decide⟩)
    (.inet (255, 255) (fun _ => 255)) 16 trivial
  have hfits : digits 255 + digits 255 + digits 255 + digits 255 + digits 65535 ≤ 11 :=
    (sufficient_inet_iff (255, 255) (fun _ => 255)).mp hbuffer
  exact absurd hfits (by decide)

end HCore.SockText
