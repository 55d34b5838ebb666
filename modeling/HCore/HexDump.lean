import HCore.NumericScanners
import HCore.Formatter

/-!
The hexadecimal dump of memory. Each byte is read twice, once for each of its
digits, and the first digit is stored before the second read. The places of the
digits may lie over those of the bytes as long as no byte is overwritten before
it is dumped; then the digits read back as the bytes.
-/

namespace HCore.HexDump

open Machine NumericScanners Formatter

/-- `hex` -/
def hex : List UInt8 := bytesOf "0123456789abcdef"

def hexAt (i : UInt8) : UInt8 := hex.getD i.toNat 0

/-- A round of the loop of `hcore_hex_dump`. -/
def dumpByte (mem : ℕ → UInt8) (dst src : ℕ) : ℕ → UInt8 :=
  let mem := Function.update mem dst (hexAt (mem src >>> 4))
  Function.update mem (dst + 1) (hexAt (mem src &&& 0xf))

/-- `hcore_hex_dump`; the memory afterwards, and the end of the digits. -/
def hexDump (mem : ℕ → UInt8) (dst src : ℕ) : ℕ → (ℕ → UInt8) × ℕ
  | 0 => (mem, dst)
  | len + 1 => hexDump (dumpByte mem dst src) (dst + 2) (src + 1) len

/-- The digits read back as the bytes that were there. -/
def ReadsBack (mem : ℕ → UInt8) (dst src len : ℕ) : Prop :=
  ∀ i < len, hextoi [(hexDump mem dst src len).1 (dst + 2 * i),
    (hexDump mem dst src len).1 (dst + 2 * i + 1)] = Except.ok ((mem (src + i)).toNat : ℤ)

/-- The digits begin behind the bytes, or as far in front of them as there are bytes. -/
def Apart (dst src len : ℕ) : Prop := len = 0 ∨ src + len ≤ dst ∨ dst + len ≤ src

instance decidableApart (dst src len : ℕ) : Decidable (Apart dst src len) :=
  inferInstanceAs (Decidable (_ ∨ _ ∨ _))

section

variable {mem : ℕ → UInt8} {dst src len a i : ℕ}

theorem shift_lt (c : UInt8) : (c >>> 4).toNat < 16 := by
  have hlt := c.toNat_lt
  have hshift : (c >>> 4).toNat = c.toNat >>> 4 := UInt8.toNat_shiftRight ..
  rw [hshift, Nat.shiftRight_eq_div_pow]
  omega

theorem mask_lt (c : UInt8) : (c &&& 0xf).toNat < 16 := by
  rw [UInt8.toNat_and]
  exact @Nat.and_lt_two_pow _ 15 4 (by decide)

/-- Two digits of a dump read back as their values. -/
theorem hextoi_digits {u v : UInt8} (hu : u.toNat < 16) (hv : v.toNat < 16) :
    hextoi [hexAt u, hexAt v] = Except.ok ((u.toNat * 16 + v.toNat : ℕ) : ℤ) := by
  have hall : ∀ d e : Fin 16, NetMask.hextoi [hexAt (UInt8.ofNat d), hexAt (UInt8.ofNat e)] =
      ((d * 16 + e : ℕ) : ℤ) := by decide +kernel
  have hdigits := hall ⟨u.toNat, hu⟩ ⟨v.toNat, hv⟩
  rw [UInt8.ofNat_toNat, UInt8.ofNat_toNat] at hdigits
  rw [hextoi_eq, hdigits]

/-- The halves of a digit are not those of `0xff`. -/
theorem digit_halves {u : UInt8} (hu : u.toNat < 16) :
    (hexAt u >>> 4).toNat ≠ 15 ∧ (hexAt u &&& 0xf).toNat ≠ 15 := by
  have hall : ∀ d : Fin 16, (hexAt (UInt8.ofNat d) >>> 4).toNat ≠ 15 ∧
      (hexAt (UInt8.ofNat d) &&& 0xf).toNat ≠ 15 := by decide +kernel
  have hdigit := hall ⟨u.toNat, hu⟩
  rwa [UInt8.ofNat_toNat] at hdigit

theorem halves (c : UInt8) : (c >>> 4).toNat * 16 + (c &&& 0xf).toNat = c.toNat := by
  have hmask : c.toNat &&& 15 = c.toNat % 2 ^ 4 := Nat.and_two_pow_sub_one_eq_mod c.toNat 4
  have hshift : (c >>> 4).toNat = c.toNat >>> 4 := UInt8.toNat_shiftRight ..
  have hand : (c &&& 0xf).toNat = c.toNat &&& 15 := UInt8.toNat_and ..
  rw [hshift, hand, hmask, Nat.shiftRight_eq_div_pow]
  omega

theorem dumpByte_outside (h : a ≠ dst ∧ a ≠ dst + 1) : dumpByte mem dst src a = mem a := by
  rw [dumpByte, Function.update_of_ne h.2, Function.update_of_ne h.1]

/-- Nothing else is stored. -/
theorem hexDump_outside (h : a < dst ∨ dst + 2 * len ≤ a) : (hexDump mem dst src len).1 a = mem a := by
  induction len generalizing mem dst src with
  | zero => rfl
  | succ len ih =>
    rw [hexDump, ih (by omega), dumpByte_outside (by omega)]

/-- The dump of the first bytes, and of the others behind it. -/
theorem hexDump_add (mem : ℕ → UInt8) (dst src i len : ℕ) :
    (hexDump mem dst src (i + len)).1 =
      (hexDump (hexDump mem dst src i).1 (dst + 2 * i) (src + i) len).1 := by
  induction i generalizing mem dst src with
  | zero =>
    rw [Nat.zero_add]
    rfl
  | succ i ih =>
    rw [Nat.add_right_comm, hexDump, ih, hexDump]
    congr 2
    · ring
    · ring

/-- The digits of a byte, as it is when its round begins. -/
theorem hexDump_digits (hi : i < len) (before : ℕ → UInt8)
    (hbefore : before = (hexDump mem dst src i).1) :
    (hexDump mem dst src len).1 (dst + 2 * i) = hexAt (before (src + i) >>> 4) ∧
      (hexDump mem dst src len).1 (dst + 2 * i + 1) =
        hexAt (Function.update before (dst + 2 * i) (hexAt (before (src + i) >>> 4)) (src + i) &&&
          0xf) := by
  obtain ⟨k, rfl⟩ : ∃ k, len = i + (k + 1) := ⟨len - i - 1, by omega⟩
  rw [hexDump_add, ← hbefore, hexDump]
  constructor
  · rw [hexDump_outside (by omega), dumpByte, Function.update_of_ne (by omega),
      Function.update_self]
  · rw [hexDump_outside (by omega), dumpByte, Function.update_self]

/-- The bytes of the dump are digits. -/
theorem hexDump_isDigit (hlow : dst ≤ a) (hhigh : a < dst + 2 * len) :
    ∃ u : UInt8, u.toNat < 16 ∧ (hexDump mem dst src len).1 a = hexAt u := by
  obtain ⟨hfirst, hsecond⟩ := @hexDump_digits mem dst src len ((a - dst) / 2) (by omega) _ rfl
  rcases Nat.mod_two_eq_zero_or_one (a - dst) with heven | hodd
  · rw [show dst + 2 * ((a - dst) / 2) = a by omega] at hfirst
    exact ⟨_, shift_lt _, hfirst⟩
  · rw [show dst + 2 * ((a - dst) / 2) + 1 = a by omega] at hsecond
    exact ⟨_, mask_lt _, hsecond⟩

/-- A byte that is apart from the digits in front of its own is read as it was. -/
theorem Apart.readsBack (h : Apart dst src len) (mem : ℕ → UInt8) : ReadsBack mem dst src len := by
  intro i hi
  unfold Apart at h
  have hkept : (hexDump mem dst src i).1 (src + i) = mem (src + i) := hexDump_outside (by omega)
  obtain ⟨hfirst, hsecond⟩ := @hexDump_digits mem dst src len i hi _ rfl
  rw [Function.update_of_ne (by omega)] at hsecond
  rw [hfirst, hsecond, hkept, hextoi_digits (shift_lt _) (mask_lt _), halves]

/-- **The dump reads back** as the bytes, whatever they are, exactly if the digits lie
apart from the bytes that are not dumped yet. -/
theorem hex_dump_iff (dst src len : ℕ) :
    (∀ mem, ReadsBack mem dst src len) ↔ Apart dst src len := by
  refine ⟨fun h => ?_, Apart.readsBack⟩
  by_contra hover
  unfold Apart at hover
  -- The byte that is overwritten first, among bytes that are all 0xff.
  obtain ⟨i, hi, hlow, hhigh⟩ : ∃ i < len, dst ≤ src + i ∧ src + i ≤ dst + 2 * i :=
    ⟨(dst - src) + (src - dst), by omega, by omega, by omega⟩
  have hread := h (fun _ => 0xff) i hi
  obtain ⟨before, hbefore⟩ : ∃ before, before = (hexDump (fun _ => 0xff) dst src i).1 := ⟨_, rfl⟩
  obtain ⟨hfirst, hsecond⟩ := hexDump_digits hi before hbefore
  rw [hfirst, hsecond, hextoi_digits (shift_lt _) (mask_lt _)] at hread
  have hvalue := Int.natCast_inj.mp (Except.ok.inj hread)
  change _ = 255 at hvalue
  have hlast := mask_lt (Function.update before (dst + 2 * i) (hexAt (before (src + i) >>> 4))
    (src + i))
  have htop := shift_lt (before (src + i))
  rcases Nat.lt_or_eq_of_le hhigh with hearlier | hown
  · obtain ⟨u, hu, hdigit⟩ := @hexDump_isDigit (fun _ => 0xff) dst src i (src + i) hlow hearlier
    have hne := (digit_halves hu).1
    rw [← hbefore] at hdigit
    rw [hdigit] at hvalue htop hlast
    omega
  · rw [hown, Function.update_self] at hvalue hlast
    have hne := (digit_halves htop).2
    rw [hown] at hne
    omega

end

end HCore.HexDump
