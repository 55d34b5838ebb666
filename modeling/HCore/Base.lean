import HCore.Words
import HCore.Machine

/-!
The page-size globals of a process and the functions that fill them on first
use. The shift counters start at -1, like the globals that only mark a value
as missing, so both shifts come out one below the exponent: pages are
addressed in units of half a page, and the exact class has half the chunk
size that its 64-bit map was sized for.
-/

namespace HCore.Base

open Words

structure Globals where
  pagesize : ℤ
  pagesizeShift : ℤ
  slabMaxSize : ℤ
  slabExactSize : ℤ
  slabExactShift : ℤ
  deriving DecidableEq, Repr

def Globals.initial : Globals := ⟨-1, -1, -1, -1, -1⟩

/-- `for (; n >>= 1; count++)` on a non-negative `int`. -/
def countShifts (n count : ℤ) : ℤ := count + halvings 64 n.toNat

def getpagesize (system : ℤ) (g : Globals) : ℤ × Globals :=
  let g := if g.pagesize = -1 then { g with pagesize := system } else g
  (g.pagesize, g)

def getpagesizeShift (system : ℤ) (g : Globals) : ℤ × Globals :=
  let (pagesize, g) := getpagesize system g
  let g := if g.pagesizeShift = -1 then
      { g with pagesizeShift := countShifts pagesize g.pagesizeShift }
    else g
  (g.pagesizeShift, g)

def initSlab (system : ℤ) (g : Globals) : Globals :=
  let (pagesize, g) := getpagesize system g
  let g := { g with slabMaxSize := pagesize / 2, slabExactSize := pagesize / (8 * 8) }
  { g with slabExactShift := countShifts g.slabExactSize g.slabExactShift }

def getSlabMaxSize (system : ℤ) (g : Globals) : ℤ × Globals :=
  let g := if g.slabMaxSize = -1 then initSlab system g else g
  (g.slabMaxSize, g)

def getSlabExactSize (system : ℤ) (g : Globals) : ℤ × Globals :=
  let g := if g.slabExactSize = -1 then initSlab system g else g
  (g.slabExactSize, g)

def getSlabExactShift (system : ℤ) (g : Globals) : ℤ × Globals :=
  let g := if g.slabExactShift = -1 then initSlab system g else g
  (g.slabExactShift, g)

def processInvokeOnce (system : ℤ) (g : Globals) : Globals :=
  let (_, g) := getpagesize system g
  let (_, g) := getpagesizeShift system g
  initSlab system g

/-- What the five getters return to the slab functions. -/
structure Geometry where
  pagesize : ℕ
  pagesizeShift : ℕ
  slabMaxSize : ℕ
  slabExactSize : ℕ
  slabExactShift : ℕ
  deriving DecidableEq, Repr

/-- The getters in the order in which an allocation calls them. -/
def readGeometry (system : ℤ) (g : Globals) : Geometry :=
  let (pagesize, g) := getpagesize system g
  let (pagesizeShift, g) := getpagesizeShift system g
  let (slabExactSize, g) := getSlabExactSize system g
  let (slabExactShift, g) := getSlabExactShift system g
  let (slabMaxSize, _) := getSlabMaxSize system g
  ⟨pagesize.toNat, pagesizeShift.toNat, slabMaxSize.toNat, slabExactSize.toNat,
    slabExactShift.toNat⟩

/-- A page size the system can report: a power of two from 4096 on, small
enough that eight pages are still an `int`. -/
structure PageSize where
  log : ℕ
  log_ge : 12 ≤ log
  log_le : log ≤ 27

namespace PageSize

def bytes (P : PageSize) : ℕ := 2 ^ P.log

/-- The geometry a fresh process reads. -/
def geometry (P : PageSize) : Geometry := readGeometry P.bytes Globals.initial

theorem countShifts_two_pow (k : ℕ) (hk : k ≤ 64) (count : ℤ) :
    countShifts ((2 ^ k : ℕ) : ℤ) count = count + k := by
  unfold countShifts
  rw [Int.toNat_natCast, halvings_two_pow 64 k hk]

theorem bytes_eq_double (P : PageSize) : P.bytes = 2 * 2 ^ (P.log - 1) := by
  have h := P.log_ge
  rw [bytes, ← pow_succ', show P.log - 1 + 1 = P.log by omega]

theorem bytes_eq_exact (P : PageSize) : P.bytes = 64 * 2 ^ (P.log - 6) := by
  have h := P.log_ge
  rw [bytes, show (64 : ℕ) = 2 ^ 6 by norm_num, ← pow_add, show 6 + (P.log - 6) = P.log by omega]

/-- The slab functions see half-page units and a halved exact class. -/
theorem geometry_eq (P : PageSize) :
    P.geometry = ⟨2 ^ P.log, P.log - 1, 2 ^ (P.log - 1), 2 ^ (P.log - 6), P.log - 7⟩ := by
  have hlog := P.log_ge
  have hlog' := P.log_le
  have hpos : 0 < 2 ^ P.log := Nat.two_pow_pos _
  have hbytes : ((P.bytes : ℕ) : ℤ) ≠ -1 := by omega
  have hmax : ((P.bytes : ℕ) : ℤ) / 2 = ((2 ^ (P.log - 1) : ℕ) : ℤ) := by
    rw [bytes_eq_double]
    push_cast
    omega
  have hexact : ((P.bytes : ℕ) : ℤ) / (8 * 8) = ((2 ^ (P.log - 6) : ℕ) : ℤ) := by
    rw [bytes_eq_exact]
    push_cast
    omega
  have hshift : countShifts ((P.bytes : ℕ) : ℤ) (-1) = ((P.log - 1 : ℕ) : ℤ) := by
    rw [bytes, countShifts_two_pow _ (by omega)]
    omega
  have hexactShift : countShifts ((2 ^ (P.log - 6) : ℕ) : ℤ) (-1) = ((P.log - 7 : ℕ) : ℤ) := by
    rw [countShifts_two_pow _ (by omega)]
    omega
  have hne (n : ℕ) : ((n : ℕ) : ℤ) ≠ -1 := by omega
  simp only [geometry, readGeometry, getpagesize, getpagesizeShift, getSlabExactSize,
    getSlabExactShift, getSlabMaxSize, initSlab, Globals.initial, if_true, if_neg hbytes,
    hmax, hexact, hshift, hexactShift, if_neg (hne _), Int.toNat_natCast]
  rfl

end PageSize

end HCore.Base
