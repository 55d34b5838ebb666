import HCore.HashTable
import Mathlib.Data.Nat.Find

/-!
The size of the block of a hash table. The total is returned in 32 bits, while
the elements are found in 64 bits, so the two agree only below 2^32 bytes.
-/

namespace HCore.TableSize

open Machine HashTable

/-- `HCORE_HTB_GET_ELEM(tb, i)`, from the beginning of the table; the product
has 64 bits. -/
def getElemOffset (dataSize i : ℕ) : ℕ := 24 + i * (8 + dataSize) % 2 ^ 64

section

variable {α : Type}

/-- The header and every element lie in the block. -/
def InsideBlock (tb : Table α) : Prop :=
  24 ≤ tb.bytes ∧ ∀ i < tb.size, getElemOffset tb.dataSize i + (8 + tb.dataSize) ≤ tb.bytes

theorem htbGetSizeTotal_of_lt {size dataSize : ℕ} (h : 24 + size * (8 + dataSize) < 2 ^ 32) :
    htbGetSizeTotal size dataSize = 24 + size * (8 + dataSize) := Nat.mod_eq_of_lt h

theorem getElemOffset_of_lt {dataSize i : ℕ} (h : 24 + i * (8 + dataSize) < 2 ^ 32) :
    getElemOffset dataSize i = 24 + i * (8 + dataSize) := by
  rw [getElemOffset, Nat.mod_eq_of_lt (by omega)]

/-- Where the elements reach up to 2^32, the first one to do so lies outside of
every block that has a size in 32 bits. -/
theorem exists_elem_outside {size dataSize bytes : ℕ} (hbytes : bytes < 2 ^ 32)
    (h : 2 ^ 32 ≤ 24 + size * (8 + dataSize)) :
    ∃ i < size, bytes < getElemOffset dataSize i + (8 + dataSize) := by
  have hex : ∃ k, 2 ^ 32 ≤ 24 + k * (8 + dataSize) := ⟨size, h⟩
  obtain ⟨k, hk, hfirst⟩ : ∃ k, 2 ^ 32 ≤ 24 + k * (8 + dataSize) ∧
      ∀ j < k, ¬ 2 ^ 32 ≤ 24 + j * (8 + dataSize) :=
    ⟨Nat.find hex, Nat.find_spec hex, fun j hj => Nat.find_min hex hj⟩
  have hle : k ≤ size := not_lt.mp (fun hlt => hfirst size hlt h)
  cases k with
  | zero => omega
  | succ i =>
    have hbelow := hfirst i (Nat.lt_succ_self i)
    refine ⟨i, hle, ?_⟩
    rw [getElemOffset_of_lt (by omega)]
    rw [Nat.succ_mul] at hk
    omega

variable {malloc : ℕ → Option (Block α)} {old block : Block α} {size dataSize : ℕ}
  {limit : Option Limit} {tb : Table α}

/-- The initialization of a table that gets a block of the total size. -/
theorem htbInit_common (hsize : size ≠ 0) (hdata : dataSize ≠ 0)
    (hmalloc : malloc (htbGetSizeTotal size dataSize) = some block) :
    htbInit malloc (some old) size dataSize .common limit =
      (setUp block size dataSize .common limit >>= fun tb => pure (Err.success, some tb)) := by
  unfold htbInit
  dsimp only
  rw [if_neg (by omega), hmalloc]

theorem setUp_eq_ok {type : TableType} (h : setUp block size dataSize type limit = Except.ok tb) :
    tb.size = size ∧ tb.dataSize = dataSize ∧ tb.bytes = block.bytes := by
  unfold setUp at h
  split at h
  · obtain rfl := Except.ok.inj h
    exact ⟨rfl, rfl, rfl⟩
  · cases h

end

/-- A table inside its block has less than 2^32 bytes. -/
theorem lt_of_insideBlock {α : Type} {malloc : ℕ → Option (Block α)} {old block : Block α}
    {limit : Option Limit} {size dataSize : ℕ} {tb : Table α} (hsize : size ≠ 0)
    (hdata : dataSize ≠ 0) (hblock : malloc (htbGetSizeTotal size dataSize) = some block)
    (hbytes : block.bytes = htbGetSizeTotal size dataSize)
    (hrun : htbInit malloc (some old) size dataSize .common limit = Except.ok (.success, some tb))
    (hinside : InsideBlock tb) : 24 + size * (8 + dataSize) < 2 ^ 32 := by
  rw [htbInit_common hsize hdata hblock] at hrun
  obtain ⟨tb', hset, hrun⟩ := bind_eq_ok.mp hrun
  obtain rfl := Option.some.inj (Prod.mk.inj (Except.ok.inj hrun)).2
  obtain ⟨hsize', hdata', hbytes'⟩ := setUp_eq_ok hset
  by_contra hlarge
  have htotal : tb'.bytes < 2 ^ 32 := by
    rw [hbytes', hbytes]
    exact Nat.mod_lt _ (by decide)
  obtain ⟨i, hi, hout⟩ := exists_elem_outside htotal (not_lt.mp hlarge)
  have hin := hinside.2 i (by rwa [hsize'])
  rw [hdata'] at hin
  omega

/-- **The block of a table contains it** exactly if the table has less than 2^32 bytes. -/
theorem size_total_iff {α : Type} (malloc : ℕ → Option (Block α))
    (hmalloc : ∀ n, ∃ block, malloc n = some block ∧ block.bytes = n) (old : Block α)
    (limit : Option Limit) (size dataSize : UInt32) (hsize : 1 ≤ size.toNat)
    (hdata : 1 ≤ dataSize.toNat) :
    (∃ tb, htbInit malloc (some old) size.toNat dataSize.toNat .common limit =
        Except.ok (.success, some tb) ∧ InsideBlock tb) ↔
      24 + size.toNat * (8 + dataSize.toNat) < 2 ^ 32 := by
  obtain ⟨block, hblock, hbytes⟩ := hmalloc (htbGetSizeTotal size.toNat dataSize.toNat)
  constructor
  · rintro ⟨tb, hrun, hinside⟩
    exact lt_of_insideBlock (by omega) (by omega) hblock hbytes hrun hinside
  · intro hlt
    rw [htbInit_common (by omega) (by omega) hblock]
    have hend {i : ℕ} (hi : i < size.toNat) :
        24 + i * (8 + dataSize.toNat) + (8 + dataSize.toNat) ≤ block.bytes := by
      have hle := Nat.mul_le_mul_right (8 + dataSize.toNat) (Nat.succ_le_of_lt hi)
      rw [Nat.succ_mul] at hle
      rw [hbytes, htbGetSizeTotal_of_lt hlt]
      omega
    have hlast := hend (show size.toNat - 1 < size.toNat by omega)
    have hset : ∃ tb, setUp block size.toNat dataSize.toNat .common limit = Except.ok tb :=
      ⟨_, if_pos (by unfold elemOffset; omega)⟩
    obtain ⟨tb, hset⟩ := hset
    obtain ⟨hsize', hdata', hbytes'⟩ := setUp_eq_ok hset
    refine ⟨tb, by rw [hset, ok_bind, pure_eq_ok], ?_, fun i hi => ?_⟩
    · rw [hbytes']
      omega
    · rw [hsize'] at hi
      have hin := hend hi
      rw [hbytes, htbGetSizeTotal_of_lt hlt] at hin
      rw [hbytes', hdata', hbytes, htbGetSizeTotal_of_lt hlt, getElemOffset_of_lt (by omega)]
      exact hin

/-- A block as `malloc` gives it. -/
def freshBlock (n : ℕ) : Block ℕ := ⟨n, fun _ => ⟨.delete, 0, 0⟩⟩

theorem size_total_iff_small :
    (∃ tb, htbInit (fun n => some (freshBlock n)) (some (freshBlock 0)) (4 : UInt32).toNat
        (8 : UInt32).toNat .common none = Except.ok (.success, some tb) ∧ InsideBlock tb) ↔
      24 + (4 : UInt32).toNat * (8 + (8 : UInt32).toNat) < 2 ^ 32 :=
  size_total_iff (fun n => some (freshBlock n)) (fun n => ⟨freshBlock n, rfl, rfl⟩) (freshBlock 0)
    none 4 8 (by decide) (by decide)

/-- With 65536 elements of 65528 bytes the block is as large as the header. -/
theorem total_wraps :
    ¬ ∀ size dataSize : UInt32, 1 ≤ size.toNat → 1 ≤ dataSize.toNat →
      ∃ tb, htbInit (fun n => some (freshBlock n)) (some (freshBlock 0)) size.toNat
        dataSize.toNat .common none = Except.ok (.success, some tb) ∧ InsideBlock tb := by
  intro h
  obtain ⟨tb, hrun, hinside⟩ := h 65536 65528 (by decide) (by decide)
  have hlt := lt_of_insideBlock (by decide) (by decide) rfl rfl hrun hinside
  exact absurd hlt (by decide)

end HCore.TableSize
