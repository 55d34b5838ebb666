import Mathlib.Logic.Function.Iterate
import Mathlib.Tactic.Ring

/-!
Reflected cyclic redundancy checks of any width. The remainder moves down bit by
bit, and the polynomial is added where a bit falls off. A bit step is linear in
exclusive or, so the steps for the low bits of a remainder and those for the
rest are taken apart, and a table of the former replaces them.
-/

namespace HCore.ReflectedCrc

variable {w : ℕ}

/-- One bit of the remainder. -/
def bitStep (poly crc : BitVec w) : BitVec w :=
  if crc.getLsbD 0 then (crc >>> 1) ^^^ poly else crc >>> 1

def bitSteps (poly : BitVec w) (n : ℕ) (crc : BitVec w) : BitVec w := (bitStep poly)^[n] crc

/-- One byte of the text, its lowest bit first. -/
def byteStep (poly crc : BitVec w) (c : UInt8) : BitVec w :=
  bitSteps poly 8 (crc ^^^ c.toBitVec.setWidth w)

/-- The check of a text, bit by bit. -/
def checksum (poly init final : BitVec w) (text : List UInt8) : BitVec w :=
  text.foldl (byteStep poly) init ^^^ final

/-- The table has the steps for `n` low bits. -/
def IsTable (poly : BitVec w) (n : ℕ) (table : List (BitVec w)) : Prop :=
  ∀ i < 2 ^ n, table.getD i 0 = bitSteps poly n (BitVec.ofNat w i)

section

variable {poly x y : BitVec w} {n : ℕ} {table : List (BitVec w)}

theorem bitStep_xor (poly x y : BitVec w) :
    bitStep poly (x ^^^ y) = bitStep poly x ^^^ bitStep poly y := by
  unfold bitStep
  rw [BitVec.getLsbD_xor, BitVec.ushiftRight_xor_distrib]
  cases x.getLsbD 0 with
  | false =>
    cases y.getLsbD 0 with
    | false => rfl
    | true => exact BitVec.xor_assoc ..
  | true =>
    cases y.getLsbD 0 with
    | false =>
      change (x >>> 1) ^^^ (y >>> 1) ^^^ poly = (x >>> 1) ^^^ poly ^^^ (y >>> 1)
      rw [BitVec.xor_assoc, BitVec.xor_comm (y >>> 1), BitVec.xor_assoc]
    | true =>
      change (x >>> 1) ^^^ (y >>> 1) = (x >>> 1) ^^^ poly ^^^ ((y >>> 1) ^^^ poly)
      rw [BitVec.xor_comm (y >>> 1) poly, BitVec.xor_assoc, ← BitVec.xor_assoc poly poly,
        BitVec.xor_self, BitVec.zero_xor]

theorem bitSteps_xor (poly : BitVec w) (n : ℕ) (x y : BitVec w) :
    bitSteps poly n (x ^^^ y) = bitSteps poly n x ^^^ bitSteps poly n y := by
  induction n generalizing x y with
  | zero => rfl
  | succ n ih => exact (congrArg _ (bitStep_xor poly x y)).trans (ih _ _)

theorem bitSteps_add (poly : BitVec w) (m n : ℕ) (x : BitVec w) :
    bitSteps poly (m + n) x = bitSteps poly m (bitSteps poly n x) :=
  Function.iterate_add_apply ..

/-- A remainder whose low bits are clear only moves down. -/
theorem bitSteps_clear (hclear : ∀ i < n, x.getLsbD i = false) :
    bitSteps poly n x = x >>> n := by
  induction n generalizing x with
  | zero => rfl
  | succ n ih =>
    have hstep : bitStep poly x = x >>> 1 := by
      rw [bitStep, hclear 0 n.succ_pos]
      rfl
    have hshift : ∀ i < n, (x >>> 1).getLsbD i = false := by
      intro i hi
      rw [BitVec.getLsbD_ushiftRight]
      exact hclear (1 + i) (by omega)
    calc
      _ = bitSteps poly n (x >>> 1) := congrArg (bitSteps poly n) hstep
      _ = (x >>> 1) >>> n := ih hshift
      _ = x >>> (n + 1) := by rw [← BitVec.shiftRight_add, Nat.add_comm]

/-- What stands above the low bits waits for its turn. -/
theorem bitSteps_shiftLeft (poly x y : BitVec w) (n : ℕ) :
    bitSteps poly n (x ^^^ y <<< n) = bitSteps poly n x ^^^ (y <<< n) >>> n := by
  rw [bitSteps_xor, bitSteps_clear (x := y <<< n)]
  intro i hi
  rw [BitVec.getLsbD_shiftLeft]
  simp [hi]

/-- A remainder by its low bits and the rest. -/
theorem low_xor_high (x : BitVec w) (n : ℕ) :
    BitVec.ofNat w (x.toNat % 2 ^ n) ^^^ (x >>> n) <<< n = x := by
  refine BitVec.eq_of_getLsbD_eq (fun i hi => ?_)
  rw [BitVec.getLsbD_xor, BitVec.getLsbD_shiftLeft, BitVec.getLsbD_ushiftRight,
    BitVec.getLsbD_ofNat, Nat.testBit_mod_two_pow, BitVec.testBit_toNat]
  by_cases hlow : i < n
  · simp [hlow, hi]
  · rw [Nat.add_sub_cancel' (by omega)]
    simp [hlow, hi]

theorem shiftRight_left_right (x : BitVec w) (n : ℕ) : ((x >>> n) <<< n) >>> n = x >>> n := by
  refine BitVec.eq_of_getLsbD_eq (fun i hi => ?_)
  simp only [BitVec.getLsbD_ushiftRight, BitVec.getLsbD_shiftLeft, Nat.add_sub_cancel_left]
  by_cases hlt : n + i < w
  · simp [hlt]
  · rw [BitVec.getLsbD_of_ge x (n + i) (by omega)]
    simp

theorem bitSteps_split (poly x : BitVec w) (n : ℕ) :
    bitSteps poly n x = bitSteps poly n (BitVec.ofNat w (x.toNat % 2 ^ n)) ^^^ x >>> n := by
  calc
    _ = bitSteps poly n (BitVec.ofNat w (x.toNat % 2 ^ n) ^^^ (x >>> n) <<< n) := by
      rw [low_xor_high]
    _ = _ := by rw [bitSteps_shiftLeft, shiftRight_left_right]

/-- A step by the table is as many bit steps as it has index bits; what is
added to the remainder before has no more bits than that. -/
theorem IsTable.step (h : IsTable poly n table) (x : BitVec w) (hy : y >>> n = 0#w) :
    table.getD ((x ^^^ y).toNat % 2 ^ n) 0 ^^^ x >>> n = bitSteps poly n (x ^^^ y) := by
  rw [bitSteps_split poly (x ^^^ y), h _ (Nat.mod_lt _ (Nat.two_pow_pos n)),
    BitVec.ushiftRight_xor_distrib, hy, BitVec.xor_zero]

end

end HCore.ReflectedCrc
