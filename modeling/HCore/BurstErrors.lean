import HCore.ReflectedCrc
import Mathlib.Data.List.GetD

/-!
Errors that a cyclic redundancy check finds. A check whose polynomial has its
highest bit is injective in the remainder, and as many bits of the text as the
remainder has are added to it as they stand. So two texts that differ in no more
than these bits have different checks.
-/

namespace HCore.BurstErrors

open ReflectedCrc

variable {w : ℕ}

/-- Bits as the lowest ones of a remainder. -/
def ofBits (w : ℕ) : List Bool → BitVec w
  | [] => 0#w
  | b :: bits => (BitVec.ofBool b).setWidth w ^^^ ofBits w bits <<< 1

/-- One bit of the text. -/
def bitIn (poly crc : BitVec w) (b : Bool) : BitVec w :=
  bitStep poly (crc ^^^ (BitVec.ofBool b).setWidth w)

/-- The remainder after bits. -/
def feed (poly crc : BitVec w) (bits : List Bool) : BitVec w := bits.foldl (bitIn poly) crc

/-- The bits of a byte, the lowest first. -/
def byteBits (c : UInt8) : List Bool := (List.range 8).map c.toBitVec.getLsbD

def textBits (text : List UInt8) : List Bool := text.flatMap byteBits

section

variable {poly x y crc : BitVec w} {bits bits' : List Bool} {n : ℕ}

theorem ofBits_getLsbD (bits : List Bool) {i : ℕ} (hi : i < w) :
    (ofBits w bits).getLsbD i = bits.getD i false := by
  induction bits generalizing i with
  | nil => simp [ofBits]
  | cons b bits ih =>
    rw [ofBits, BitVec.getLsbD_xor, BitVec.getLsbD_setWidth, BitVec.getLsbD_shiftLeft]
    cases i with
    | zero => simp [hi]
    | succ i =>
      rw [Nat.succ_sub_one, ih (by omega), List.getD_cons_succ]
      simp [hi]

/-- Bits that fit are determined by the remainder they make. -/
theorem ofBits_injective (hlength : bits.length = bits'.length) (hle : bits.length ≤ w)
    (h : ofBits w bits = ofBits w bits') : bits = bits' := by
  refine List.ext_getElem hlength (fun i hi hi' => ?_)
  have hbit := congrArg (BitVec.getLsbD · i) h
  rw [ofBits_getLsbD bits (by omega), ofBits_getLsbD bits' (by omega)] at hbit
  rwa [List.getD_eq_getElem _ _ hi, List.getD_eq_getElem _ _ hi'] at hbit

theorem ofBits_append (bits bits' : List Bool) :
    ofBits w (bits ++ bits') = ofBits w bits ^^^ ofBits w bits' <<< bits.length := by
  induction bits with
  | nil => rw [List.nil_append, ofBits, BitVec.zero_xor, List.length_nil, BitVec.shiftLeft_zero]
  | cons b bits ih =>
    rw [List.cons_append, ofBits, ih, ofBits, BitVec.shiftLeft_xor_distrib, ← BitVec.shiftLeft_add,
      BitVec.xor_assoc, List.length_cons]

/-- A remainder with room at the top comes back from its place. -/
theorem ofBits_shift (hle : bits.length < w) : (ofBits w bits <<< 1) >>> 1 = ofBits w bits := by
  refine BitVec.eq_of_getLsbD_eq (fun i hi => ?_)
  rw [BitVec.getLsbD_ushiftRight, BitVec.getLsbD_shiftLeft, Nat.add_sub_cancel_left]
  by_cases htop : 1 + i < w
  · simp [htop]
  · rw [ofBits_getLsbD bits hi, List.getD_eq_default _ _ (by omega)]
    simp [htop]

theorem feed_append (poly crc : BitVec w) (bits bits' : List Bool) :
    feed poly crc (bits ++ bits') = feed poly (feed poly crc bits) bits' := List.foldl_append

/-- Bits that fit are added at once. -/
theorem feed_eq (poly crc : BitVec w) (hle : bits.length ≤ w) :
    feed poly crc bits = bitSteps poly bits.length (crc ^^^ ofBits w bits) := by
  induction bits generalizing crc with
  | nil => exact (BitVec.xor_zero ..).symm
  | cons b bits ih =>
    have hstep := bitSteps_shiftLeft poly (crc ^^^ (BitVec.ofBool b).setWidth w) (ofBits w bits) 1
    rw [ofBits_shift hle] at hstep
    calc
      _ = feed poly (bitIn poly crc b) bits := rfl
      _ = bitSteps poly bits.length (bitIn poly crc b ^^^ ofBits w bits) :=
        ih _ (Nat.le_of_succ_le hle)
      _ = bitSteps poly bits.length
          (bitSteps poly 1 (crc ^^^ (BitVec.ofBool b).setWidth w ^^^ ofBits w bits <<< 1)) :=
        congrArg _ hstep.symm
      _ = bitSteps poly (bits.length + 1) (crc ^^^ ofBits w (b :: bits)) := by
        rw [← bitSteps_add, ofBits, BitVec.xor_assoc]

/-- A bit that falls off leaves the highest bit of the polynomial behind. -/
theorem bitStep_eq_zero (hpoly : poly.msb = true) (h : bitStep poly x = 0#w) : x = 0#w := by
  unfold bitStep at h
  refine BitVec.eq_of_getLsbD_eq (fun i hi => ?_)
  rw [BitVec.getLsbD_zero]
  split at h
  · have htop := congrArg BitVec.msb h
    rw [BitVec.msb_xor, hpoly, BitVec.msb_ushiftRight] at htop
    simp at htop
  · cases i with
    | zero => simpa using ‹¬ x.getLsbD 0 = true›
    | succ i =>
      have hbit := congrArg (BitVec.getLsbD · i) h
      rwa [BitVec.getLsbD_ushiftRight, BitVec.getLsbD_zero, Nat.add_comm] at hbit

theorem bitStep_injective (hpoly : poly.msb = true) : Function.Injective (bitStep poly) := by
  intro x y h
  have hzero : bitStep poly (x ^^^ y) = 0#w := by rw [bitStep_xor, h, BitVec.xor_self]
  exact BitVec.xor_eq_zero_iff.mp (bitStep_eq_zero hpoly hzero)

theorem bitSteps_injective (hpoly : poly.msb = true) (n : ℕ) :
    Function.Injective (bitSteps poly n) := (bitStep_injective hpoly).iterate n

/-- Bits keep different remainders apart. -/
theorem feed_injective (hpoly : poly.msb = true) (bits : List Bool) :
    Function.Injective fun crc => feed poly crc bits := by
  induction bits with
  | nil => exact Function.injective_id
  | cons b bits ih =>
    intro crc crc' h
    exact (BitVec.xor_left_inj _).mp (bitStep_injective hpoly (ih h))

/-- **A burst of errors** that is no longer than the remainder is found, wherever it is. -/
theorem burst_detected (hpoly : poly.msb = true) (crc : BitVec w) (pre post : List Bool)
    {burst burst' : List Bool} (hlength : burst.length = burst'.length) (hle : burst.length ≤ w)
    (hne : burst ≠ burst') :
    feed poly crc (pre ++ burst ++ post) ≠ feed poly crc (pre ++ burst' ++ post) := by
  intro h
  rw [feed_append, feed_append, feed_append poly crc, feed_append poly crc] at h
  have hburst := feed_injective hpoly post h
  have hle' : burst'.length ≤ w := hlength ▸ hle
  rw [feed_eq _ _ hle, feed_eq _ _ hle', hlength] at hburst
  have hbits := (BitVec.xor_right_inj _).mp (bitSteps_injective hpoly _ hburst)
  exact hne (ofBits_injective hlength hle hbits)

end

section

theorem byteBits_length (c : UInt8) : (byteBits c).length = 8 := rfl

theorem textBits_length (text : List UInt8) : (textBits text).length = 8 * text.length := by
  induction text with
  | nil => rfl
  | cons c text ih =>
    rw [textBits, List.flatMap_cons, List.length_append, byteBits_length, List.length_cons]
    change 8 + (textBits text).length = _
    rw [ih]
    ring

theorem ofBits_byteBits (c : UInt8) : ofBits w (byteBits c) = c.toBitVec.setWidth w := by
  refine BitVec.eq_of_getLsbD_eq (fun i hi => ?_)
  rw [ofBits_getLsbD _ hi, BitVec.getLsbD_setWidth, byteBits]
  by_cases hbyte : i < 8
  · rw [List.getD_eq_getElem _ _ (by simpa using hbyte)]
    simp [hi]
  · rw [List.getD_eq_default _ _ (by simpa using hbyte), BitVec.getLsbD_of_ge _ _ (by omega)]
    simp

theorem byteStep_eq_feed (hw : 8 ≤ w) (poly crc : BitVec w) (c : UInt8) :
    byteStep poly crc c = feed poly crc (byteBits c) := by
  rw [feed_eq poly crc (byteBits_length c ▸ hw), ofBits_byteBits]
  rfl

/-- The check of a text is the one of its bits. -/
theorem foldl_byteStep (hw : 8 ≤ w) (poly crc : BitVec w) (text : List UInt8) :
    text.foldl (byteStep poly) crc = feed poly crc (textBits text) := by
  induction text generalizing crc with
  | nil => rfl
  | cons c text ih =>
    have hbits : textBits (c :: text) = byteBits c ++ textBits text := List.flatMap_cons
    rw [List.foldl_cons, ih, byteStep_eq_feed hw, hbits, feed_append]

end

end HCore.BurstErrors
