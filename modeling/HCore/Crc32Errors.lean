import HCore.BurstErrors
import HCore.Crc32
import HCore.LittleEndian

/-!
What the checks find. The polynomial of CRC-32 has its highest bit, so every
burst of at most 32 bits is found by each of the three forms. Four bytes behind
a text lead to the residue of CRC-32 only if they are its check.
-/

namespace HCore.Crc32Errors

open ReflectedCrc BurstErrors Crc32 LittleEndian

/-- The check of a text with its own check behind it. -/
def residue : BitVec 32 := 0x2144DF1C#32

theorem crc32Poly_msb : crc32Poly.msb = true := rfl

section

variable {text text' tail : List UInt8}

theorem crc32Update_eq (crc : BitVec 32) (text : List UInt8) :
    crc32Update crc text = feed crc32Poly crc (textBits text) := by
  rw [crc32Update, longRound_eq_byteStep, foldl_byteStep (by decide)]

/-- A burst of at most 32 bits changes the remainder. -/
theorem crc32Update_burst {pre burst burst' post : List Bool} (crc : BitVec 32)
    (htext : textBits text = pre ++ burst ++ post) (htext' : textBits text' = pre ++ burst' ++ post)
    (hlength : burst.length = burst'.length) (hle : burst.length ≤ 32) (hne : burst ≠ burst') :
    crc32Update crc text ≠ crc32Update crc text' := by
  rw [crc32Update_eq, crc32Update_eq, htext, htext']
  exact burst_detected crc32Poly_msb crc pre post hlength hle hne

/-- **Bursts are found**: of two texts that differ in no more than 32 bits in a row,
from the first to the last, the checks differ in all three forms, however the
texts are cut. -/
theorem crc32_burst_detected (chunks chunks' : List (List UInt8))
    (hchunks : chunks.flatten = text) (hchunks' : chunks'.flatten = text')
    {pre burst burst' post : List Bool}
    (htext : textBits text = pre ++ burst ++ post) (htext' : textBits text' = pre ++ burst' ++ post)
    (hlength : burst.length = burst'.length) (hle : burst.length ≤ 32) (hne : burst ≠ burst') :
    crc32Short text ≠ crc32Short text' ∧ crc32Long text ≠ crc32Long text' ∧
      crc32Final (chunks.foldl crc32Update crc32Init) ≠
        crc32Final (chunks'.foldl crc32Update crc32Init) := by
  have hupdate := crc32Update_burst 0xffffffff#32 htext htext' hlength hle hne
  have hlong : crc32Long text ≠ crc32Long text' :=
    fun h => hupdate ((BitVec.xor_left_inj _).mp h)
  have hshort (text : List UInt8) : crc32Short text = crc32Long text := by
    rw [crc32Short, crc32Long, shortRound_eq_byteStep, longRound_eq_byteStep]
  refine ⟨?_, hlong, ?_⟩
  · rwa [hshort, hshort]
  · rwa [crc32Update_flatten, crc32Update_flatten, hchunks, hchunks']

/-- Two letters of a text exchanged, in the bits that they have. -/
theorem crc32_burst_detected_swap :
    crc32Short [97, 98, 99] ≠ crc32Short [97, 99, 98] ∧
      crc32Long [97, 98, 99] ≠ crc32Long [97, 99, 98] ∧
      crc32Final ([[97], [98, 99]].foldl crc32Update crc32Init) ≠
        crc32Final ([[97, 99], [98]].foldl crc32Update crc32Init) :=
  crc32_burst_detected [[97], [98, 99]] [[97, 99], [98]] rfl rfl
    (show textBits [97, 98, 99] = textBits [97] ++ textBits [98, 99] ++ [] by decide)
    (show textBits [97, 99, 98] = textBits [97] ++ textBits [99, 98] ++ [] by decide)
    (by decide) (by decide) (by decide)

/-- A byte of a number goes below the bytes behind it. -/
theorem ofBits_cons (v : BitVec 32) (k : ℕ) (h : ofBits 32 (textBits text) = v >>> (k + 8)) :
    ofBits 32 (textBits (UInt8.ofNat (v.toNat / 2 ^ k) :: text)) = v >>> k := by
  have hbits : textBits (UInt8.ofNat (v.toNat / 2 ^ k) :: text) =
      byteBits (UInt8.ofNat (v.toNat / 2 ^ k)) ++ textBits text := List.flatMap_cons
  have hlow : (UInt8.ofNat (v.toNat / 2 ^ k)).toBitVec.setWidth 32 =
      BitVec.ofNat 32 ((v >>> k).toNat % 2 ^ 8) := by
    apply BitVec.eq_of_toNat_eq
    rw [BitVec.toNat_setWidth, UInt8.toNat_toBitVec, UInt8.toNat_ofNat', BitVec.toNat_ofNat,
      BitVec.toNat_ushiftRight, Nat.shiftRight_eq_div_pow]
  rw [hbits, ofBits_append, ofBits_byteBits, hlow, h, byteBits_length, BitVec.shiftRight_add]
  exact low_xor_high (v >>> k) 8

/-- Four bytes are the bits of their remainder. -/
theorem ofBits_encode32 (v : BitVec 32) : ofBits 32 (textBits (encode32 v.toNat)) = v := by
  have hnone : ofBits 32 (textBits []) = v >>> (24 + 8) := by
    apply BitVec.eq_of_toNat_eq
    have hlt := v.isLt
    rw [BitVec.toNat_ushiftRight, Nat.shiftRight_eq_div_pow, Nat.div_eq_of_lt hlt]
    rfl
  have hall := ofBits_cons v 0 (ofBits_cons v 8 (ofBits_cons v 16 (ofBits_cons v 24 hnone)))
  rwa [pow_zero, Nat.div_one, BitVec.ushiftRight_zero] at hall

theorem exists_encode32 (htail : tail.length = 4) : ∃ v : BitVec 32, tail = encode32 v.toNat := by
  refine ⟨BitVec.ofNat 32 (decode32 tail), ?_⟩
  rw [BitVec.toNat_ofNat, Nat.mod_eq_of_lt (decode32_lt tail), encode32_decode32 htail]

theorem encode32_inj (u v : BitVec 32) : encode32 u.toNat = encode32 v.toNat ↔ u = v := by
  constructor
  · intro h
    have hnat := congrArg decode32 h
    rw [decode32_of_lt u.isLt, decode32_of_lt v.isLt] at hnat
    exact BitVec.eq_of_toNat_eq hnat
  · exact fun h => h ▸ rfl

/-- **The residue**: four bytes behind a text are its check, the lowest byte first,
exactly if the check of both is the residue. -/
theorem crc32_residue_iff (text tail : List UInt8) (htail : tail.length = 4) :
    crc32Final (crc32Update (crc32Update crc32Init text) tail) = residue ↔
      tail = encode32 (crc32Final (crc32Update crc32Init text)).toNat := by
  obtain ⟨v, rfl⟩ := exists_encode32 htail
  have hbits : (textBits (encode32 v.toNat)).length = 32 := by rw [textBits_length, htail]
  have hconst : residue = crc32Final (bitSteps crc32Poly 32 0xffffffff#32) := by decide +kernel
  obtain ⟨crc, hcrc⟩ : ∃ crc, crc = crc32Update crc32Init text := ⟨_, rfl⟩
  rw [← hcrc, crc32Update_eq, feed_eq _ _ hbits.le, hbits, hconst, crc32Final, crc32Final,
    BitVec.xor_left_inj, (bitSteps_injective crc32Poly_msb 32).eq_iff, ofBits_encode32,
    encode32_inj]
  constructor
  · intro h
    rw [crc32Final, ← h, ← BitVec.xor_assoc, BitVec.xor_self, BitVec.zero_xor]
  · intro h
    rw [h, crc32Final, ← BitVec.xor_assoc, BitVec.xor_self, BitVec.zero_xor]

theorem crc32_residue_iff_digits :
    crc32Final (crc32Update (crc32Update crc32Init [49, 50, 51]) [0xd2, 0x63, 0x48, 0x88]) =
        residue ↔
      [0xd2, 0x63, 0x48, 0x88] =
        encode32 (crc32Final (crc32Update crc32Init [49, 50, 51])).toNat :=
  crc32_residue_iff _ _ rfl

end

end HCore.Crc32Errors
