import HCore.SlabClasses

/-!
The searches of the maps. A search for a clear bit either finds every bit set
or returns the first one that is clear; the map of a page of small chunks is
searched word by word, and a page is taken for full when all its words are.
-/

namespace HCore.SlabMaps

open Words Machine SlabPool SlabAlloc SlabClasses

/-- Every bit of a 64-bit map is set. -/
def FullWord (w : ℕ) : Prop := ∀ b < 64, w.testBit b = true

theorem fullWord_busy : FullWord slabBusy := fun _ hb => testBit_busy hb

theorem and_two_pow_ne_zero (w b : ℕ) : w &&& 2 ^ b ≠ 0 ↔ w.testBit b = true := by
  rw [Nat.and_two_pow]
  cases w.testBit b <;> simp

theorem shift_bit (b : ℕ) : ((2 ^ b % 2 ^ 64) <<< 1) % 2 ^ 64 = 2 ^ (b + 1) % 2 ^ 64 := by
  rw [Nat.shiftLeft_eq, Nat.pow_one, Nat.mod_mul_mod, ← Nat.pow_succ]

/-- The search of a word from the bit `b` on. -/
theorem firstClear_cases (w b fuel : ℕ) (hfuel : b + fuel = 65) (hb : b ≤ 64) :
    (firstClear fuel w (2 ^ b % 2 ^ 64) b = none ∧ ∀ j, b ≤ j → j < 64 → w.testBit j = true) ∨
      ∃ j, b ≤ j ∧ j < 64 ∧ firstClear fuel w (2 ^ b % 2 ^ 64) b = some (2 ^ j, j) ∧
        w.testBit j = false := by
  induction fuel generalizing b with
  | zero => omega
  | succ fuel ih =>
    rw [firstClear]
    by_cases hlast : b = 64
    · rw [if_pos (by rw [hlast, Nat.mod_self])]
      exact Or.inl ⟨rfl, fun j hj hj' => by omega⟩
    · have hpow : 2 ^ b % 2 ^ 64 = 2 ^ b :=
        Nat.mod_eq_of_lt (Nat.pow_lt_pow_right (by omega) (by omega))
      have hpos : 2 ^ b ≠ 0 := (Nat.two_pow_pos b).ne'
      rw [shift_bit, hpow, if_neg hpos, if_congr (and_two_pow_ne_zero w b) rfl rfl]
      cases hbit : w.testBit b with
      | false => exact Or.inr ⟨b, le_refl _, by omega, if_neg (by simp), hbit⟩
      | true =>
        rw [if_pos rfl]
        rcases ih (b + 1) (by omega) (by omega) with ⟨hnone, hall⟩ | ⟨j, hj, hlt, hsome, hclear⟩
        · refine Or.inl ⟨hnone, fun j hj hj' => ?_⟩
          rcases Nat.eq_or_lt_of_le hj with rfl | hj
          · exact hbit
          · exact hall j hj hj'
        · exact Or.inr ⟨j, by omega, hlt, hsome, hclear⟩

/-- What the scan does with one word. -/
theorem wordSearch_cases (w : ℕ) :
    ((if w ≠ slabBusy then firstClear 65 w 1 0 else none) = none ∧ FullWord w) ∨
      ∃ b < 64, (if w ≠ slabBusy then firstClear 65 w 1 0 else none) = some (2 ^ b, b) ∧
        w.testBit b = false := by
  by_cases hbusy : w = slabBusy
  · rw [if_neg (not_not.mpr hbusy), hbusy]
    exact Or.inl ⟨rfl, fullWord_busy⟩
  · rw [if_pos hbusy]
    rcases firstClear_cases w 0 65 rfl (by omega) with ⟨hnone, hall⟩ | ⟨j, -, hlt, hsome, hclear⟩
    · exact Or.inl ⟨hnone, fun b hb => hall b (Nat.zero_le b) hb⟩
    · exact Or.inr ⟨j, hlt, hsome, hclear⟩

theorem allBusy_ok {s : Pool} (n bitmap i : ℕ) (hv : ∀ j < n, s.Valid (bitmap + 8 * (i + j))) :
    ∃ full, allBusy n bitmap i s = Except.ok full ∧
      (full = true → ∀ j < n, s.word (bitmap + 8 * (i + j)) = slabBusy) := by
  induction n generalizing i with
  | zero => exact ⟨true, rfl, fun _ j hj => absurd hj (Nat.not_lt_zero j)⟩
  | succ n ih =>
    have hnext (j : ℕ) : i + (j + 1) = i + 1 + j := by omega
    obtain ⟨full, hrun, hfull⟩ := ih (i + 1) (fun j hj => hnext j ▸ hv (j + 1) (by omega))
    have h0 : s.Valid (bitmap + 8 * i) := hv 0 (by omega)
    rw [allBusy, Pool.load_ok h0, ok_bind]
    by_cases hbusy : s.word (bitmap + 8 * i) = slabBusy
    · refine ⟨full, (if_neg (not_not.mpr hbusy)).trans hrun, fun hf j hj => ?_⟩
      cases j with
      | zero => exact hbusy
      | succ j =>
        rw [hnext]
        exact hfull hf j (by omega)
    · exact ⟨false, if_pos hbusy, fun hf => by cases hf⟩

/-- The mask of a page of `c` big chunks. -/
def bigMask (c : ℕ) : ℕ := (2 ^ c - 1) <<< slabMapShift

theorem testBit_bigMask (c b : ℕ) : (bigMask c).testBit (b + slabMapShift) = decide (b < c) := by
  rw [bigMask, Nat.testBit_shiftLeft, Nat.add_sub_cancel, Nat.testBit_two_pow_sub_one,
    decide_eq_true (Nat.le_add_left ..), Bool.true_and]

/-- The search of the upper half of a descriptor word from the bit `b` on. -/
theorem firstClearBig_cases (w c b fuel : ℕ) (hc : c ≤ 32) (hfuel : c < b + fuel) (hb : b ≤ c) :
    (firstClearBig fuel w (bigMask c) (2 ^ (b + slabMapShift) % 2 ^ 64) = none ∧
        ∀ j, b ≤ j → j < c → w.testBit (j + slabMapShift) = true) ∨
      ∃ j, b ≤ j ∧ j < c ∧
        firstClearBig fuel w (bigMask c) (2 ^ (b + slabMapShift) % 2 ^ 64) =
          some (2 ^ (j + slabMapShift)) ∧
        w.testBit (j + slabMapShift) = false := by
  have hshift : slabMapShift = 32 := rfl
  induction fuel generalizing b with
  | zero => omega
  | succ fuel ih =>
    rw [firstClearBig]
    by_cases hlast : b = c
    · have hzero : 2 ^ (b + slabMapShift) % 2 ^ 64 &&& bigMask c = 0 := by
        rcases Nat.lt_or_ge b 32 with hlt | hge
        · rw [Nat.mod_eq_of_lt (Nat.pow_lt_pow_right (by omega) (by omega)), Nat.and_comm]
          by_contra hne
          have hbit := (and_two_pow_ne_zero _ _).mp hne
          rw [testBit_bigMask, decide_eq_true_iff] at hbit
          omega
        · have h32 : b + slabMapShift = 64 := by omega
          rw [h32, Nat.mod_self, Nat.zero_and]
      rw [if_pos hzero]
      exact Or.inl ⟨rfl, fun j hj hj' => by omega⟩
    · have hpow : 2 ^ (b + slabMapShift) % 2 ^ 64 = 2 ^ (b + slabMapShift) :=
        Nat.mod_eq_of_lt (Nat.pow_lt_pow_right (by omega) (by omega))
      have hin : 2 ^ (b + slabMapShift) &&& bigMask c ≠ 0 := by
        rw [Nat.and_comm, and_two_pow_ne_zero, testBit_bigMask, decide_eq_true_iff]
        omega
      have hnext : b + slabMapShift + 1 = b + 1 + slabMapShift := by omega
      rw [shift_bit, hpow, if_neg hin, if_congr (and_two_pow_ne_zero w _) rfl rfl, hnext]
      cases hbit : w.testBit (b + slabMapShift) with
      | false => exact Or.inr ⟨b, le_refl _, by omega, if_neg (by simp), hbit⟩
      | true =>
        rw [if_pos rfl]
        rcases ih (b + 1) (by omega) (by omega) with ⟨hnone, hall⟩ | ⟨j, hj, hlt, hsome, hclear⟩
        · refine Or.inl ⟨hnone, fun j hj hj' => ?_⟩
          rcases Nat.eq_or_lt_of_le hj with rfl | hj
          · exact hbit
          · exact hall j hj hj'
        · exact Or.inr ⟨j, by omega, hlt, hsome, hclear⟩

/-- The comparison with the mask is one of the mask with a constant, so the
lowest bit of the word decides. -/
theorem dropsPage_iff (w c j : ℕ) (hc : c ≤ 32) :
    (w ||| 2 ^ (j + slabMapShift)) &&& (if slabMapMask = bigMask c then 1 else 0) ≠ 0 ↔
      c = 32 ∧ w % 2 = 1 := by
  have hmask : slabMapMask = bigMask c ↔ c = 32 := by
    constructor
    · intro h
      by_contra hne
      have hbit : slabMapMask.testBit (31 + slabMapShift) =
          (bigMask c).testBit (31 + slabMapShift) := by rw [← h]
      rw [testBit_bigMask, decide_eq_false (show ¬ 31 < c by omega)] at hbit
      exact absurd hbit (by decide)
    · rintro rfl
      rfl
  have hlow : (w ||| 2 ^ (j + slabMapShift)).testBit 0 = w.testBit 0 := by
    rw [Nat.testBit_or, Nat.testBit_two_pow, decide_eq_false (by unfold slabMapShift; omega),
      Bool.or_false]
  by_cases h32 : c = 32
  · have hbit := and_two_pow_ne_zero (w ||| 2 ^ (j + slabMapShift)) 0
    rw [if_pos (hmask.mpr h32), and_iff_right h32]
    rw [Nat.pow_zero, hlow, Nat.testBit_zero, decide_eq_true_iff] at hbit
    exact hbit
  · rw [if_neg (fun h => h32 (hmask.mp h)), Nat.and_zero]
    exact iff_of_false (by simp) (fun h => h32 h.1)

end HCore.SlabMaps
