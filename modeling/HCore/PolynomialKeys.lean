import Mathlib.Algebra.Ring.Units
import Mathlib.Data.Nat.Digits.Defs
import Mathlib.NumberTheory.Padics.PadicVal.Basic
import Mathlib.NumberTheory.Multiplicity
import Mathlib.Tactic.Ring

/-!
Keys of sequences as polynomials in a base, evaluated by Horner's rule. In a
ring where the base is a unit a key tells sequences apart that differ in one
place, and two different entries that change places leave the same key exactly
when the base has too small an order for their distance.
-/

namespace HCore.PolynomialKeys

/-- The polynomial with these coefficients, the highest one first. -/
def horner {R : Type*} [Semiring R] (b : R) (cs : List R) : R :=
  cs.foldl (fun k c => k * b + c) 0

theorem horner_concat {R : Type*} [Semiring R] (b c : R) (cs : List R) :
    horner b (cs ++ [c]) = horner b cs * b + c := by
  rw [horner, List.foldl_append]
  rfl

section

variable {R : Type*} [CommRing R] {b x y : R}

theorem foldl_horner (b k : R) (cs : List R) :
    cs.foldl (fun k c => k * b + c) k = k * b ^ cs.length + horner b cs := by
  unfold horner
  induction cs generalizing k with
  | nil => simp
  | cons c cs ih =>
    rw [List.foldl_cons, List.foldl_cons, ih, ih (0 * b + c), List.length_cons]
    ring

theorem horner_append (b : R) (cs ds : List R) :
    horner b (cs ++ ds) = horner b cs * b ^ ds.length + horner b ds := by
  rw [horner, List.foldl_append, foldl_horner]
  rfl

theorem horner_cons (b c : R) (cs : List R) :
    horner b (c :: cs) = c * b ^ cs.length + horner b cs := by
  rw [horner, List.foldl_cons, foldl_horner]
  ring

/-- The same offset on every entry adds the same to the keys of one length. -/
theorem horner_shift (b e : R) (cs : List R) :
    horner b (cs.map (· + e)) = horner b cs + horner b (List.replicate cs.length e) := by
  induction cs using List.reverseRecOn with
  | nil =>
    unfold horner
    simp
  | append_singleton cs c ih =>
    rw [List.map_append, List.map_singleton, horner_concat, horner_concat, ih,
      List.length_append, List.length_singleton, List.replicate_succ', horner_concat]
    ring

theorem horner_natCast (b : ℕ) (cs : List ℕ) :
    horner (b : R) (cs.map fun c : ℕ => (c : R)) = (horner b cs : ℕ) := by
  induction cs using List.reverseRecOn with
  | nil =>
    unfold horner
    simp
  | append_singleton cs c ih =>
    rw [List.map_append, List.map_singleton, horner_concat, horner_concat, ih, Nat.cast_add,
      Nat.cast_mul]

/-- What one entry adds to the key. -/
theorem horner_edit_sub (b x y : R) (cs ds : List R) :
    horner b (cs ++ x :: ds) - horner b (cs ++ y :: ds) = b ^ ds.length * (x - y) := by
  rw [horner_append, horner_append, horner_cons, horner_cons, List.length_cons, List.length_cons]
  ring

/-- Sequences that differ in one place have different keys. -/
theorem horner_edit_iff (hb : IsUnit b) {cs ds : List R} :
    horner b (cs ++ x :: ds) = horner b (cs ++ y :: ds) ↔ x = y := by
  rw [← sub_eq_zero, horner_edit_sub, (hb.pow _).mul_right_eq_zero, sub_eq_zero]

theorem horner_swap_sub (b x y : R) (cs ms ds : List R) :
    horner b (cs ++ x :: (ms ++ y :: ds)) - horner b (cs ++ y :: (ms ++ x :: ds)) =
      b ^ ds.length * ((b ^ (ms.length + 1) - 1) * (x - y)) := by
  rw [horner_append, horner_append, horner_cons, horner_cons, horner_append, horner_append,
    horner_cons, horner_cons]
  simp only [List.length_append, List.length_cons]
  ring

/-- Two entries that change places. -/
theorem horner_swap_iff (hb : IsUnit b) {cs ms ds : List R} :
    horner b (cs ++ x :: (ms ++ y :: ds)) = horner b (cs ++ y :: (ms ++ x :: ds)) ↔
      (b ^ (ms.length + 1) - 1) * (x - y) = 0 := by
  rw [← sub_eq_zero, horner_swap_sub, (hb.pow _).mul_right_eq_zero]

end

/-- The key in the natural numbers is read in the base. -/
theorem horner_eq_ofDigits (b : ℕ) (cs : List ℕ) : horner b cs = Nat.ofDigits b cs.reverse := by
  induction cs using List.reverseRecOn with
  | nil => rfl
  | append_singleton cs c ih =>
    rw [List.reverse_append, List.reverse_singleton, List.singleton_append, Nat.ofDigits_cons, ← ih,
      horner_concat, Nat.mul_comm, Nat.add_comm]

/-- Sequences of one length over the first digits of the base. -/
theorem horner_inj {b : ℕ} (hb : 1 < b) {cs ds : List ℕ} (hlen : cs.length = ds.length)
    (hcs : ∀ c ∈ cs, c < b) (hds : ∀ d ∈ ds, d < b) (h : horner b cs = horner b ds) : cs = ds := by
  rw [horner_eq_ofDigits, horner_eq_ofDigits] at h
  refine List.reverse_injective (Nat.ofDigits_inj_of_len_eq hb ?_ ?_ ?_ h)
  · rw [List.length_reverse, List.length_reverse, hlen]
  · exact fun c hc => hcs c (List.mem_reverse.mp hc)
  · exact fun d hd => hds d (List.mem_reverse.mp hd)

theorem horner_lt {b : ℕ} (hb : 1 < b) {cs : List ℕ} (hcs : ∀ c ∈ cs, c < b) :
    horner b cs < b ^ cs.length := by
  have hlen : cs.reverse.length = cs.length := List.length_reverse
  rw [horner_eq_ofDigits, ← hlen]
  exact Nat.ofDigits_lt_base_pow_length hb fun c hc => hcs c (List.mem_reverse.mp hc)

/-- How often two divides a number below a power of it. -/
theorem padicValNat_lt {d e : ℕ} (hd : d ≠ 0) (hlt : d < 2 ^ e) : padicValNat 2 d < e := by
  have hle : 2 ^ padicValNat 2 d ≤ d := Nat.le_of_dvd (Nat.pos_of_ne_zero hd) pow_padicValNat_dvd
  exact (Nat.pow_lt_pow_iff_right (by decide)).mp (hle.trans_lt hlt)

/-- The powers of a number one below a power of two come near to one only late. -/
theorem padicValNat_pow_sub_one {k n : ℕ} (hk : 2 ≤ k) (hn : n ≠ 0) :
    padicValNat 2 ((2 ^ k - 1) ^ n - 1) ≤ k + padicValNat 2 n := by
  obtain ⟨j, rfl⟩ := Nat.exists_eq_add_of_le hk
  have hpow : 2 ^ (2 + j) = 4 * 2 ^ j := Nat.pow_add 2 2 j
  have hpos : 0 < 2 ^ j := Nat.two_pow_pos j
  have hsum : 2 ^ (2 + j) - 1 + 1 = 2 ^ (2 + j) := by omega
  rcases Nat.even_or_odd n with heven | hodd
  · have hval := padicValNat.pow_two_sub_pow (x := 2 ^ (2 + j) - 1) (y := 1) (by omega) (by omega)
      (by omega) hn heven
    have hbelow : padicValNat 2 (2 ^ (2 + j) - 1 - 1) ≤ 1 := by
      by_contra hlt
      have hdvd : 2 ^ 2 ∣ 2 ^ (2 + j) - 1 - 1 :=
        (padicValNat_dvd_iff_le (by omega)).mpr (by omega)
      omega
    rw [one_pow, hsum, padicValNat.prime_pow] at hval
    omega
  · have hdvd : 2 ^ (2 + j) - 1 + 1 ∣ (2 ^ (2 + j) - 1) ^ n + 1 ^ n :=
      hodd.nat_add_dvd_pow_add_pow _ _
    rw [hsum, one_pow, hpow] at hdvd
    have hfour : 4 ∣ (4 * 2 ^ j - 1) ^ n + 1 := (Nat.dvd_mul_right 4 _).trans hdvd
    rw [hpow]
    by_contra hlt
    have hlarge : 2 ^ 2 ∣ (4 * 2 ^ j - 1) ^ n - 1 := by
      by_cases hzero : (4 * 2 ^ j - 1) ^ n - 1 = 0
      · rw [hzero]
        exact Nat.dvd_zero _
      · exact (padicValNat_dvd_iff_le hzero).mpr (by omega)
    have hone : 0 < (4 * 2 ^ j - 1) ^ n := Nat.pow_pos (by omega)
    omega

/-- So two entries that change places are found out unless they are far apart. -/
theorem not_dvd_swap {k n d e f w : ℕ} (hk : 2 ≤ k) (hn : n ≠ 0) (hlt : n < 2 ^ f) (hd : d ≠ 0)
    (hde : d < 2 ^ e) (hw : k + f + e < w + 2) : ¬ 2 ^ w ∣ ((2 ^ k - 1) ^ n - 1) * d := by
  have hfour : 2 ^ 2 ≤ 2 ^ k := Nat.pow_le_pow_right (by decide) hk
  have hbig : 2 ≤ (2 ^ k - 1) ^ n :=
    (show 2 ≤ 2 ^ k - 1 by omega).trans (Nat.le_self_pow hn _)
  have hval := padicValNat_pow_sub_one hk hn
  have hvaln := padicValNat_lt hn hlt
  have hvald := padicValNat_lt hd hde
  have hne : (2 ^ k - 1) ^ n - 1 ≠ 0 := by omega
  rw [padicValNat_dvd_iff_le (Nat.mul_ne_zero hne hd), padicValNat.mul hne hd]
  omega

end HCore.PolynomialKeys
