import HCore.Machine
import HCore.PolynomialKeys
import Mathlib.Data.ZMod.Basic

/-!
Hash keys of byte strings. The key is a polynomial in 31 modulo `2 ^ 32`. It
changes with every single byte, and when two different bytes change places
that are not very far apart; short names over 31 letters have keys of their own.
-/

namespace HCore.HashKey

open Machine PolynomialKeys

/-- `hcore_hash` -/
def hash (key : ℕ) (c : UInt8) : ℕ := toUInt32 (key * 31 + c.toNat : ℕ)

/-- The loop of `hcore_hash_key`; the index has 32 bits. -/
def hashLoop (data : List UInt8) : (fuel i key : ℕ) → Exec ℕ
  | 0, _, _ => outOfFuel
  | fuel + 1, i, key =>
    if h : i < data.length then hashLoop data fuel (toUInt32 (i + 1 : ℕ)) (hash key data[i])
    else pure key

/-- `hcore_hash_key`, with a bound on the steps that no string in memory reaches. -/
def hashKey (data : List UInt8) : Exec ℕ := hashLoop data (2 ^ 64) 0 0

/-- The key as a polynomial. -/
def keyOf (data : List UInt8) : ZMod (2 ^ 32) :=
  horner 31 (data.map fun c => (c.toNat : ZMod (2 ^ 32)))

section

variable {data before mid after : List UInt8} {x y : UInt8} {key : ℕ}

theorem hash_lt (key : ℕ) (c : UInt8) : hash key c < 2 ^ 32 := by
  unfold hash toUInt32
  omega

theorem hash_cast (key : ℕ) (c : UInt8) :
    (hash key c : ZMod (2 ^ 32)) = key * 31 + (c.toNat : ZMod (2 ^ 32)) := by
  have hmod : hash key c = (key * 31 + c.toNat) % 2 ^ 32 := by
    unfold hash toUInt32
    omega
  rw [hmod, ZMod.natCast_mod, Nat.cast_add, Nat.cast_mul]
  rfl

/-- The loop from the place `i` on takes the bytes that are left. -/
theorem hashLoop_eq (hlen : data.length < 2 ^ 32) {fuel i : ℕ} (hi : i ≤ data.length)
    (hfuel : data.length - i < fuel) :
    hashLoop data fuel i key = Except.ok ((data.drop i).foldl hash key) := by
  induction fuel generalizing i key with
  | zero => exact absurd hfuel (Nat.not_lt_zero _)
  | succ fuel ih =>
    unfold hashLoop
    split
    · next hlt =>
      rw [toUInt32_of_lt (by omega), ih (by omega) (by omega), List.drop_eq_getElem_cons hlt,
        List.foldl_cons]
    · next hge =>
      rw [List.drop_of_length_le (by omega)]
      rfl

/-- An index of 32 bits never reaches the end of a longer string. -/
theorem hashLoop_endless (hlen : 2 ^ 32 ≤ data.length) {fuel i : ℕ} (hi : i < 2 ^ 32) :
    hashLoop data fuel i key = outOfFuel := by
  induction fuel generalizing i key with
  | zero => rfl
  | succ fuel ih =>
    unfold hashLoop
    rw [dif_pos (hi.trans_le hlen)]
    refine ih ?_
    unfold toUInt32
    omega

theorem foldl_hash_cast (data : List UInt8) (key : ℕ) :
    ((data.foldl hash key : ℕ) : ZMod (2 ^ 32)) =
      (data.map fun c => (c.toNat : ZMod (2 ^ 32))).foldl (fun k c => k * 31 + c) (key : ZMod (2 ^ 32)) := by
  induction data generalizing key with
  | nil => rfl
  | cons c data ih =>
    rw [List.foldl_cons, ih, hash_cast]
    rfl

theorem foldl_hash_lt (data : List UInt8) : data.foldl hash 0 < 2 ^ 32 := by
  induction data using List.reverseRecOn with
  | nil => decide
  | append_singleton data c _ =>
    rw [List.foldl_append]
    exact hash_lt _ _

/-- The key is returned if and only if the length has 32 bits. -/
theorem hashKey_eq (data : List UInt8) :
    hashKey data = if data.length < 2 ^ 32 then Except.ok (keyOf data).val else outOfFuel := by
  unfold hashKey
  split
  · next hlen =>
    rw [hashLoop_eq hlen (Nat.zero_le _) (by omega), List.drop_zero]
    have hcast := foldl_hash_cast data 0
    rw [Nat.cast_zero] at hcast
    have hval := congrArg ZMod.val hcast
    rw [ZMod.val_natCast_of_lt (foldl_hash_lt data)] at hval
    rw [hval]
    rfl
  · next hlen => exact hashLoop_endless (by omega) (by decide)

/-- Both keys are returned, and they are different. -/
def Differ (data data' : List UInt8) : Prop :=
  ∃ k k', hashKey data = Except.ok k ∧ hashKey data' = Except.ok k' ∧ k ≠ k'

theorem differ_iff {data data' : List UInt8} (hlen : data.length < 2 ^ 32)
    (hlen' : data'.length = data.length) : Differ data data' ↔ keyOf data ≠ keyOf data' := by
  unfold Differ
  rw [hashKey_eq, hashKey_eq, hlen', if_pos hlen, if_pos hlen]
  constructor
  · rintro ⟨k, k', hk, hk', hne⟩ heq
    rw [heq] at hk
    exact hne (Except.ok.inj (hk.symm.trans hk'))
  · intro hne
    exact ⟨_, _, rfl, rfl, fun heq => hne (ZMod.val_injective _ heq)⟩

theorem isUnit_base : IsUnit (31 : ZMod (2 ^ 32)) := by
  have hunit : IsUnit ((31 : ℕ) : ZMod (2 ^ 32)) :=
    (ZMod.isUnit_iff_coprime 31 (2 ^ 32)).mpr (by decide)
  rwa [Nat.cast_ofNat] at hunit

theorem toNat_cast_inj : (x.toNat : ZMod (2 ^ 32)) = y.toNat ↔ x = y := by
  rw [ZMod.natCast_eq_natCast_iff', Nat.mod_eq_of_lt, Nat.mod_eq_of_lt, UInt8.toNat_inj]
  · exact y.toNat_lt.trans (by decide)
  · exact x.toNat_lt.trans (by decide)

/-- How far two bytes are from one another. -/
def distance (x y : UInt8) : ℕ := ((x.toNat : ℤ) - y.toNat).natAbs

theorem keyOf_edit_iff : keyOf (before ++ x :: after) = keyOf (before ++ y :: after) ↔ x = y := by
  unfold keyOf
  rw [List.map_append, List.map_append, List.map_cons, List.map_cons,
    horner_edit_iff isUnit_base, toNat_cast_inj]

theorem keyOf_swap_iff :
    keyOf (before ++ x :: (mid ++ y :: after)) = keyOf (before ++ y :: (mid ++ x :: after)) ↔
      2 ^ 32 ∣ (31 ^ (mid.length + 1) - 1) * distance x y := by
  have hcast : ((31 : ZMod (2 ^ 32)) ^ (mid.length + 1) - 1) * (x.toNat - y.toNat) =
      (((31 : ℤ) ^ (mid.length + 1) - 1) * (x.toNat - y.toNat) : ℤ) := by
    push_cast
    rfl
  have habs : (((31 : ℤ) ^ (mid.length + 1) - 1) * (x.toNat - y.toNat)).natAbs =
      (31 ^ (mid.length + 1) - 1) * distance x y := by
    have hpos : 1 ≤ 31 ^ (mid.length + 1) := Nat.one_le_pow _ _ (by decide)
    have hpow : ((31 : ℤ) ^ (mid.length + 1) - 1) = ((31 ^ (mid.length + 1) - 1 : ℕ) : ℤ) := by
      rw [Nat.cast_sub hpos]
      push_cast
      rfl
    rw [Int.natAbs_mul, hpow, Int.natAbs_natCast]
    rfl
  unfold keyOf
  simp only [List.map_append, List.map_cons]
  rw [horner_swap_iff isUnit_base, List.length_map, hcast, ZMod.intCast_zmod_eq_zero_iff_dvd,
    Int.natCast_dvd, habs]

/-- The key finds out every change of one byte, and every two different bytes
that change places, except when their difference and their distance together
have too many factors of two; below `2 ^ 20` places they do not. -/
theorem hash_key_detects (before mid after : List UInt8) {x y : UInt8} (hxy : x ≠ y)
    (hlen : (before ++ x :: (mid ++ y :: after)).length < 2 ^ 32) :
    Differ (before ++ x :: after) (before ++ y :: after) ∧
      (Differ (before ++ x :: (mid ++ y :: after)) (before ++ y :: (mid ++ x :: after)) ↔
        ¬ 2 ^ 32 ∣ (31 ^ (mid.length + 1) - 1) * distance x y) ∧
      (mid.length + 1 < 2 ^ 20 →
        Differ (before ++ x :: (mid ++ y :: after)) (before ++ y :: (mid ++ x :: after))) := by
  have hswap : Differ (before ++ x :: (mid ++ y :: after)) (before ++ y :: (mid ++ x :: after)) ↔
      ¬ 2 ^ 32 ∣ (31 ^ (mid.length + 1) - 1) * distance x y := by
    rw [differ_iff hlen (by simp), ne_eq, keyOf_swap_iff]
  refine ⟨?_, hswap, fun hnear => hswap.mpr ?_⟩
  · have hshort : (before ++ x :: after).length < 2 ^ 32 := by
      simp only [List.length_append, List.length_cons] at hlen ⊢
      omega
    rw [differ_iff hshort (by simp), ne_eq, keyOf_edit_iff]
    exact hxy
  · have hx := x.toNat_lt
    have hy := y.toNat_lt
    have hne : x.toNat ≠ y.toNat := fun heq => hxy (UInt8.toNat_inj.mp heq)
    have hpos : distance x y ≠ 0 := by
      unfold distance
      omega
    have hlt : distance x y < 2 ^ 8 := by
      unfold distance
      omega
    exact not_dvd_swap (k := 5) (e := 8) (f := 20) (by decide) (by omega) hnear hpos hlt (by decide)

/-- `name` is neither `nbme` nor `mane`. -/
theorem hash_key_detects_name :
    Differ [110, 97, 109, 101] [110, 98, 109, 101] ∧ Differ [110, 97, 109, 101] [109, 97, 110, 101] :=
  ⟨(hash_key_detects [110] [] [109, 101] (x := 97) (y := 98) (by decide) (by decide)).1,
    (hash_key_detects [] [97] [101] (x := 110) (y := 109) (by decide) (by decide)).2.2 (by decide)⟩

/-- The bytes are letters of the 31 from `lo` on. -/
def Letters (lo : ℕ) (data : List UInt8) : Prop := ∀ c ∈ data, lo ≤ c.toNat ∧ c.toNat < lo + 31

instance (lo : ℕ) (data : List UInt8) : Decidable (Letters lo data) :=
  List.decidableBAll (fun c : UInt8 => lo ≤ c.toNat ∧ c.toNat < lo + 31) data

/-- The letters counted from the first one. -/
def places (lo : ℕ) (data : List UInt8) : List ℕ := data.map fun c => c.toNat - lo

theorem keyOf_letters {lo : ℕ} (h : Letters lo data) :
    keyOf data = (horner 31 (places lo data) : ℕ) +
      horner 31 (List.replicate data.length (lo : ZMod (2 ^ 32))) := by
  have hshift : data.map (fun c => (c.toNat : ZMod (2 ^ 32))) =
      ((places lo data).map fun c : ℕ => (c : ZMod (2 ^ 32))).map (· + (lo : ZMod (2 ^ 32))) := by
    unfold places
    rw [List.map_map, List.map_map]
    refine List.map_congr_left fun c hc => ?_
    have hle := (h c hc).1
    dsimp only [Function.comp]
    rw [← Nat.cast_add, Nat.sub_add_cancel hle]
  have hcast := horner_natCast (R := ZMod (2 ^ 32)) 31 (places lo data)
  rw [Nat.cast_ofNat] at hcast
  unfold keyOf
  rw [hshift, horner_shift, hcast, List.length_map, places, List.length_map]

theorem places_lt {lo : ℕ} (h : Letters lo data) : ∀ k ∈ places lo data, k < 31 := by
  intro k hk
  obtain ⟨c, hc, rfl⟩ := List.mem_map.mp hk
  have hbound := h c hc
  omega

theorem places_inj {lo : ℕ} {data' : List UInt8} (h : Letters lo data) (h' : Letters lo data')
    (heq : places lo data = places lo data') : data = data' := by
  induction data generalizing data' with
  | nil => exact (List.map_eq_nil_iff.mp heq.symm).symm
  | cons c data ih =>
    cases data' with
    | nil => cases heq
    | cons c' data' =>
      obtain ⟨hc, hdata⟩ := List.forall_mem_cons.mp h
      obtain ⟨hc', hdata'⟩ := List.forall_mem_cons.mp h'
      obtain ⟨hhead, htail⟩ := List.cons_eq_cons.mp heq
      dsimp only at hhead
      have heq : c.toNat = c'.toNat := by omega
      rw [ih hdata hdata' htail, UInt8.toNat_inj.mp heq]

/-- Different names of one length, of at most six letters out of 31 in a row, have different keys. -/
theorem hash_key_short (lo : ℕ) {data data' : List UInt8} (hlen : data'.length = data.length)
    (hshort : data.length ≤ 6) (h : Letters lo data) (h' : Letters lo data') (hne : data ≠ data') :
    Differ data data' := by
  have hlt : ∀ d : List UInt8, Letters lo d → d.length ≤ 6 → horner 31 (places lo d) < 2 ^ 32 := by
    intro d hd hle
    have hbelow := horner_lt (by decide) (places_lt hd)
    rw [places, List.length_map] at hbelow
    calc horner 31 (places lo d) < 31 ^ d.length := hbelow
      _ ≤ 31 ^ 6 := Nat.pow_le_pow_right (by decide) hle
      _ ≤ 2 ^ 32 := by decide
  rw [differ_iff (by omega) hlen]
  intro heq
  rw [keyOf_letters h, keyOf_letters h', hlen, add_left_inj, ZMod.natCast_eq_natCast_iff',
    Nat.mod_eq_of_lt (hlt data h hshort), Nat.mod_eq_of_lt (hlt data' h' (by omega))] at heq
  refine hne (places_inj h h' (horner_inj (by decide) ?_ (places_lt h) (places_lt h') heq))
  rw [places, places, List.length_map, List.length_map, hlen]

theorem hash_key_short_letters : Differ [97, 98, 99] [97, 98, 100] :=
  hash_key_short 97 rfl (by decide) (by decide) (by decide) (by decide)

end

end HCore.HashKey
