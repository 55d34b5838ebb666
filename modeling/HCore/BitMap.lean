import Mathlib.Data.List.Basic
import Mathlib.Tactic.Ring

/-!
The bitmap. Positions count from 1 to the size of the map, and eight of them
share a byte. A range is written in three parts: the rest of its first byte,
the beginning of its last byte, and the whole bytes between them. The bytes
between are filled with ones for both calls, and a range whose end lies in an
earlier byte than its beginning is written as if it were one.
-/

namespace HCore.BitMap

def hcoreOk : ℤ := 0

def hcoreError : ℤ := -1

/-- The bytes of a map of `size` positions: `size / 8 + !!(size % 8)`. -/
def unitCount (size : ℕ) : ℕ := size / 8 + if size % 8 = 0 then 0 else 1

/-- `hcore_map_t` after `hcore_init_map`. -/
structure Map where
  m : List (BitVec 8)
  size : ℕ
  length_eq : m.length = unitCount size

/-- `hcore_init_map`, when there is memory for the cleared bytes. -/
def initMap (size : ℕ) : Map := ⟨List.replicate (unitCount size) 0, size, List.length_replicate⟩

/-- `HCORE_SET_MAP` and `HCORE_UNSET_MAP`. -/
def setMap (u : BitVec 8) (bit : ℕ) : BitVec 8 := u ||| 1#8 <<< bit

def unsetMap (u : BitVec 8) (bit : ℕ) : BitVec 8 := u &&& ~~~(1#8 <<< bit)

def putMap (isSet : Bool) (u : BitVec 8) (bit : ℕ) : BitVec 8 :=
  if isSet then setMap u bit else unsetMap u bit

/-- The bytes of a map are changed, their number is not. -/
def Map.withUnits (map : Map) (m : List (BitVec 8)) (h : m.length = map.m.length) : Map :=
  ⟨m, map.size, h.trans map.length_eq⟩

/-- The index of the byte that holds a position, and its bit there. -/
def mapGetM (map : Map) (pos : ℕ) : Option (ℕ × ℕ) :=
  if pos = 0 ∨ map.size < pos then none
  else
    let mp := (pos - 1) / 8
    let bit := (pos - 1) % 8
    if map.m.length ≤ mp ∨ 7 < bit then none else some (mp, bit)

/-- `_hcore_map_set`. -/
def mapSet' (map : Map) (pos : ℕ) (isSet : Bool) : ℤ × Map :=
  match mapGetM map pos with
  | none => (hcoreError, map)
  | some (mp, bit) =>
    (hcoreOk, map.withUnits (map.m.modify mp (putMap isSet · bit)) (List.length_modify ..))

def mapSet (map : Map) (pos : ℕ) : ℤ × Map := mapSet' map pos true

def mapUnset (map : Map) (pos : ℕ) : ℤ × Map := mapSet' map pos false

/-- The loop over `n` bits of one byte, from `i` on. -/
def putBits (isSet : Bool) : ℕ → ℕ → BitVec 8 → BitVec 8
  | 0, _, u => u
  | n + 1, i, u => putBits isSet n (i + 1) (putMap isSet u i)

/-- `while (p < em) *p++ = 0xff` over the `n` bytes from `p` on. -/
def fillUnits : ℕ → ℕ → List (BitVec 8) → List (BitVec 8)
  | 0, _, m => m
  | n + 1, p, m => fillUnits n (p + 1) (m.set p 0xff#8)

@[simp] theorem fillUnits_length (n p : ℕ) (m : List (BitVec 8)) :
    (fillUnits n p m).length = m.length := by
  induction n generalizing p m with
  | zero => rfl
  | succ n ih => rw [fillUnits, ih, List.length_set]

/-- The bytes that a range call leaves, given where its ends lie. -/
def rangeUnits (isSet : Bool) (bm bBit em eBit : ℕ) (m : List (BitVec 8)) : List (BitVec 8) :=
  let m := if bm ≠ em then
      (m.modify bm (putBits isSet (8 - bBit) bBit)).modify em (putBits isSet (eBit + 1) 0)
    else m.modify bm (putBits isSet (eBit + 1 - bBit) bBit)
  fillUnits (em - (bm + 1)) (bm + 1) m

theorem rangeUnits_length (isSet : Bool) (bm bBit em eBit : ℕ) (m : List (BitVec 8)) :
    (rangeUnits isSet bm bBit em eBit m).length = m.length := by
  unfold rangeUnits
  split <;> simp

/-- `_hcore_map_set_range`. -/
def mapSetRange' (map : Map) (bp ep : ℕ) (isSet : Bool) : ℤ × Map :=
  match mapGetM map bp with
  | none => (hcoreError, map)
  | some (bm, bBit) =>
    match mapGetM map ep with
    | none => (hcoreError, map)
    | some (em, eBit) =>
      (hcoreOk, map.withUnits (rangeUnits isSet bm bBit em eBit map.m) (rangeUnits_length ..))

def mapSetRange (map : Map) (bp ep : ℕ) : ℤ × Map := mapSetRange' map bp ep true

def mapUnsetRange (map : Map) (bp ep : ℕ) : ℤ × Map := mapSetRange' map bp ep false

/-- `*m & (1 << bit)`, or an error. -/
def mapIsSet (map : Map) (pos : ℕ) : ℤ :=
  match mapGetM map pos with
  | none => hcoreError
  | some (mp, bit) => (map.m.getD mp 0 &&& 1#8 <<< bit).toNat

/-- The bit of index `i`, the one of position `i + 1`. -/
def bitAt (m : List (BitVec 8)) (i : ℕ) : Bool := (m.getD (i / 8) 0).getLsbD (i % 8)

/-- The positions of a map. -/
def Inside (map : Map) (pos : ℕ) : Prop := 1 ≤ pos ∧ pos ≤ map.size

/-- `hcore_map_set_range` adds the positions of the range to those that are
set, and does nothing where an end is not a position. -/
def SetsRange (map : Map) (bp ep : ℕ) : Prop :=
  (Inside map bp ∧ Inside map ep → ∀ pos, Inside map pos →
    (mapIsSet (mapSetRange map bp ep).2 pos ≠ 0 ↔
      (bp ≤ pos ∧ pos ≤ ep) ∨ mapIsSet map pos ≠ 0)) ∧
  (¬ (Inside map bp ∧ Inside map ep) → mapSetRange map bp ep = (hcoreError, map))

/-- `hcore_map_unset_range` takes the positions of the range away from those
that are set, and does nothing where an end is not a position. -/
def UnsetsRange (map : Map) (bp ep : ℕ) : Prop :=
  (Inside map bp ∧ Inside map ep → ∀ pos, Inside map pos →
    (mapIsSet (mapUnsetRange map bp ep).2 pos ≠ 0 ↔
      mapIsSet map pos ≠ 0 ∧ ¬ (bp ≤ pos ∧ pos ≤ ep))) ∧
  (¬ (Inside map bp ∧ Inside map ep) → mapUnsetRange map bp ep = (hcoreError, map))

/-- The positions in the whole bytes between those of the ends. -/
def Between (bp ep pos : ℕ) : Prop :=
  (bp - 1) / 8 < (pos - 1) / 8 ∧ (pos - 1) / 8 < (ep - 1) / 8

/-- The positions from `bp` on in its byte, and those up to `ep` in its byte. -/
def Around (bp ep pos : ℕ) : Prop :=
  ((pos - 1) / 8 = (bp - 1) / 8 ∧ bp ≤ pos) ∨ ((pos - 1) / 8 = (ep - 1) / 8 ∧ pos ≤ ep)

/-- The positions that the loops over the bits of single bytes write. -/
def Touched (bp ep pos : ℕ) : Prop :=
  if (bp - 1) / 8 = (ep - 1) / 8 then bp ≤ pos ∧ pos ≤ ep else Around bp ep pos

/-- Where the end of a range lies in an earlier byte than its beginning, the
bits around the two are already as the call would write them. -/
def AlreadyWritten (map : Map) (bp ep : ℕ) (isSet : Bool) : Prop :=
  (ep - 1) / 8 < (bp - 1) / 8 → ∀ pos, Inside map pos → Around bp ep pos →
    (mapIsSet map pos ≠ 0 ↔ isSet = true)

section

variable {map : Map} {isSet : Bool} {m : List (BitVec 8)} {bp ep pos : ℕ}

theorem getLsbD_bit (bit j : ℕ) (hj : j < 8) : (1#8 <<< bit).getLsbD j = decide (j = bit) := by
  rw [BitVec.getLsbD_shiftLeft, BitVec.getLsbD_one]
  grind

theorem putMap_getLsbD (u : BitVec 8) (bit j : ℕ) (hj : j < 8) :
    (putMap isSet u bit).getLsbD j = if j = bit then isSet else u.getLsbD j := by
  cases isSet with
  | true =>
    rw [putMap, if_pos rfl, setMap, BitVec.getLsbD_or, getLsbD_bit _ _ hj]
    by_cases h : j = bit <;> simp [h]
  | false =>
    rw [putMap, if_neg Bool.false_ne_true, unsetMap, BitVec.getLsbD_and, BitVec.getLsbD_not,
      getLsbD_bit _ _ hj]
    by_cases h : j = bit <;> simp [h, hj]

/-- The loop over the bits of a byte. -/
theorem putBits_getLsbD (n i : ℕ) (u : BitVec 8) (j : ℕ) (hj : j < 8) :
    (putBits isSet n i u).getLsbD j =
      if i ≤ j ∧ j < i + n then isSet else u.getLsbD j := by
  induction n generalizing i u with
  | zero => rw [putBits, if_neg (by omega)]
  | succ n ih =>
    rw [putBits, ih, putMap_getLsbD _ _ _ hj]
    by_cases hin : i + 1 ≤ j ∧ j < i + 1 + n
    · rw [if_pos hin, if_pos (by omega)]
    · rw [if_neg hin]
      by_cases heq : j = i
      · rw [if_pos heq, if_pos (by omega)]
      · rw [if_neg heq, if_neg (by omega)]

/-- The loop over the bytes between. -/
theorem fillUnits_getD (n p q : ℕ) (m : List (BitVec 8)) (hn : p + n ≤ m.length) :
    (fillUnits n p m).getD q 0 = if p ≤ q ∧ q < p + n then 0xff#8 else m.getD q 0 := by
  induction n generalizing p m with
  | zero => rw [fillUnits, if_neg (by omega)]
  | succ n ih =>
    rw [fillUnits, ih (p + 1) _ (by rw [List.length_set]; omega)]
    by_cases hin : p + 1 ≤ q ∧ q < p + 1 + n
    · rw [if_pos hin, if_pos (by omega)]
    · rw [if_neg hin, List.getD_eq_getElem?_getD]
      by_cases heq : q = p
      · subst heq
        rw [if_pos (by omega), List.getElem?_set_self (by omega)]
        rfl
      · rw [if_neg (by omega), List.getElem?_set_ne (by omega), List.getD_eq_getElem?_getD]

theorem modify_getD (f : BitVec 8 → BitVec 8) (p q : ℕ) (hp : p < m.length) :
    (m.modify p f).getD q 0 = if q = p then f (m.getD q 0) else m.getD q 0 := by
  simp only [List.getD_eq_getElem?_getD, List.getElem?_modify]
  by_cases heq : q = p
  · subst heq
    simp [hp]
  · simp [heq, Ne.symm heq]

/-- The bit of `pos` after the writes of a range call. -/
theorem bitAt_rangeUnits (hbp : 1 ≤ bp) (hep : 1 ≤ ep) (hpos : 1 ≤ pos)
    (hb : (bp - 1) / 8 < m.length) (he : (ep - 1) / 8 < m.length) :
    bitAt (rangeUnits isSet ((bp - 1) / 8) ((bp - 1) % 8) ((ep - 1) / 8) ((ep - 1) % 8) m)
        (pos - 1) = true ↔
      Between bp ep pos ∨ (¬ Between bp ep pos ∧
        ((Touched bp ep pos ∧ isSet = true) ∨
          (¬ Touched bp ep pos ∧ bitAt m (pos - 1) = true))) := by
  have hbit : (pos - 1) % 8 < 8 := Nat.mod_lt _ (by omega)
  unfold rangeUnits bitAt Touched
  dsimp only
  rw [fillUnits_getD _ _ _ _ (by split <;> simp only [List.length_modify] <;> omega)]
  by_cases hbetween : Between bp ep pos
  · have hin := hbetween
    unfold Between at hin
    rw [if_pos (by omega)]
    have hall : (0xff#8).getLsbD ((pos - 1) % 8) = true := by
      have hones : ∀ j < 8, (0xff#8).getLsbD j = true := by decide
      exact hones _ hbit
    simp [hbetween, hall]
  · have hout := hbetween
    unfold Between at hout
    rw [if_neg (by omega)]
    simp only [hbetween, false_or, not_false_iff, true_and]
    by_cases hsame : (bp - 1) / 8 = (ep - 1) / 8
    · rw [if_neg (not_not.mpr hsame), if_pos hsame, modify_getD _ _ _ hb]
      by_cases hbyte : (pos - 1) / 8 = (bp - 1) / 8
      · rw [if_pos hbyte, putBits_getLsbD _ _ _ _ hbit]
        by_cases hin : bp ≤ pos ∧ pos ≤ ep
        · rw [if_pos (by omega)]
          simp [hin]
        · rw [if_neg (by omega)]
          simp [hin]
      · have hin : ¬ (bp ≤ pos ∧ pos ≤ ep) := by omega
        rw [if_neg hbyte]
        simp [hin]
    · rw [if_pos hsame, if_neg hsame, modify_getD _ _ _ (by rwa [List.length_modify])]
      unfold Around
      by_cases hlast : (pos - 1) / 8 = (ep - 1) / 8
      · have hfirst : ¬ (pos - 1) / 8 = (bp - 1) / 8 := by omega
        rw [if_pos hlast, putBits_getLsbD _ _ _ _ hbit, modify_getD _ _ _ hb, if_neg hfirst]
        by_cases hin : pos ≤ ep
        · rw [if_pos (by omega)]
          simp [hlast, hin]
        · rw [if_neg (by omega)]
          simp [hlast, hin, Ne.symm hsame]
      · rw [if_neg hlast, modify_getD _ _ _ hb]
        by_cases hfirst : (pos - 1) / 8 = (bp - 1) / 8
        · rw [if_pos hfirst, putBits_getLsbD _ _ _ _ hbit]
          by_cases hin : bp ≤ pos
          · rw [if_pos (by omega)]
            simp [hfirst, hin]
          · rw [if_neg (by omega)]
            simp [hfirst, hin, hsame]
        · rw [if_neg hfirst]
          simp [hfirst, hlast]

theorem mapGetM_inside (h : Inside map pos) :
    mapGetM map pos = some ((pos - 1) / 8, (pos - 1) % 8) ∧ (pos - 1) / 8 < map.m.length := by
  obtain ⟨hlow, hhigh⟩ := h
  have hlength := map.length_eq
  have hbit : (pos - 1) % 8 < 8 := Nat.mod_lt _ (by omega)
  have hunit : (pos - 1) / 8 < map.m.length := by
    rw [hlength, unitCount]
    split <;> omega
  refine ⟨?_, hunit⟩
  unfold mapGetM
  rw [if_neg (by omega)]
  exact if_neg (by omega)

theorem mapGetM_outside (h : ¬ Inside map pos) : mapGetM map pos = none := by
  unfold Inside at h
  exact if_pos (by omega)

/-- Testing one bit of a byte. -/
theorem and_bit_ne_zero (u : BitVec 8) (bit : ℕ) (hbit : bit < 8) :
    (((u &&& 1#8 <<< bit).toNat : ℤ) ≠ 0) ↔ u.getLsbD bit = true := by
  have hzero : (u &&& 1#8 <<< bit).toNat = 0 ↔ u &&& 1#8 <<< bit = 0#8 := by
    rw [← BitVec.toNat_inj]
    rfl
  rw [Ne, Int.natCast_eq_zero, hzero]
  constructor
  · intro h
    by_contra hfalse
    apply h
    apply BitVec.eq_of_getLsbD_eq
    intro j hj
    rw [BitVec.getLsbD_and, getLsbD_bit _ _ hj, BitVec.getLsbD_zero]
    by_cases heq : j = bit
    · subst heq
      simp [hfalse]
    · simp [heq]
  · intro h heq
    have hbits := congrArg (·.getLsbD bit) heq
    simp [BitVec.getLsbD_and, getLsbD_bit _ _ hbit, h] at hbits

theorem mapIsSet_inside (h : Inside map pos) :
    mapIsSet map pos ≠ 0 ↔ bitAt map.m (pos - 1) = true := by
  unfold mapIsSet
  rw [(mapGetM_inside h).1]
  exact and_bit_ne_zero _ _ (Nat.mod_lt _ (by omega))

/-- What a range call does to every position. -/
theorem mapIsSet_range (hbp : Inside map bp) (hep : Inside map ep) (hpos : Inside map pos) :
    mapIsSet (mapSetRange' map bp ep isSet).2 pos ≠ 0 ↔
      Between bp ep pos ∨ (¬ Between bp ep pos ∧
        ((Touched bp ep pos ∧ isSet = true) ∨
          (¬ Touched bp ep pos ∧ mapIsSet map pos ≠ 0))) := by
  obtain ⟨hb, hb'⟩ := mapGetM_inside hbp
  obtain ⟨he, he'⟩ := mapGetM_inside hep
  have hrun : (mapSetRange' map bp ep isSet).2 =
      map.withUnits (rangeUnits isSet ((bp - 1) / 8) ((bp - 1) % 8) ((ep - 1) / 8) ((ep - 1) % 8)
        map.m) (rangeUnits_length ..) := by
    simp only [mapSetRange', hb, he]
  have hinside : Inside (mapSetRange' map bp ep isSet).2 pos := by
    rw [hrun]
    exact hpos
  rw [mapIsSet_inside hinside, mapIsSet_inside hpos, hrun]
  exact bitAt_rangeUnits hbp.1 hep.1 hpos.1 hb' he'

/-- Where the end does not lie in an earlier byte, the writes reach the range. -/
theorem range_cover (hbp : 1 ≤ bp) (hep : 1 ≤ ep) (hpos : 1 ≤ pos)
    (h : (bp - 1) / 8 ≤ (ep - 1) / 8) :
    Between bp ep pos ∨ Touched bp ep pos ↔ bp ≤ pos ∧ pos ≤ ep := by
  unfold Between Touched Around
  split <;> omega

/-- Where the end lies in an earlier byte, only the bits around the two ends
are written. -/
theorem range_backwards (pos : ℕ) (h : (ep - 1) / 8 < (bp - 1) / 8) :
    ¬ Between bp ep pos ∧ (Touched bp ep pos ↔ Around bp ep pos) ∧ ¬ (bp ≤ pos ∧ pos ≤ ep) := by
  unfold Between Touched
  rw [if_neg (by omega)]
  exact ⟨by omega, Iff.rfl, by omega⟩

theorem outside_error (h : ¬ (Inside map bp ∧ Inside map ep)) :
    mapSetRange' map bp ep isSet = (hcoreError, map) := by
  unfold mapSetRange'
  by_cases hbp : Inside map bp
  · have hep : ¬ Inside map ep := fun hep => h ⟨hbp, hep⟩
    rw [(mapGetM_inside hbp).1, mapGetM_outside hep]
  · rw [mapGetM_outside hbp]

/-- A backward range is written right where its bits are so already. -/
theorem backwards_iff (hbp : Inside map bp) (hep : Inside map ep)
    (h : (ep - 1) / 8 < (bp - 1) / 8) :
    (∀ pos, Inside map pos →
      (mapIsSet (mapSetRange' map bp ep isSet).2 pos ≠ 0 ↔ mapIsSet map pos ≠ 0)) ↔
      AlreadyWritten map bp ep isSet := by
  constructor
  · intro hright _ pos hpos haround
    obtain ⟨hbetween, htouched, -⟩ := range_backwards pos h
    rw [← hright pos hpos, mapIsSet_range hbp hep hpos, htouched]
    simp [hbetween, haround]
  · intro halready pos hpos
    obtain ⟨hbetween, htouched, -⟩ := range_backwards pos h
    rw [mapIsSet_range hbp hep hpos, htouched]
    by_cases haround : Around bp ep pos
    · simp [hbetween, haround, halready h pos hpos haround]
    · simp [hbetween, haround]

theorem setsRange_iff (hbp : Inside map bp) (hep : Inside map ep) :
    SetsRange map bp ep ↔ AlreadyWritten map bp ep true := by
  have hsets : SetsRange map bp ep ↔ ∀ pos, Inside map pos →
      (mapIsSet (mapSetRange' map bp ep true).2 pos ≠ 0 ↔
        (bp ≤ pos ∧ pos ≤ ep) ∨ mapIsSet map pos ≠ 0) :=
    ⟨fun h => h.1 ⟨hbp, hep⟩, fun h => ⟨fun _ => h, fun hout => absurd ⟨hbp, hep⟩ hout⟩⟩
  rw [hsets]
  by_cases h : (ep - 1) / 8 < (bp - 1) / 8
  · rw [← backwards_iff hbp hep h]
    refine forall_congr' fun pos => imp_congr_right fun hpos => ?_
    obtain ⟨-, -, hnone⟩ := range_backwards pos h
    simp [hnone]
  · constructor
    · exact fun _ hlt => absurd hlt h
    · intro _ pos hpos
      have hcover := range_cover hbp.1 hep.1 hpos.1 (Nat.not_lt.mp h)
      rw [mapIsSet_range hbp hep hpos, ← hcover]
      tauto

theorem unsetsRange_iff (hbp : Inside map bp) (hep : Inside map ep) :
    UnsetsRange map bp ep ↔
      (ep - 1) / 8 ≤ (bp - 1) / 8 + 1 ∧ AlreadyWritten map bp ep false := by
  have hunsets : UnsetsRange map bp ep ↔ ∀ pos, Inside map pos →
      (mapIsSet (mapSetRange' map bp ep false).2 pos ≠ 0 ↔
        mapIsSet map pos ≠ 0 ∧ ¬ (bp ≤ pos ∧ pos ≤ ep)) :=
    ⟨fun h => h.1 ⟨hbp, hep⟩, fun h => ⟨fun _ => h, fun hout => absurd ⟨hbp, hep⟩ hout⟩⟩
  rw [hunsets]
  by_cases h : (ep - 1) / 8 < (bp - 1) / 8
  · rw [← backwards_iff hbp hep h, and_iff_right (by omega)]
    refine forall_congr' fun pos => imp_congr_right fun hpos => ?_
    obtain ⟨-, -, hnone⟩ := range_backwards pos h
    simp [hnone]
  · constructor
    · intro hright
      refine ⟨?_, fun hlt => absurd hlt h⟩
      -- the first position of the first whole byte between is in the range
      by_contra hfar
      have hsize := hep.2
      have hpos : Inside map (((bp - 1) / 8 + 1) * 8 + 1) := ⟨by omega, by omega⟩
      have hbetween : Between bp ep (((bp - 1) / 8 + 1) * 8 + 1) := by
        unfold Between
        omega
      have hset : mapIsSet (mapSetRange' map bp ep false).2 (((bp - 1) / 8 + 1) * 8 + 1) ≠ 0 :=
        (mapIsSet_range hbp hep hpos).mpr (Or.inl hbetween)
      exact ((hright _ hpos).mp hset).2 ⟨by omega, by omega⟩
    · rintro ⟨hnear, -⟩ pos hpos
      have hcover := range_cover hbp.1 hep.1 hpos.1 (Nat.not_lt.mp h)
      have hbetween : ¬ Between bp ep pos := by
        unfold Between
        omega
      rw [mapIsSet_range hbp hep hpos, ← hcover]
      simp [hbetween]
      tauto

end

/-- `hcore_map_set` or `hcore_map_unset` on the `n` positions from `bp` on. -/
def eachPosition (isSet : Bool) : ℕ → ℕ → Map → Map
  | 0, _, map => map
  | n + 1, bp, map => eachPosition isSet n (bp + 1) (mapSet' map bp isSet).2

/-- A single call changes its position and no other. -/
theorem mapIsSet_set {map : Map} {isSet : Bool} {p pos : ℕ} (hp : Inside map p)
    (hpos : Inside map pos) :
    mapIsSet (mapSet' map p isSet).2 pos ≠ 0 ↔
      if pos = p then isSet = true else mapIsSet map pos ≠ 0 := by
  obtain ⟨hget, hunit⟩ := mapGetM_inside hp
  have hbit : (pos - 1) % 8 < 8 := Nat.mod_lt _ (by omega)
  have hrun : (mapSet' map p isSet).2 = map.withUnits
      (map.m.modify ((p - 1) / 8) (putMap isSet · ((p - 1) % 8))) (List.length_modify ..) := by
    simp only [mapSet', hget]
  have hinside : Inside (mapSet' map p isSet).2 pos := by
    rw [hrun]
    exact hpos
  rw [mapIsSet_inside hinside, mapIsSet_inside hpos, hrun]
  obtain ⟨hlow, -⟩ := hp
  obtain ⟨hlow', -⟩ := hpos
  unfold Map.withUnits bitAt
  dsimp only
  rw [modify_getD _ _ _ hunit]
  by_cases hbyte : (pos - 1) / 8 = (p - 1) / 8
  · rw [if_pos hbyte, putMap_getLsbD _ _ _ hbit]
    by_cases heq : pos = p
    · rw [if_pos heq, if_pos (by rw [heq])]
    · rw [if_neg heq, if_neg (by omega)]
  · rw [if_neg hbyte, if_neg (by omega)]

/-- Where a range call has its pointwise meaning, it does what the single
calls on its positions do. -/
theorem mapIsSet_each {isSet : Bool} {pos : ℕ} (n bp : ℕ) (map : Map) (hbp : 1 ≤ bp)
    (hn : bp + n ≤ map.size + 1) (hpos : Inside map pos) :
    mapIsSet (eachPosition isSet n bp map) pos ≠ 0 ↔
      if bp ≤ pos ∧ pos < bp + n then isSet = true else mapIsSet map pos ≠ 0 := by
  induction n generalizing bp map with
  | zero => rw [eachPosition, if_neg (by omega)]
  | succ n ih =>
    have hp : Inside map bp := ⟨hbp, by omega⟩
    have hsize : (mapSet' map bp isSet).2.size = map.size := by
      simp only [mapSet', (mapGetM_inside hp).1, Map.withUnits]
    have hpos' : Inside (mapSet' map bp isSet).2 pos := by
      unfold Inside
      rw [hsize]
      exact hpos
    rw [eachPosition, ih (bp + 1) _ (by omega) (by rw [hsize]; omega) hpos', mapIsSet_set hp hpos]
    by_cases heq : pos = bp
    · rw [if_neg (by omega), if_pos heq, if_pos (by omega)]
    · rw [if_neg heq]
      by_cases hin : bp + 1 ≤ pos ∧ pos < bp + 1 + n
      · rw [if_pos hin, if_pos (by omega)]
      · rw [if_neg hin, if_neg (by omega)]

theorem mapIsSet_each_range {isSet : Bool} {map : Map} {bp ep pos : ℕ} (hbp : Inside map bp)
    (hep : Inside map ep) (hpos : Inside map pos) :
    mapIsSet (eachPosition isSet (ep + 1 - bp) bp map) pos ≠ 0 ↔
      if bp ≤ pos ∧ pos ≤ ep then isSet = true else mapIsSet map pos ≠ 0 := by
  obtain ⟨hlow, hhigh⟩ := hbp
  obtain ⟨-, hhigh'⟩ := hep
  rw [mapIsSet_each _ _ _ hlow (by omega) hpos]
  by_cases hin : bp ≤ pos ∧ pos ≤ ep
  · rw [if_pos (by omega), if_pos hin]
  · rw [if_neg (by omega), if_neg hin]

theorem setsRange_each {map : Map} {bp ep pos : ℕ} (h : SetsRange map bp ep)
    (hbp : Inside map bp) (hep : Inside map ep) (hpos : Inside map pos) :
    mapIsSet (mapSetRange map bp ep).2 pos ≠ 0 ↔
      mapIsSet (eachPosition true (ep + 1 - bp) bp map) pos ≠ 0 := by
  rw [h.1 ⟨hbp, hep⟩ pos hpos, mapIsSet_each_range hbp hep hpos]
  split <;> simp [*]

theorem unsetsRange_each {map : Map} {bp ep pos : ℕ} (h : UnsetsRange map bp ep)
    (hbp : Inside map bp) (hep : Inside map ep) (hpos : Inside map pos) :
    mapIsSet (mapUnsetRange map bp ep).2 pos ≠ 0 ↔
      mapIsSet (eachPosition false (ep + 1 - bp) bp map) pos ≠ 0 := by
  rw [h.1 ⟨hbp, hep⟩ pos hpos, mapIsSet_each_range hbp hep hpos]
  split <;> simp [*]

/-- When the two range calls have their pointwise meaning. -/
theorem range_calls_iff (map : Map) (bp ep : ℕ) :
    (SetsRange map bp ep ↔
      (Inside map bp ∧ Inside map ep → AlreadyWritten map bp ep true)) ∧
    (UnsetsRange map bp ep ↔
      (Inside map bp ∧ Inside map ep →
        (ep - 1) / 8 ≤ (bp - 1) / 8 + 1 ∧ AlreadyWritten map bp ep false)) := by
  by_cases h : Inside map bp ∧ Inside map ep
  · obtain ⟨hbp, hep⟩ := h
    refine ⟨?_, ?_⟩
    · rw [setsRange_iff hbp hep]
      exact ⟨fun h _ => h, fun h => h ⟨hbp, hep⟩⟩
    · rw [unsetsRange_iff hbp hep]
      exact ⟨fun h _ => h, fun h => h ⟨hbp, hep⟩⟩
  · refine ⟨?_, ?_⟩
    · exact ⟨fun _ hin => absurd hin h, fun _ => ⟨fun hin => absurd hin h, fun _ => outside_error h⟩⟩
    · exact ⟨fun _ hin => absurd hin h, fun _ => ⟨fun hin => absurd hin h, fun _ => outside_error h⟩⟩

/-- Clearing the positions 1 to 24 of an empty map sets those from 9 to 16. -/
theorem unset_range_sets :
    ¬ ∀ (map : Map) (bp ep : ℕ), SetsRange map bp ep ∧ UnsetsRange map bp ep := by
  intro h
  have hset : mapIsSet (mapUnsetRange (initMap 24) 1 24).2 9 ≠ 0 := by decide
  have hinside (pos : ℕ) (hlow : 1 ≤ pos) (hhigh : pos ≤ 24) : Inside (initMap 24) pos :=
    ⟨hlow, hhigh⟩
  have hmeaning := (h (initMap 24) 1 24).2.1 ⟨hinside 1 (by omega) (by omega),
    hinside 24 (by omega) (by omega)⟩ 9 (hinside 9 (by omega) (by omega))
  exact (hmeaning.mp hset).2 ⟨by omega, by omega⟩

end HCore.BitMap
