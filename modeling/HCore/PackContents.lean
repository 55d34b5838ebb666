import HCore.PackReader
import Mathlib.Data.List.Pairwise
import Mathlib.Tactic.SplitIfs

/-!
The pack as its callers fill it. The comparison of elements is a total
preorder on names shorter than `2 ^ 31` bytes and tells different elements
apart, so that the list has one element for each name and type, and its array
holds the values in the order they came.
-/

namespace HCore.PackContents

open Machine LittleEndian PoolRequests SortedList PackModel PackReader

theorem memcmp_eq_zero {x y : List UInt8} (hlen : x.length = y.length) : memcmp x y = 0 ↔ x = y := by
  induction x generalizing y with
  | nil =>
    obtain rfl := List.eq_nil_of_length_eq_zero hlen.symm
    simp [memcmp]
  | cons a x ih =>
    obtain ⟨b, y, rfl⟩ := List.exists_cons_of_length_eq_add_one hlen.symm
    have hrest := ih (Nat.succ.inj hlen)
    rw [memcmp]
    by_cases hab : a = b
    · rw [if_pos hab, hrest]
      simp [hab]
    · have hne : a.toNat ≠ b.toNat := fun h => hab (UInt8.toNat_inj.mp h)
      rw [if_neg hab]
      simp only [List.cons.injEq, hab, false_and, iff_false]
      omega

theorem memcmp_swap (x y : List UInt8) : memcmp x y = -memcmp y x := by
  induction x generalizing y with
  | nil => cases y <;> simp [memcmp]
  | cons a x ih =>
    cases y with
    | nil => simp [memcmp]
    | cons b y =>
      rw [memcmp, memcmp]
      by_cases hab : a = b
      · rw [if_pos hab, if_pos hab.symm, ih y]
      · rw [if_neg hab, if_neg (Ne.symm hab)]
        omega

theorem memcmp_trans {x y z : List UInt8} (hxy : x.length = y.length) (hyz : y.length = z.length)
    (h : memcmp x y ≤ 0) (h' : memcmp y z ≤ 0) : memcmp x z ≤ 0 := by
  induction x generalizing y z with
  | nil => simp [memcmp]
  | cons a x ih =>
    obtain ⟨b, y, rfl⟩ := List.exists_cons_of_length_eq_add_one hxy.symm
    obtain ⟨c, z, rfl⟩ := List.exists_cons_of_length_eq_add_one hyz.symm
    rw [memcmp] at *
    by_cases hab : a = b
    · subst hab
      rw [if_pos rfl] at h
      by_cases hac : a = c
      · rw [if_pos hac] at h' ⊢
        exact ih (Nat.succ.inj hxy) (Nat.succ.inj hyz) h h'
      · rwa [if_neg hac] at h' ⊢
    · have hne : a.toNat ≠ b.toNat := fun h => hab (UInt8.toNat_inj.mp h)
      rw [if_neg hab] at h
      by_cases hbc : b = c
      · subst hbc
        rw [if_neg hab]
        exact h
      · rw [if_neg hbc] at h'
        have hac : a ≠ c := by
          rintro rfl
          omega
        rw [if_neg hac]
        omega

/-- A name whose length fits in an `int`. -/
def Short (e : Elem) : Prop := e.name.length < 2 ^ 31

theorem ElemType.code_inj {t u : ElemType} (h : t.code = u.code) : t = u := by
  cases t <;> cases u <;> simp [ElemType.code] at h ⊢

theorem ElemType.code_le (t : ElemType) : t.code ≤ 2 := by
  cases t <;> simp [ElemType.code]

/-- Without overflow the comparison is by type, length and bytes. -/
theorem packCmpName_short {a b : Elem} (ha : Short a) (hb : Short b) :
    packCmpName a b =
      if a.type.code ≠ b.type.code then (a.type.code : ℤ) - b.type.code
      else if a.name.length ≠ b.name.length then (a.name.length : ℤ) - b.name.length
      else memcmp a.name b.name := by
  have hacode := ElemType.code_le a.type
  have hbcode := ElemType.code_le b.type
  unfold Short at ha hb
  unfold packCmpName
  by_cases htype : a.type = b.type
  · rw [if_neg (not_not.mpr htype), if_neg (not_not.mpr (congrArg ElemType.code htype))]
    split
    · exact toInt32_of_range (by omega) (by omega)
    · rfl
  · rw [if_pos htype, if_pos (fun h => htype (ElemType.code_inj h))]
    exact toInt32_of_range (by omega) (by omega)

theorem packCmpName_ordered : Ordered packCmpName Short := by
  constructor
  · intro a b ha hb
    have hswap := memcmp_swap a.name b.name
    rw [packCmpName_short ha hb, packCmpName_short hb ha]
    split_ifs <;> omega
  · intro a b c ha hb hc hab hbc
    have htrans := memcmp_trans (x := a.name) (y := b.name) (z := c.name)
    rw [packCmpName_short ha hb] at hab
    rw [packCmpName_short hb hc] at hbc
    rw [packCmpName_short ha hc]
    split_ifs at * <;> omega

theorem packCmpName_eq_zero {a b : Elem} (ha : Short a) (hb : Short b) :
    packCmpName a b = 0 ↔ a.name = b.name ∧ a.type = b.type := by
  rw [packCmpName_short ha hb]
  constructor
  · intro h
    split_ifs at h with htype hlen
    · omega
    · omega
    · exact ⟨(memcmp_eq_zero (not_not.mp hlen)).mp h, ElemType.code_inj (not_not.mp htype)⟩
  · intro ⟨hname, htype⟩
    rw [hname, htype]
    simp [(memcmp_eq_zero (rfl : b.name.length = b.name.length)).mpr rfl]

/-- What is stored of an added value: a string ends before its first NUL. -/
def storedOf : Addition → Value
  | .int i => .int i.toNat
  | .str str => .data (untilNul str.bytes)
  | .data mem p size => .data (window mem p size)

/-- The next two requests get memory. -/
def Serves (pool : Pool) : Prop :=
  ∀ size, pool.grants pool.calls size = true ∧ pool.grants (pool.calls + 1) size = true

theorem Granting.serves {pool : Pool} (h : pool.Granting) : Serves pool :=
  fun size => ⟨h _ size, h _ size⟩

/-- The slots of an element. -/
def valuesOf (s : Pack) (e : Elem) : List (Option Value) :=
  match s.arrays[e.values]? with
  | none => []
  | some a => a.elts

/-- The elements have arrays of their own. -/
structure Separate (s : Pack) : Prop where
  bound : ∀ e ∈ s.elements.items, e.values < s.arrays.length
  distinct : s.elements.items.Pairwise (fun a b => a.values ≠ b.values)

/-- A value is added to the array of an element; nothing but arrays and pool
change. -/
structure Appends (s s' : Pack) (e : Elem) (v : Value) : Prop where
  same : s' = { s with pool := s'.pool, arrays := s'.arrays }
  grants : s'.pool.grants = s.pool.grants
  length : s'.arrays.length = s.arrays.length
  values : valuesOf s' e = valuesOf s e ++ [some v]
  others : ∀ x : Elem, x.values ≠ e.values → valuesOf s' x = valuesOf s x

section

variable {s s' : Pack} {e : Elem} {ok : Bool}

theorem arrayGrow_grows {α : Type} {pool pool' : Pool} {a : Slots α} {a? : Option (Slots α)} {size : ℕ}
    (h : arrayGrow pool a size = (a?, pool')) :
    pool'.grants = pool.grants ∧ pool'.calls ≤ pool.calls + 1 ∧ pool.calls ≤ pool'.calls ∧
      (∀ a', a? = some a' → a'.elts = a.elts) ∧ (Serves pool → a? ≠ none) := by
  unfold arrayGrow at h
  split at h
  · split at h
    · cases h
      exact ⟨rfl, le_refl _, Nat.le_succ _, by rintro _ ⟨⟩; rfl, by simp⟩
    · rcases hgrant : pool.palloc (2 * (size * a.nalloc)) with ⟨granted, pool1⟩
      rw [hgrant] at h
      obtain ⟨rfl, rfl⟩ := Prod.mk.inj hgrant
      cases hg : pool.grants pool.calls (2 * (size * a.nalloc)) with
      | false =>
        rw [hg] at h
        cases h
        refine ⟨rfl, le_refl _, Nat.le_succ _, by simp, fun hserves => ?_⟩
        rw [(hserves _).1] at hg
        cases hg
      | true =>
        rw [hg] at h
        cases h
        exact ⟨rfl, le_refl _, Nat.le_succ _, by rintro _ ⟨⟩; rfl, by simp⟩
  · cases h
    exact ⟨rfl, Nat.le_succ _, le_refl _, by rintro _ ⟨⟩; rfl, by simp⟩

/-- A push that returns has added an empty slot, with one request at most. -/
theorem pushValue_pushes (h : pushValue s e = Except.ok (ok, s')) :
    s'.pool.grants = s.pool.grants ∧ s'.pool.calls ≤ s.pool.calls + 1 ∧
      s.pool.calls ≤ s'.pool.calls ∧ (Serves s.pool → ok = true) ∧
      (ok = true → ∃ a a' : Slots Value, s.arrays[e.values]? = some a ∧
        a'.elts = a.elts ++ [none] ∧
        s' = { s with pool := s'.pool, arrays := s.arrays.set e.values a' }) := by
  unfold pushValue at h
  split at h
  · cases h
  · next a harray =>
    obtain ⟨⟨a?, pool⟩, hpush, h⟩ := bind_eq_ok.mp h
    unfold arrayPush at hpush
    rcases hgrow : arrayGrow s.pool a (valueSize e.type) with ⟨a1?, pool1⟩
    obtain ⟨hgrants, hle, hge, helts, hsome⟩ := arrayGrow_grows hgrow
    rw [hgrow] at hpush
    cases a1? with
    | none =>
      cases hpush
      cases h
      exact ⟨hgrants, hle, hge, fun hserves => absurd rfl (hsome hserves), by simp⟩
    | some a1 =>
      dsimp only at hpush
      split at hpush
      · cases hpush
        cases h
        refine ⟨hgrants, hle, hge, fun _ => rfl, fun _ => ⟨a, _, harray, ?_, rfl⟩⟩
        dsimp only
        rw [helts a1 rfl]
      · cases hpush

/-- The value takes the slot that was pushed for it. -/
theorem setValue_appends {a a' : Slots Value} (harray : s.arrays[e.values]? = some a)
    (helts : a'.elts = a.elts ++ [none]) (hgrants : s'.pool.grants = s.pool.grants)
    (hsame : s' = { s with pool := s'.pool, arrays := s.arrays.set e.values a' }) (v : Value) :
    Appends s (setValue s' e v) e v := by
  obtain ⟨hlt, -⟩ := List.getElem?_eq_some_iff.mp harray
  have harrays : s'.arrays = s.arrays.set e.values a' := by rw [hsame]
  refine ⟨?_, hgrants, ?_, ?_, ?_⟩
  · have hset := congrArg (fun t : Pack => setValue t e v) hsame
    simp only [setValue, harrays] at hset ⊢
    exact hset
  · rw [setValue, List.length_modify, harrays, List.length_set]
  · simp only [valuesOf, setValue, harrays, harray, List.getElem?_modify, List.getElem?_set, hlt,
      if_true, Option.map_eq_map, Option.map_some, Slots.setLast, helts, List.dropLast_concat]
  · intro x hx
    simp only [valuesOf, setValue, harrays, List.getElem?_modify, List.getElem?_set, Ne.symm hx,
      if_false, Option.map_eq_map, Option.map_id']

theorem elemAddInt_appends {i : ℕ} (h : elemAddInt s e i = Except.ok (ok, s')) :
    (Serves s.pool → ok = true) ∧ (ok = true → Appends s s' e (.int i)) := by
  obtain ⟨⟨pushed, s1⟩, h1, h⟩ := bind_eq_ok.mp h
  obtain ⟨hgrants, -, -, hserves, hpush⟩ := pushValue_pushes h1
  cases pushed with
  | false =>
    cases h
    exact ⟨hserves, by simp⟩
  | true =>
    cases h
    obtain ⟨a, a', harray, helts, hsame⟩ := hpush rfl
    exact ⟨fun _ => rfl, fun _ => setValue_appends harray helts hgrants hsame _⟩

theorem elemStore_appends {size : ℕ} {bytes : List UInt8}
    (h : elemStore s e size bytes = Except.ok (ok, s')) :
    (Serves s.pool → ok = true) ∧ (ok = true → Appends s s' e (.data bytes)) := by
  obtain ⟨⟨pushed, s1⟩, h1, h⟩ := bind_eq_ok.mp h
  obtain ⟨hgrants, hle, hge, hserves, hpush⟩ := pushValue_pushes h1
  cases pushed with
  | false =>
    cases h
    exact ⟨hserves, by simp⟩
  | true =>
    obtain ⟨a, a', harray, helts, hsame⟩ := hpush rfl
    dsimp only at h
    rw [if_pos rfl] at h
    simp only [palloc] at h
    cases hgrant : (s1.pool.palloc size).1 with
    | false =>
      rw [hgrant] at h
      cases h
      refine ⟨fun hall => ?_, by simp⟩
      have hyes : s1.pool.grants s1.pool.calls size = true := by
        rw [hgrants]
        rcases Nat.le_or_eq_of_le_succ hle with hle' | heq
        · rw [le_antisymm hle' hge]
          exact (hall size).1
        · rw [heq]
          exact (hall size).2
      exact absurd hgrant (by simp [Pool.palloc, hyes])
    | true =>
      rw [hgrant] at h
      cases h
      refine ⟨fun _ => rfl, fun _ => ?_⟩
      refine setValue_appends harray helts ?_ ?_ (.data bytes)
      · exact hgrants
      · exact congrArg (fun t : Pack => { t with pool := s1.pool.tick }) hsame

/-- A new element without values. -/
structure Created (s s' : Pack) (e : Elem) (name : List UInt8) (t : ElemType) : Prop where
  elem : e = ⟨name, t, s.arrays.length⟩
  same : s' = { s with
    pool := s'.pool
    arrays := s'.arrays
    elements := s'.elements
    totalSize := s.totalSize + 4 + name.length + 4 + 4 }
  grants : s'.pool.grants = s.pool.grants
  arrays : ∃ a, s'.arrays = s.arrays ++ [a] ∧ a.elts = []
  sorted : s'.elements.sorted = true
  items : ∃ pos, s'.elements.items = s.elements.items.take pos ++ e :: s.elements.items.drop pos ∧
    (Ascends (fun y => packCmpName y e) s.elements.items →
      (∀ a ∈ s.elements.items.take pos, packCmpName a e ≤ 0) ∧
        ∀ a ∈ s.elements.items.drop pos, 0 ≤ packCmpName a e)

variable {name : List UInt8} {t : ElemType} {e? : Option Elem}

theorem elemGet_sorted (h : s.elements.sorted = true) (name : List UInt8) (t : ElemType) :
    elemGet s name t = (stdlib.bsearch (packCmpName ⟨name, t, 0⟩) s.elements.items, s) := by
  simp only [elemGet, listSearch, ensureSorted_of_sorted h]

theorem arrayCreate_creates {α : Type} {pool pool' : Pool} {a? : Option (Slots α)} {n size : ℕ}
    (h : arrayCreate pool n size = (a?, pool')) :
    pool'.grants = pool.grants ∧ ∀ a, a? = some a → a.elts = [] := by
  by_cases h1 : pool.grants pool.calls arraySize = true
  · by_cases h2 : pool.grants (pool.calls + 1) (n * size) = true
    · simp only [arrayCreate, Pool.palloc, Pool.tick, h1, h2] at h
      cases h
      refine ⟨rfl, ?_⟩
      rintro _ ⟨⟩
      rfl
    · simp only [arrayCreate, Pool.palloc, Pool.tick, h1, h2] at h
      cases h
      exact ⟨rfl, by simp⟩
  · simp only [arrayCreate, Pool.palloc, Pool.tick, h1] at h
    cases h
    exact ⟨rfl, by simp⟩

theorem elemCreate_creates {num : ℕ} (h : elemCreate s name t.code num = (e?, s')) :
    s'.pool.grants = s.pool.grants ∧ (e? = none → s' = { s with pool := s'.pool }) ∧
      ∀ e, e? = some e → e = ⟨name, t, s.arrays.length⟩ ∧ ∃ a : Slots Value, a.elts = [] ∧
        s' = { s with pool := s'.pool, arrays := s.arrays ++ [a] } := by
  have htype : ElemType.ofCode t.code = some t := by cases t <;> rfl
  by_cases h1 : s.pool.grants s.pool.calls elemSize = true
  · by_cases h2 : s.pool.grants (s.pool.calls + 1) name.length = true
    · simp only [elemCreate, PackModel.palloc, Pool.palloc, Pool.tick, h1, h2, htype] at h
      split at h
      · next pool hcreate =>
        obtain ⟨hgrants, -⟩ := arrayCreate_creates hcreate
        cases h
        exact ⟨hgrants, fun _ => rfl, by simp⟩
      · next a pool hcreate =>
        obtain ⟨hgrants, helts⟩ := arrayCreate_creates hcreate
        cases h
        refine ⟨hgrants, by simp, ?_⟩
        rintro _ ⟨⟩
        exact ⟨rfl, a, helts a rfl, rfl⟩
    · simp only [elemCreate, PackModel.palloc, Pool.palloc, Pool.tick, h1, h2] at h
      cases h
      exact ⟨rfl, fun _ => rfl, by simp⟩
  · simp only [elemCreate, PackModel.palloc, Pool.palloc, Pool.tick, h1] at h
    cases h
    exact ⟨rfl, fun _ => rfl, by simp⟩

/-- The element that a value goes to: an old one or a new one. -/
inductive Chosen (s s' : Pack) (e : Elem) (name : List UInt8) (t : ElemType) : Prop
  | found (same : s' = s) (mem : e ∈ s.elements.items) (equal : packCmpName ⟨name, t, 0⟩ e = 0)
  | created (created : Created s s' e name t)
      (absent : stdlib.bsearch (packCmpName ⟨name, t, 0⟩) s.elements.items = none)

theorem elemFor_chosen (hsorted : s.elements.sorted = true)
    (h : elemFor s name t = Except.ok (e?, s')) :
    s'.pool.grants = s.pool.grants ∧ (e? = none → s' = { s with pool := s'.pool }) ∧
      ∀ e, e? = some e → Chosen s s' e name t := by
  unfold elemFor at h
  rw [elemGet_sorted hsorted] at h
  cases hfound : stdlib.bsearch (packCmpName ⟨name, t, 0⟩) s.elements.items with
  | some e =>
    rw [hfound] at h
    cases h
    obtain ⟨hmem, hzero⟩ := bsearch_mem hfound
    refine ⟨rfl, by simp, ?_⟩
    rintro _ ⟨⟩
    exact .found rfl hmem hzero
  | none =>
    rw [hfound] at h
    dsimp only at h
    split at h
    · cases h
      exact ⟨rfl, fun _ => rfl, by simp⟩
    · rcases hcreate : elemCreate s name t.code 0 with ⟨e1?, s1⟩
      obtain ⟨hgrants, hfailed, hnew⟩ := elemCreate_creates hcreate
      rw [hcreate] at h
      cases e1? with
      | none =>
        cases h
        exact ⟨hgrants, hfailed, by simp⟩
      | some e =>
        obtain ⟨⟨elements, pool⟩, hinsert, h⟩ := bind_eq_ok.mp h
        obtain ⟨hpool, hkeep, pos, hitems, hsigns⟩ := listInsert_inserts hinsert
        obtain ⟨helem, a, helts, hsame⟩ := hnew e rfl
        have helements : s1.elements = s.elements := by rw [hsame]
        have harrays : s1.arrays = s.arrays ++ [a] := by rw [hsame]
        have hset := congrArg (fun u : Pack => { u with
          pool, elements, totalSize := u.totalSize + 4 + name.length + 4 + 4 }) hsame
        rw [helements, ensureSorted_of_sorted hsorted] at hkeep hitems hsigns
        cases h
        refine ⟨hpool.trans hgrants, by simp, ?_⟩
        rintro _ ⟨⟩
        refine .created ⟨helem, ?_, hpool.trans hgrants, ⟨a, harrays, helts⟩,
          hkeep.trans hsorted, pos, hitems, hsigns⟩ hfound
        simp only [harrays] at hset ⊢
        exact hset

/-- The bytes of a value in a message. -/
def valueBytes : Value → ℕ
  | .int _ => 4
  | .data bytes => 4 + bytes.length

/-- The value of a call. -/
def givenValue : Addition → Value
  | .int i => .int i.toNat
  | .str str => .data str.bytes
  | .data mem p size => .data (window mem p size)

/-- The pack after the size of a value has been counted. -/
def counted (s : Pack) (value : Addition) : Pack :=
  { s with totalSize := s.totalSize + valueBytes (givenValue value) }

/-- What a call does to the pack. -/
theorem packAddValue_cases {cname : CString} {value : Addition} (hsorted : s.elements.sorted = true)
    (h : packAddValue s cname value = Except.ok (ok, s')) :
    (ok = false ∧ s' = { s with pool := s'.pool }) ∨
      ∃ e s1, elemFor s cname.1 value.type = Except.ok (some e, s1) ∧
        Chosen s s1 e cname.1 value.type ∧ (Serves s1.pool → ok = true) ∧
        (ok = true → Appends (counted s1 value) s' e (storedOf value)) := by
  obtain ⟨⟨e?, s1⟩, hfor, h⟩ := bind_eq_ok.mp h
  obtain ⟨-, hfailed, hchosen⟩ := elemFor_chosen hsorted hfor
  cases e? with
  | none =>
    cases h
    exact Or.inl ⟨rfl, hfailed rfl⟩
  | some e =>
    refine Or.inr ⟨e, s1, hfor, hchosen e rfl, ?_⟩
    cases value with
    | int i => exact elemAddInt_appends h
    | str str =>
      dsimp only at h
      rw [elemAddStr_result] at h
      have hcounted : counted s1 (.str str) = { s1 with totalSize := s1.totalSize + 4 + str.len } := by
        rw [counted, givenValue, valueBytes, Str.bytes, window_length, ← Nat.add_assoc]
      rw [hcounted]
      exact elemStore_appends h
    | data mem p size =>
      dsimp only at h
      rw [elemAddData_result] at h
      have hcounted : counted s1 (.data mem p size) =
          { s1 with totalSize := s1.totalSize + 4 + size } := by
        rw [counted, givenValue, valueBytes, window_length, ← Nat.add_assoc]
      rw [hcounted]
      exact elemStore_appends h

theorem Separate.unique (h : Separate s) {x : Elem} (hx : x ∈ s.elements.items)
    (he : e ∈ s.elements.items) (hne : x ≠ e) : x.values ≠ e.values := by
  have : Std.Symm (fun a b : Elem => a.values ≠ b.values) := ⟨fun _ _ hab => hab.symm⟩
  exact h.distinct.forall hx he hne

theorem Appends.elements {v : Value} (h : Appends s s' e v) : s'.elements = s.elements := by
  rw [h.same]

theorem Appends.separate {v : Value} (h : Appends s s' e v) (hs : Separate s) : Separate s' := by
  constructor
  · rw [h.elements, h.length]
    exact hs.bound
  · rw [h.elements]
    exact hs.distinct

theorem Created.mem_items (h : Created s s' e name t) {x : Elem} :
    x ∈ s'.elements.items ↔ x = e ∨ x ∈ s.elements.items := by
  obtain ⟨pos, hitems, -⟩ := h.items
  rw [hitems, List.mem_append, List.mem_cons, ← or_assoc, or_comm (a := x ∈ _), or_assoc,
    ← List.mem_append, List.take_append_drop]

theorem Created.valuesOf_new (h : Created s s' e name t) : valuesOf s' e = [] := by
  obtain ⟨a, harrays, helts⟩ := h.arrays
  rw [valuesOf, harrays, h.elem, List.getElem?_concat_length]
  exact helts

theorem Created.valuesOf_old (h : Created s s' e name t) {x : Elem}
    (hx : x.values < s.arrays.length) : valuesOf s' x = valuesOf s x := by
  obtain ⟨a, harrays, -⟩ := h.arrays
  rw [valuesOf, valuesOf, harrays, List.getElem?_append_left hx]

theorem Created.separate (h : Created s s' e name t) (hs : Separate s) : Separate s' := by
  obtain ⟨a, harrays, -⟩ := h.arrays
  obtain ⟨pos, hitems, -⟩ := h.items
  have hnew (x : Elem) (hx : x ∈ s.elements.items) : x.values ≠ e.values := by
    rw [h.elem]
    exact (hs.bound x hx).ne
  constructor
  · intro x hx
    rw [harrays, List.length_append, List.length_singleton]
    rcases h.mem_items.mp hx with rfl | hold
    · rw [h.elem]
      exact Nat.lt_succ_self _
    · exact Nat.lt_succ_of_lt (hs.bound x hold)
  · rw [hitems, List.pairwise_middle (fun hab => hab.symm), List.take_append_drop,
      List.pairwise_cons]
    exact ⟨fun x hx => (hnew x hx).symm, hs.distinct⟩

theorem Chosen.mem (h : Chosen s s' e name t) : e ∈ s'.elements.items := by
  cases h with
  | found same mem equal => rwa [same]
  | created created absent => exact created.mem_items.mpr (Or.inl rfl)

theorem Chosen.sorted (h : Chosen s s' e name t) (hs : s.elements.sorted = true) :
    s'.elements.sorted = true := by
  cases h with
  | found same mem equal => rwa [same]
  | created created absent => exact created.sorted

theorem Chosen.buf (h : Chosen s s' e name t) : s'.buf = s.buf := by
  cases h with
  | found same mem equal => rw [same]
  | created created absent => rw [created.same]

end

end HCore.PackContents
