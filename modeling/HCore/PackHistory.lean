import HCore.PackContents
import Mathlib.Data.List.TakeWhile

/-!
The pack after a sequence of calls that all succeeded. Its elements are the
names and types of the calls, and the values of an element are those of the
calls under its name and type, in order, as they are stored. The getters return
what was given exactly when no string has a NUL inside its length.
-/

namespace HCore.PackHistory

open Machine PoolRequests SortedList PackModel PackReader PackContents

/-- The getters of arrays: `hcore_pack_get_int_array` and its siblings. -/
def packGetArray (s : Pack) (name : CString) (type : ElemType) :
    Exec (Option (List (Option Value)) × Pack) :=
  match elemGet s name.1 type with
  | (none, s) => pure (none, s)
  | (some e, s) =>
    match s.arrays[e.values]? with
    | none => undefined
    | some a => if a.nelts = 0 then pure (none, s) else pure (some a.elts, s)

def packGetIntArray (s : Pack) (name : CString) : Exec (Option (List (Option Value)) × Pack) :=
  packGetArray s name .int

def packGetDataArray (s : Pack) (name : CString) : Exec (Option (List (Option Value)) × Pack) :=
  packGetArray s name .data

/-- The pack after calls of `hcore_pack_add_*` that all returned `HCORE_OK`. -/
inductive Added (pool : Pool) : Pack → List (CString × Addition) → Prop
  | init {max : ℕ} {s : Pack} (h : packInit pool max = some s) : Added pool s []
  | add {s s' : Pack} {calls : List (CString × Addition)} {name : CString} {value : Addition}
      (h : Added pool s calls) (hname : name.len < 2 ^ 31)
      (hadd : packAddValue s name value = Except.ok (true, s')) :
      Added pool s' (calls ++ [(name, value)])

/-- The calls under a name and a type. -/
def callsUnder (calls : List (CString × Addition)) (name : List UInt8) (t : ElemType) :
    List (CString × Addition) :=
  calls.filter fun c => c.1.1 = name ∧ c.2.type = t

def storedUnder (calls : List (CString × Addition)) (name : List UInt8) (t : ElemType) :
    List Value :=
  (callsUnder calls name t).map fun c => storedOf c.2

def givenUnder (calls : List (CString × Addition)) (name : List UInt8) (t : ElemType) :
    List Value :=
  (callsUnder calls name t).map fun c => givenValue c.2

/-- What a getter answers for these values. -/
def answer (values : List Value) : Option (List (Option Value)) :=
  if values = [] then none else some (values.map some)

/-- The elements of the pack have the values of these calls. -/
structure Stocked (s : Pack) (calls : List (CString × Addition)) : Prop where
  sorted : s.elements.sorted = true
  separate : Separate s
  short : ∀ e ∈ s.elements.items, Short e
  ordered : s.elements.items.Pairwise (fun a b => packCmpName a b < 0)
  covers : ∀ c ∈ calls, ∃ e ∈ s.elements.items, e.name = c.1.1 ∧ e.type = c.2.type
  values : ∀ e ∈ s.elements.items, valuesOf s e = (storedUnder calls e.name e.type).map some

/-- The pack holds these calls. -/
structure Filled (s : Pack) (calls : List (CString × Addition)) : Prop extends Stocked s calls where
  used : ∀ e ∈ s.elements.items, storedUnder calls e.name e.type ≠ []

section

variable {s s1 s' : Pack} {calls : List (CString × Addition)} {cname : CString}
  {value : Addition} {name : List UInt8} {t : ElemType} {e : Elem}

theorem storedUnder_add : storedUnder (calls ++ [(cname, value)]) cname.1 value.type =
    storedUnder calls cname.1 value.type ++ [storedOf value] := by
  simp [storedUnder, callsUnder]

theorem storedUnder_other (h : ¬ (cname.1 = name ∧ value.type = t)) :
    storedUnder (calls ++ [(cname, value)]) name t = storedUnder calls name t := by
  simp [storedUnder, callsUnder, h]

theorem storedUnder_eq_nil (h : ∀ c ∈ calls, ¬ (c.1.1 = name ∧ c.2.type = t)) :
    storedUnder calls name t = [] := by
  rw [storedUnder, List.map_eq_nil_iff, callsUnder, List.filter_eq_nil_iff]
  intro c hc
  simpa using h c hc

theorem Filled.init {pool : Pool} {max : ℕ} (h : packInit pool max = some s) :
    s.pool.grants = pool.grants ∧ Filled s [] := by
  unfold packInit at h
  split at h
  · cases h
  · next l pool1 hcreate =>
    unfold createList at hcreate
    dsimp only [Pool.palloc] at hcreate
    split at hcreate
    · cases hcreate
    · next pool2 hpalloc =>
      obtain ⟨-, rfl⟩ := Prod.mk.inj hpalloc
      cases hcreate
      cases h
      exact ⟨rfl, ⟨rfl, ⟨by simp, .nil⟩, by simp, .nil, by simp, by simp⟩, by simp⟩

theorem Stocked.weak (h : Stocked s calls) :
    s.elements.items.Pairwise (fun a b => packCmpName a b ≤ 0) :=
  h.ordered.imp fun hab => hab.le

/-- An element is known by its name and type. -/
theorem Stocked.unique (h : Stocked s calls) {x y : Elem} (hx : x ∈ s.elements.items)
    (hy : y ∈ s.elements.items) (hname : x.name = y.name) (htype : x.type = y.type) : x = y := by
  by_contra hne
  have hxs := h.short x hx
  have hys := h.short y hy
  have : Std.Symm (fun a b : Elem => ¬ (a.name = b.name ∧ a.type = b.type)) :=
    ⟨fun _ _ hab hba => hab ⟨hba.1.symm, hba.2.symm⟩⟩
  have hdiffer : s.elements.items.Pairwise (fun a b => ¬ (a.name = b.name ∧ a.type = b.type)) := by
    refine h.ordered.imp_of_mem ?_
    intro a b ha hb hlt hsame
    have hzero := (packCmpName_eq_zero (h.short a ha) (h.short b hb)).mpr hsame
    omega
  exact hdiffer.forall hx hy hne ⟨hname, htype⟩

/-- The search for a name and a type. -/
theorem Stocked.search (h : Stocked s calls) (name : List UInt8) (hname : name.length < 2 ^ 31)
    (t : ElemType) :
    (∃ e ∈ s.elements.items, e.name = name ∧ e.type = t ∧ elemGet s name t = (some e, s)) ∨
      ((∀ e ∈ s.elements.items, ¬ (e.name = name ∧ e.type = t)) ∧
        elemGet s name t = (none, s)) := by
  have hshort : Short ⟨name, t, 0⟩ := hname
  have hdescends := packCmpName_ordered.descends h.short hshort h.weak
  rw [elemGet_sorted h.sorted]
  rcases bsearch_spec hdescends with ⟨e, hmem, hfound, hzero⟩ | ⟨hfound, hne⟩
  · obtain ⟨hn, ht⟩ := (packCmpName_eq_zero hshort (h.short e hmem)).mp hzero
    exact Or.inl ⟨e, hmem, hn.symm, ht.symm, congrArg (·, s) hfound⟩
  · refine Or.inr ⟨?_, congrArg (·, s) hfound⟩
    rintro e hmem ⟨hn, ht⟩
    exact hne e hmem ((packCmpName_eq_zero hshort (h.short e hmem)).mpr ⟨hn.symm, ht.symm⟩)

/-- The getters answer with what is stored. -/
theorem Filled.get (h : Filled s calls) (hname : cname.len < 2 ^ 31) (t : ElemType) :
    packGetArray s cname t = Except.ok (answer (storedUnder calls cname.1 t), s) := by
  unfold packGetArray
  rcases h.search cname.1 hname t with ⟨e, hmem, rfl', rfl, hget⟩ | ⟨hnone, hget⟩
  · have hlt := h.separate.bound e hmem
    have hvalues := h.values e hmem
    have hused := h.used e hmem
    rw [rfl'] at hvalues hused
    rw [valuesOf, List.getElem?_eq_getElem hlt] at hvalues
    dsimp only at hvalues
    have hnelts : (s.arrays[e.values]).nelts ≠ 0 := by
      rw [Slots.nelts, hvalues, List.length_map]
      exact fun hzero => hused (List.eq_nil_of_length_eq_zero hzero)
    simp only [hget, List.getElem?_eq_getElem hlt, if_neg hnelts, answer, if_neg hused, hvalues]
    rfl
  · have hnil : storedUnder calls cname.1 t = [] := by
      apply storedUnder_eq_nil
      rintro c hc ⟨hn, ht⟩
      obtain ⟨e, hmem, hen, het⟩ := h.covers c hc
      exact hnone e hmem ⟨hen.trans hn, het.trans ht⟩
    simp only [hget, hnil, answer, if_true]
    rfl

/-- The element of a call, before its value is added. -/
theorem Stocked.choose (h : Stocked s calls) (hname : name.length < 2 ^ 31)
    (hchosen : Chosen s s1 e name t) : Stocked s1 calls ∧ e.name = name ∧ e.type = t := by
  have hshort : Short ⟨name, t, 0⟩ := hname
  cases hchosen with
  | found same mem equal =>
    obtain ⟨hn, ht⟩ := (packCmpName_eq_zero hshort (h.short e mem)).mp equal
    rw [same]
    exact ⟨h, hn.symm, ht.symm⟩
  | created created absent =>
    obtain ⟨helem⟩ : Nonempty (e = ⟨name, t, s.arrays.length⟩) := ⟨created.elem⟩
    have heshort : Short e := by
      rw [helem]
      exact hname
    have hdescends := packCmpName_ordered.descends h.short hshort h.weak
    have hne : ∀ x ∈ s.elements.items, packCmpName ⟨name, t, 0⟩ x ≠ 0 := by
      rcases bsearch_spec hdescends with ⟨x, -, hfound, -⟩ | ⟨-, hne⟩
      · exact absurd (absent.symm.trans hfound) (by simp)
      · exact hne
    have hnew : ∀ x ∈ s.elements.items, ¬ (x.name = name ∧ x.type = t) := by
      rintro x hx ⟨hn, ht⟩
      exact hne x hx ((packCmpName_eq_zero hshort (h.short x hx)).mpr ⟨hn.symm, ht.symm⟩)
    have hne' : ∀ x ∈ s.elements.items, packCmpName e x ≠ 0 := by
      intro x hx hzero
      obtain ⟨hn, ht⟩ := (packCmpName_eq_zero heshort (h.short x hx)).mp hzero
      rw [helem] at hn ht
      exact hnew x hx ⟨hn.symm, ht.symm⟩
    obtain ⟨pos, hitems, hsigns⟩ := created.items
    obtain ⟨hbelow, habove⟩ := hsigns (packCmpName_ordered.ascends h.short heshort h.weak)
    refine ⟨⟨created.sorted, created.separate h.separate, ?_, ?_, ?_, ?_⟩, ?_, ?_⟩
    · intro x hx
      rcases created.mem_items.mp hx with rfl | hold
      · exact heshort
      · exact h.short x hold
    · rw [hitems]
      exact pairwise_insert packCmpName_ordered h.short heshort h.ordered hne' hbelow habove
    · intro c hc
      obtain ⟨x, hx, hsame⟩ := h.covers c hc
      exact ⟨x, created.mem_items.mpr (Or.inr hx), hsame⟩
    · intro x hx
      rcases created.mem_items.mp hx with rfl | hold
      · rw [created.valuesOf_new, storedUnder_eq_nil]
        · rfl
        · rintro c hc ⟨hn, ht⟩
          obtain ⟨y, hy, hyn, hyt⟩ := h.covers c hc
          rw [helem] at hn ht
          exact hnew y hy ⟨hyn.trans hn, hyt.trans ht⟩
      · rw [created.valuesOf_old (h.separate.bound x hold)]
        exact h.values x hold
    · rw [helem]
    · rw [helem]

/-- A call that succeeds adds its value. -/
theorem Filled.add (h : Filled s calls) (hname : cname.len < 2 ^ 31)
    (hadd : packAddValue s cname value = Except.ok (true, s')) :
    s'.pool.grants = s.pool.grants ∧ Filled s' (calls ++ [(cname, value)]) := by
  rcases packAddValue_cases h.sorted hadd with ⟨hfalse, -⟩ | ⟨e, s1, hfor, hchosen, -, happend⟩
  · cases hfalse
  · obtain ⟨hgrants, -⟩ := elemFor_chosen h.sorted hfor
    have hlen : cname.1.length < 2 ^ 31 := hname
    obtain ⟨hstock, hen, het⟩ := h.choose hlen hchosen
    have hvalue := happend rfl
    have helements : s'.elements = s1.elements := hvalue.elements
    have hseparate : Separate s' := hvalue.separate ⟨hstock.separate.bound, hstock.separate.distinct⟩
    have hother (x : Elem) (hx : x ∈ s1.elements.items) (hne : x ≠ e) :
        ¬ (cname.1 = x.name ∧ value.type = x.type) := by
      rintro ⟨hn, ht⟩
      exact hne (hstock.unique hx hchosen.mem (hn.symm.trans hen.symm) (ht.symm.trans het.symm))
    refine ⟨hvalue.grants.trans hgrants, ⟨?_, hseparate, ?_, ?_, ?_, ?_⟩, ?_⟩
    · rw [helements]
      exact hstock.sorted
    · rw [helements]
      exact hstock.short
    · rw [helements]
      exact hstock.ordered
    · rw [helements]
      intro c hc
      rcases List.mem_append.mp hc with hold | hnew
      · exact hstock.covers c hold
      · obtain rfl := List.mem_singleton.mp hnew
        exact ⟨e, hchosen.mem, hen, het⟩
    · rw [helements]
      intro x hx
      by_cases hxe : x = e
      · rw [hxe, hvalue.values, hen, het, storedUnder_add, List.map_append, ← hen, ← het,
          ← hstock.values e hchosen.mem]
        rfl
      · rw [hvalue.others x (hstock.separate.unique hx hchosen.mem hxe),
          storedUnder_other (hother x hx hxe), ← hstock.values x hx]
        rfl
    · rw [helements]
      intro x hx
      by_cases hxe : x = e
      · rw [hxe, hen, het, storedUnder_add]
        simp
      · rw [storedUnder_other (hother x hx hxe)]
        refine h.used x ?_
        cases hchosen with
        | found same mem equal => rwa [← same]
        | created created absent => exact (created.mem_items.mp hx).resolve_left hxe

theorem Added.filled {pool : Pool} (h : Added pool s calls) :
    s.pool.grants = pool.grants ∧ Filled s calls := by
  induction h with
  | init h => exact Filled.init h
  | add h hname hadd ih =>
    obtain ⟨hgrants, hfilled⟩ := ih
    obtain ⟨hgrants', hfilled'⟩ := hfilled.add hname hadd
    exact ⟨hgrants'.trans hgrants, hfilled'⟩

theorem Added.short {pool : Pool} (h : Added pool s calls) : ∀ c ∈ calls, c.1.len < 2 ^ 31 := by
  induction h with
  | init h => simp
  | add h hname hadd ih =>
    intro c hc
    rcases List.mem_append.mp hc with hold | hnew
    · exact ih c hold
    · rwa [List.mem_singleton.mp hnew]

/-- The getters return what was given, and a call changes nothing under other
names and types. -/
structure Keeps (s : Pack) (calls : List (CString × Addition)) : Prop where
  get : ∀ (name : CString) (t : ElemType), name.len < 2 ^ 31 →
    packGetArray s name t = Except.ok (answer (givenUnder calls name.1 t), s)
  frame : ∀ (name other : CString) (value : Addition) (t : ElemType) (s' : Pack),
    name.len < 2 ^ 31 → other.len < 2 ^ 31 → packAddValue s name value = Except.ok (true, s') →
    (other.1, t) ≠ (name.1, value.type) →
      ∃ values, packGetArray s other t = Except.ok (values, s) ∧
        packGetArray s' other t = Except.ok (values, s')

end

end HCore.PackHistory
