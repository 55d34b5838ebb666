import HCore.PackAcceptance
import HCore.PackHistory
import Mathlib.Algebra.BigOperators.Group.List.Basic

/-!
The writer and the size that is kept for it. A pack whose slots all hold values
is written as the message of its elements. Every call that succeeds adds the
bytes of what was given to the size and the bytes of what is stored to the
message; the reader adds elements to the message and nothing to the size.
-/

namespace HCore.PackWriter

open Machine LittleEndian PoolRequests SortedList PackModel PackReader PackGrammar
  PackAcceptance PackContents PackHistory

/-- An element as it is written. -/
def sentOf (s : Pack) (e : Elem) : Sent := ⟨e.name, e.type, (valuesOf s e).reduceOption⟩

def sentElems (s : Pack) : List Sent := s.elements.items.map (sentOf s)

/-- The bytes of the message. -/
def messageSize (s : Pack) : ℕ := (encodePack (sentElems s)).length

def elemBytes (s : Pack) (e : Elem) : ℕ := (encodeElem (sentOf s e)).length

/-- All slots that were pushed have been written. -/
def Whole (s : Pack) (e : Elem) : Prop := ∃ values : List Value, valuesOf s e = values.map some

/-- A pack that can be written. -/
structure Writable (s : Pack) : Prop where
  sorted : s.elements.sorted = true
  separate : Separate s
  whole : ∀ e ∈ s.elements.items, Whole s e
  buf : s.buf = none

section

variable {s s1 s' : Pack} {e : Elem} {v : Value} {size : ℕ} {out bytes : List UInt8}
  {cname : CString} {value : Addition} {name : List UInt8} {t : ElemType}

theorem reduceOption_map_some (values : List Value) : (values.map some).reduceOption = values := by
  show List.filterMap id (values.map some) = values
  rw [List.filterMap_map]
  exact List.filterMap_some

theorem encodeElem_sentOf {values : List Value} (h : valuesOf s e = values.map some) :
    encodeElem (sentOf s e) = encodeBytes e.name ++ encode32 e.type.code ++
      encode32 values.length ++ values.flatMap encodeValue := by
  rw [sentOf, h, reduceOption_map_some]
  rfl

theorem messageSize_eq (s : Pack) :
    messageSize s = 4 + (s.elements.items.map (elemBytes s)).sum := by
  rw [messageSize, encodePack, List.length_append, encode32_length, List.length_flatMap, sentElems,
    List.map_map]
  rfl

theorem elemBytes_eq {values : List Value} (h : valuesOf s e = values.map some) :
    elemBytes s e = 12 + e.name.length + (values.map valueBytes).sum := by
  have hvalue : (fun v => (encodeValue v).length) = valueBytes := by
    funext v
    cases v with
    | int i => rfl
    | data bytes => exact encodeBytes_length bytes
  rw [elemBytes, encodeElem_sentOf h]
  simp only [List.length_append, encode32_length, encodeBytes_length, List.length_flatMap, hvalue]
  omega

/-- A message in which one element changes. -/
theorem messageSize_split {l r : List Elem} (h : s.elements.items = l ++ e :: r) :
    messageSize s = 4 + ((l ++ r).map (elemBytes s)).sum + elemBytes s e := by
  rw [messageSize_eq, h]
  simp only [List.map_append, List.map_cons, List.sum_append, List.sum_cons]
  omega

theorem Separate.split (h : Separate s) (he : e ∈ s.elements.items) :
    ∃ l r, s.elements.items = l ++ e :: r ∧ ∀ x ∈ l ++ r, x.values ≠ e.values := by
  obtain ⟨l, r, hitems⟩ := List.append_of_mem he
  have hdistinct := h.distinct
  rw [hitems, List.pairwise_middle (fun hab => hab.symm), List.pairwise_cons] at hdistinct
  exact ⟨l, r, hitems, fun x hx => (hdistinct.1 x hx).symm⟩

/-- A value makes the message longer by its bytes. -/
theorem Appends.writes (h : Appends s s' e v) (hs : Writable s) (he : e ∈ s.elements.items) :
    Writable s' ∧ messageSize s' = messageSize s + valueBytes v := by
  have helements := h.elements
  have hbuf : s'.buf = s.buf := by rw [h.same]
  obtain ⟨l, r, hitems, hothers⟩ := Separate.split hs.separate he
  obtain ⟨values, hvalues⟩ := hs.whole e he
  have hvalues' : valuesOf s' e = (values ++ [v]).map some := by
    rw [h.values, hvalues, List.map_append]
    rfl
  have hsame (x : Elem) (hx : x ∈ l ++ r) : valuesOf s' x = valuesOf s x :=
    h.others x (hothers x hx)
  have hbytes : (l ++ r).map (elemBytes s') = (l ++ r).map (elemBytes s) := by
    refine List.map_congr_left ?_
    intro x hx
    rw [elemBytes, elemBytes, sentOf, sentOf, hsame x hx]
  refine ⟨⟨?_, h.separate hs.separate, ?_, hbuf.trans hs.buf⟩, ?_⟩
  · rw [helements]
    exact hs.sorted
  · rw [helements]
    intro x hx
    rw [hitems, List.mem_append, List.mem_cons, or_left_comm, ← List.mem_append] at hx
    rcases hx with rfl | hother
    · exact ⟨_, hvalues'⟩
    · obtain ⟨others, hx⟩ := hs.whole x (by
        rw [hitems, List.mem_append, List.mem_cons, or_left_comm, ← List.mem_append]
        exact Or.inr hother)
      exact ⟨others, (hsame x hother).trans hx⟩
  · have hsum : ((values ++ [v]).map valueBytes).sum = (values.map valueBytes).sum + valueBytes v := by
      rw [List.map_append, List.sum_append, List.map_singleton, List.sum_singleton]
    rw [messageSize_split hitems, messageSize_split (helements ▸ hitems), hbytes,
      elemBytes_eq hvalues, elemBytes_eq hvalues', hsum]
    omega

/-- An element makes the message longer by its head, and is counted. -/
theorem Created.writes (h : Created s s' e name t) (hs : Writable s) :
    Writable s' ∧ messageSize s' = messageSize s + (12 + name.length) ∧
      s'.totalSize = s.totalSize + (12 + name.length) := by
  obtain ⟨pos, hitems, -⟩ := h.items
  have hbuf : s'.buf = s.buf := by rw [h.same]
  have htotal : s'.totalSize = s.totalSize + 4 + name.length + 4 + 4 := by rw [h.same]
  have hname : e.name = name := by rw [h.elem]
  have hnone : valuesOf s' e = ([] : List Value).map some := h.valuesOf_new
  have hsame (x : Elem) (hx : x ∈ s.elements.items) : valuesOf s' x = valuesOf s x :=
    h.valuesOf_old (hs.separate.bound x hx)
  have hbytes : s.elements.items.map (elemBytes s') = s.elements.items.map (elemBytes s) := by
    refine List.map_congr_left ?_
    intro x hx
    rw [elemBytes, elemBytes, sentOf, sentOf, hsame x hx]
  refine ⟨⟨h.sorted, h.separate hs.separate, ?_, hbuf.trans hs.buf⟩, ?_, by omega⟩
  · intro x hx
    rcases h.mem_items.mp hx with rfl | hold
    · exact ⟨_, hnone⟩
    · obtain ⟨values, hvalues⟩ := hs.whole x hold
      exact ⟨values, (hsame x hold).trans hvalues⟩
  · rw [messageSize_split hitems, List.take_append_drop, hbytes, elemBytes_eq hnone, messageSize_eq,
      hname, List.map_nil, List.sum_nil]
    omega

/-- A call that succeeds adds to the message and to the size. -/
theorem Writable.add (h : Writable s)
    (hadd : packAddValue s cname value = Except.ok (true, s')) :
    Writable s' ∧ ∃ head, messageSize s' = messageSize s + head + valueBytes (storedOf value) ∧
      s'.totalSize = s.totalSize + head + valueBytes (givenValue value) := by
  rcases packAddValue_cases h.sorted hadd with ⟨hfalse, -⟩ | ⟨e, s1, -, hchosen, -, happend⟩
  · cases hfalse
  · have hvalue := happend rfl
    have htotal : s'.totalSize = s1.totalSize + valueBytes (givenValue value) := by
      rw [hvalue.same]
      rfl
    have hmem := hchosen.mem
    cases hchosen with
    | found same mem equal =>
      rw [same] at hvalue htotal
      obtain ⟨hwritable, hsize⟩ :=
        Appends.writes hvalue ⟨h.sorted, ⟨h.separate.bound, h.separate.distinct⟩, h.whole, h.buf⟩ mem
      exact ⟨hwritable, 0, hsize, htotal⟩
    | created created absent =>
      obtain ⟨hs1, hsize1, htotal1⟩ := Created.writes created h
      obtain ⟨hwritable, hsize⟩ :=
        Appends.writes hvalue
          ⟨hs1.sorted, ⟨hs1.separate.bound, hs1.separate.distinct⟩, hs1.whole, hs1.buf⟩ hmem
      refine ⟨hwritable, _, hsize.trans (congrArg (· + _) hsize1), ?_⟩
      rw [htotal, htotal1]

theorem Writable.init {pool : Pool} {max : ℕ} (h : packInit pool max = some s) :
    Writable s ∧ messageSize s = s.totalSize := by
  obtain ⟨-, hfilled⟩ := Filled.init h
  have hnil : s.elements.items = [] ∧ s.buf = none ∧ s.totalSize = 4 := by
    unfold packInit at h
    split at h
    · cases h
    · next l pool1 hcreate =>
      unfold createList at hcreate
      split at hcreate
      · cases hcreate
      · cases hcreate
        cases h
        exact ⟨rfl, rfl, rfl⟩
  obtain ⟨hitems, hbuf, htotal⟩ := hnil
  refine ⟨⟨hfilled.sorted, hfilled.separate, ?_, hbuf⟩, ?_⟩
  · rw [hitems]
    simp
  · rw [messageSize_eq, hitems, htotal]
    rfl

end

/-- A call that fills a pack. -/
inductive Filling
  | add (name : CString) (value : Addition)
  | read (mem : Bytes) (buffer last : ℕ)

/-- The pack after a call: an addition that returned anything, or a read that
has come to the end of a message. -/
inductive Filling.Step (s : Pack) : Filling → Pack → Prop
  | add {name : CString} {value : Addition} {ok : Bool} {s' : Pack}
      (h : packAddValue s name value = Except.ok (ok, s')) : Step s (.add name value) s'
  | read {mem : Bytes} {buffer last : ℕ} {n : ℤ} {s' : Pack}
      (h : (packRead mem buffer last s).result = Except.ok (n, s')) (hdone : s'.phase = .done) :
      Step s (.read mem buffer last) s'

/-- The packs that allowed calls lead to. -/
inductive Run (allowed : Pack → Filling → Prop) : Pack → Prop
  | init {pool : Pool} {max : ℕ} {s : Pack} (h : packInit pool max = some s) : Run allowed s
  | step {s s' : Pack} {call : Filling} (h : Run allowed s) (hallowed : allowed s call)
      (hstep : call.Step s s') : Run allowed s'

end HCore.PackWriter
