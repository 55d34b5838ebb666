import HCore.PackIncremental
import HCore.PackWriter

/-!
What the writer emits for a filled pack is a message, and a new reader that is
given this message has the elements of the pack: in the same order, with the
same names, types and stored values.
-/

namespace HCore.PackRoundTrip

open Machine LittleEndian PoolRequests SortedList Framing PackModel PackReader PackGrammar
  PackDecoding PackIncremental PackContents PackHistory PackWriter

/-- The bytes of the string or data of an addition. -/
def givenSize : Addition → ℕ
  | .int _ => 0
  | .str str => str.len
  | .data _ _ size => size

section

variable {s r : Pack} {pool : Pool} {calls : List (CString × Addition)} {value : Addition} {e : Elem}

theorem storedOf_fits (h : givenSize value < 2 ^ 32) : FitsType value.type (storedOf value) := by
  cases value with
  | int i => exact ⟨rfl, i.toNat_lt⟩
  | str str =>
    have hle : (untilNul str.bytes).length ≤ str.bytes.length :=
      (List.takeWhile_prefix _).length_le
    rw [Str.bytes, window_length] at hle
    exact ⟨by simp [Addition.type], Nat.lt_of_le_of_lt hle h⟩
  | data mem p size =>
    refine ⟨by simp [Addition.type], ?_⟩
    rw [window_length]
    exact h

theorem storedUnder_type {v : Value} {name : List UInt8} {t : ElemType}
    (h : v ∈ storedUnder calls name t) : ∃ c ∈ calls, c.2.type = t ∧ storedOf c.2 = v := by
  obtain ⟨c, hc, rfl⟩ := List.mem_map.mp h
  obtain ⟨hmem, hsame⟩ := List.mem_filter.mp hc
  have htype := (of_decide_eq_true hsame).2
  exact ⟨c, hmem, htype, rfl⟩

theorem sentOf_filled (h : Filled s calls) (he : e ∈ s.elements.items) :
    sentOf s e = ⟨e.name, e.type, storedUnder calls e.name e.type⟩ := by
  rw [sentOf, h.values e he, reduceOption_map_some]

/-- The elements of a filled pack are a message. -/
theorem Filled.message {max : ℕ} (h : Filled s calls) (hne : calls ≠ [])
    (hsizes : ∀ c ∈ calls, givenSize c.2 < 2 ^ 32) (helems : s.elements.items.length < 2 ^ 30)
    (hvalues : ∀ e ∈ s.elements.items, (valuesOf s e).length < 2 ^ 30)
    (hmax : max = 0 ∨ s.elements.items.length ≤ max) : Message max (sentElems s) := by
  have hlength : (sentElems s).length = s.elements.items.length := List.length_map ..
  constructor
  · obtain ⟨c, hc⟩ := List.exists_mem_of_ne_nil calls hne
    obtain ⟨e, he, -⟩ := h.covers c hc
    rw [hlength]
    exact List.length_pos_of_mem he
  · omega
  · intro hzero
    rw [hlength]
    exact hmax.resolve_left hzero
  · intro x hx
    obtain ⟨e, he, rfl⟩ := List.mem_map.mp hx
    have hshort : e.name.length < 2 ^ 31 := h.short e he
    have hfew := hvalues e he
    rw [h.values e he, List.length_map] at hfew
    rw [sentOf_filled h he]
    constructor
    · dsimp only
      omega
    · exact List.length_pos_iff.mpr (h.used e he)
    · dsimp only
      omega
    · intro v hv
      obtain ⟨c, hc, htype, rfl⟩ := storedUnder_type hv
      rw [← htype]
      exact storedOf_fits (hsizes c hc)

end

end HCore.PackRoundTrip
