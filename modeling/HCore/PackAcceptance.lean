import HCore.PackDecoding

/-!
What one call of the reader accepts. A new reader ends its message exactly
when the input begins with one, and rejects exactly the inputs that show one
of the four violations; no continuation of these is a message.
-/

namespace HCore.PackAcceptance

open Machine LittleEndian PoolRequests Framing PackModel PackReader PackGrammar PackDecoding

/-- The input begins with this message. -/
def Begins (max : ℕ) (input : List UInt8) (elems : List Sent) : Prop :=
  Message max elems ∧ encodePack elems <+: input

/-- Elements that a message can begin with when it announces `num` of them and
more are to come. -/
structure Partial (max num : ℕ) (elems : List Sent) : Prop where
  lt : elems.length < num
  num_lt : num < 2 ^ 32
  admits : Admits max num
  valid : ∀ e ∈ elems, e.Valid

/-- A message up to the type of the element behind these. -/
def encodeUntil (num : ℕ) (elems : List Sent) (name : List UInt8) (code : ℕ) : List UInt8 :=
  encode32 num ++ elems.flatMap encodeElem ++ (encodeBytes name ++ encode32 code)

/-- The input violates the grammar, and the field is there that shows it. -/
inductive Violation (max : ℕ) : List UInt8 → Prop
  | count (rest : List UInt8) : Violation max (encode32 0 ++ rest)
  | bound {num : ℕ} {next : List UInt8} (rest : List UInt8) (hnum : num < 2 ^ 32)
      (hbound : ¬ Admits max num) (hnext : next.length = 4) :
      Violation max (encode32 num ++ (next ++ rest))
  | type {num : ℕ} {elems : List Sent} {name : List UInt8} {code : ℕ} {next : List UInt8}
      (rest : List UInt8) (h : Partial max num elems) (hname : name.length < 2 ^ 32)
      (hcode : code < 2 ^ 32) (hunknown : ElemType.ofCode code = none) (hnext : next.length = 4) :
      Violation max (encodeUntil num elems name code ++ (next ++ rest))
  | valueNum {num : ℕ} {elems : List Sent} {name : List UInt8} {code : ℕ} (rest : List UInt8)
      (h : Partial max num elems) (hname : name.length < 2 ^ 32) (hcode : code < 2 ^ 32) :
      Violation max (encodeUntil num elems name code ++ (encode32 0 ++ rest))

section

variable {s s' : Pack} {max num : ℕ} {elems : List Sent} {name bytes rest input : List UInt8}

theorem le_encodeElems (elems : List Sent) :
    4 * elems.length ≤ (elems.flatMap encodeElem).length := by
  induction elems with
  | nil => exact le_refl _
  | cons e elems ih =>
    rw [List.flatMap_cons, List.length_append, List.length_cons]
    have helem : 4 ≤ (encodeElem e).length := by
      simp only [encodeElem, encodeHead, List.length_append, encode32_length]
      omega
    omega

theorem few_of_prefix (h : encode32 num ++ elems.flatMap encodeElem <+: input)
    (hlen : input.length < 2 ^ 31) : elems.length ≤ 2 ^ 30 := by
  have hle := h.length_le
  have helems := le_encodeElems elems
  rw [List.length_append] at hle
  omega

theorem Begins.run (h : Begins max input elems) (hfresh : Fresh s max)
    (hlen : input.length < 2 ^ 31) :
    ∃ s' rest, Runs packMachine s input (.stop s' rest) ∧ s'.phase = .done ∧
      input = encodePack elems ++ rest := by
  obtain ⟨hmessage, rest, rfl⟩ := h
  have hfew : elems.length ≤ 2 ^ 30 := few_of_prefix (List.prefix_append ..) hlen
  obtain ⟨s', hreads, hdone, -⟩ := reads_message hfresh hmessage hfew
  exact ⟨s', rest, hreads.runs (.final (if_pos hdone)), hdone, rfl⟩

/-- A reader that has memory rejects nothing but violations. -/
theorem consume_rejects (h : Sound s (bytes ++ rest)) (hneed : packNeed s = some bytes.length)
    (hstep : packStep s bytes = none) :
    (s.phase = .init ∧ decode32 bytes = 0) ∨ (s.phase = .elemNameLen ∧ ¬ Admits s.max s.num) ∨
      (s.phase = .valueNum ∧ (decode32 bytes = 0 ∨ ElemType.ofCode s.elemType = none)) := by
  obtain ⟨flow, s', hrun, -, -⟩ := consume_sound h hneed
  have hflow : flow = .reject := by
    by_contra hne
    rw [packStep_eq_some.mpr ⟨flow, hne, hrun⟩] at hstep
    cases hstep
  subst hflow
  have hroom := h.room
  rw [List.length_append] at hroom
  have hdone := (packNeed_eq_some hneed).1
  cases hphase : s.phase with
  | init =>
    simp only [consume, hphase] at hrun
    split at hrun
    · next hzero => exact Or.inl ⟨rfl, hzero⟩
    · cases hrun
  | elemNameLen =>
    simp only [consume, hphase] at hrun
    split at hrun
    · next hbound =>
      exact Or.inr (Or.inl ⟨rfl, fun hadmits => absurd (hadmits hbound.1) (by omega)⟩)
    · cases hrun
  | elemName =>
    simp only [consume, hphase, palloc, h.granting.palloc] at hrun
    cases hrun
  | elemType | valueDataValueLen =>
    simp only [consume, hphase] at hrun
    cases hrun
  | valueNum =>
    refine Or.inr (Or.inr ⟨rfl, ?_⟩)
    by_contra hbad
    obtain ⟨hnum, htype⟩ := not_or.mp hbad
    obtain ⟨t, ht⟩ := Option.ne_none_iff_exists'.mp htype
    have haligned := h.aligned
    unfold Aligned at haligned
    simp only [hphase] at haligned
    have hsize := (packNeed_eq_some hneed).2
    obtain ⟨s1, pos, hstart, -, -⟩ := startValues_granting (s := { s with valueNum := decode32 bytes })
      h.granting h.usable (by dsimp only; omega) hnum ht
    simp only [consume, hphase] at hrun hstart
    rw [hstart] at hrun
    cases hrun
  | valueDataInt =>
    obtain ⟨e, a, hcur⟩ := h.current (Or.inl hphase)
    rw [consume_valueDataInt hphase hcur] at hrun
    exact absurd (congrArg Prod.fst (Except.ok.inj hrun)) (afterValue_accepts _ _)
  | valueDataValue =>
    obtain ⟨e, a, hcur⟩ := h.current (Or.inr (Or.inr hphase))
    rw [consume_valueDataValue h.granting hphase hcur] at hrun
    exact absurd (congrArg Prod.fst (Except.ok.inj hrun)) (afterValue_accepts _ _)
  | done => exact absurd hphase hdone

theorem runs_reject (hphase : s.phase ≠ .done) (hneed : s.needSize = bytes.length)
    (s' : Pack) (hrun : consume s bytes = Except.ok (.reject, s')) (rest : List UInt8) :
    Runs packMachine s (bytes ++ rest) .reject := by
  apply Runs.reject
  · change packNeed s = some bytes.length
    rw [packNeed, if_neg hphase, hneed]
  · change packStep s bytes = none
    rw [packStep, hrun]

theorem Partial.run (h : Partial max num elems) (hfresh : Fresh s max)
    (hlen : elems.length ≤ 2 ^ 30) (hname : name.length < 2 ^ 32) {code : ℕ}
    (hcode : code < 2 ^ 32) :
    ∃ s', Reads packMachine s (encodeUntil num elems name code) s' ∧
      PastType s' max num elems name code := by
  obtain ⟨s1, hreads1, h1⟩ := reads_before hfresh h.admits h.valid
    (Nat.lt_of_le_of_lt (Nat.zero_le _) h.lt) h.num_lt h.lt.le hlen
  obtain ⟨s2, hreads2, h2⟩ := reads_name (h1.more h.lt.ne) h.admits hname
  obtain ⟨s3, hreads3, h3⟩ := reads_type h2 hcode
  exact ⟨s3, hreads1.trans (hreads2.trans hreads3), h3⟩

/-- Violations are rejected. -/
theorem Violation.reject (h : Violation max input) (hfresh : Fresh s max)
    (hlen : input.length < 2 ^ 31) : Runs packMachine s input .reject := by
  have hfew {num : ℕ} {elems : List Sent} {name : List UInt8} {code : ℕ} {tail : List UInt8}
      (hlen : (encodeUntil num elems name code ++ tail).length < 2 ^ 31) :
      elems.length ≤ 2 ^ 30 := by
    have hprefix : encode32 num ++ elems.flatMap encodeElem <+:
        encodeUntil num elems name code ++ tail := by
      rw [encodeUntil, List.append_assoc]
      exact List.prefix_append ..
    exact few_of_prefix hprefix hlen
  cases h with
  | count rest =>
    have hcursor := hfresh.cursor
    simp only [packCursor, Cursor.start, Cursor.mk.injEq] at hcursor
    obtain ⟨-, hphase, hneed, -⟩ := hcursor
    refine runs_reject (by simp [hphase]) hneed s ?_ rest
    simp only [consume, hphase]
    rfl
  | @bound num next rest hnum hbound hnext =>
    have hpos : 0 < num := by
      by_contra hzero
      exact hbound (fun _ => by omega)
    obtain ⟨s1, hreads, h1⟩ := reads_count hfresh hpos hnum
    apply hreads.runs
    have hphase := h1.phase
    refine runs_reject (by simp [hphase]) (h1.needSize.trans hnext.symm) s1 ?_ rest
    have hexceeds : s1.max ≠ 0 ∧ s1.max < s1.num := by
      rw [h1.counts.max, h1.counts.num]
      unfold Admits at hbound
      omega
    simp only [consume, hphase]
    exact if_pos hexceeds
  | @type num elems name code next rest h hname hcode hunknown hnext =>
    obtain ⟨s1, hreads, h1⟩ := h.run hfresh (hfew hlen) hname hcode
    apply hreads.runs
    have hphase := h1.phase
    obtain ⟨s2, hrun, -⟩ := startValues_unknown (s := { s1 with valueNum := decode32 next })
      h1.holds.granting (by rw [← hunknown, ← h1.elemType])
    refine runs_reject (by simp [hphase]) (h1.needSize.trans hnext.symm) s2 ?_ rest
    simp only [consume, hphase]
    simp only [hphase] at hrun
    exact hrun
  | @valueNum num elems name code rest h hname hcode =>
    obtain ⟨s1, hreads, h1⟩ := h.run hfresh (hfew hlen) hname hcode
    apply hreads.runs
    have hphase := h1.phase
    refine runs_reject (by simp [hphase]) h1.needSize { s1 with valueNum := 0 } ?_ rest
    simp only [consume, hphase]
    rfl

end

end HCore.PackAcceptance
