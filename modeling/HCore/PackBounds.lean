import HCore.PackAcceptance

/-!
The addresses that a call of the reader reads. The phases read what they have
waited for, but a string is copied by a loop that looks at the byte behind it
when it has no NUL. A call leaves its buffer exactly when such a string ends
where the buffer ends.
-/

namespace HCore.PackBounds

open Machine LittleEndian PoolRequests Framing PackModel PackReader PackGrammar PackDecoding
  PackAcceptance

/-- A reader after any calls, on any buffers, with any answers of its pool. -/
inductive Reached : Pack → Prop
  | init {pool : Pool} {max : ℕ} {s : Pack} (h : packInit pool max = some s) : Reached s
  | read {s s' : Pack} {mem : Bytes} {buffer last : ℕ} {r : ℤ} (h : Reached s)
      (hrun : (packRead mem buffer last s).result = Except.ok (r, s')) : Reached s'

/-- All addresses that the call reads lie in the buffer. -/
def ReadsInside (mem : Bytes) (buffer last : ℕ) (s : Pack) : Prop :=
  ∀ a ∈ (packRead mem buffer last s).reads, buffer ≤ a ∧ a < last

/-- The next piece is a string without a NUL in it. -/
def OpenString (c : Cursor) (v : List UInt8) : Prop :=
  c.phase = .valueDataValue ∧ c.elemType = ElemType.str.code ∧ c.needSize = v.length ∧ v ≠ [] ∧
    (0 : UInt8) ∉ v

/-- The bytes end with such a string. -/
def CutString (c : Cursor) (bytes : List UInt8) : Prop :=
  ∃ before v c', bytes = before ++ v ∧ Reads cursorMachine c before c' ∧ OpenString c' v

section

variable {α β : Type}

@[simp] theorem reads_pure (a : α) : (pure a : Traced α).reads = [] := rfl

@[simp] theorem reads_lift (x : Exec α) : (Traced.lift x).reads = [] := rfl

theorem mem_reads_bind {x : Traced α} {f : α → Traced β} {a : ℕ} :
    a ∈ (x >>= f).reads ↔ a ∈ x.reads ∨ ∃ v, x.result = Except.ok v ∧ a ∈ (f v).reads := by
  change a ∈ (Traced.bind x f).reads ↔ _
  unfold Traced.bind
  cases x.result with
  | error e => simp
  | ok v => simp

theorem mem_memcpy {mem : Bytes} {p n a : ℕ} : a ∈ (memcpy mem p n).reads ↔ p ≤ a ∧ a < p + n := by
  simp [memcpy, List.mem_range'_1]

theorem mem_packReadInt {mem : Bytes} {p a : ℕ} :
    a ∈ (packReadInt mem p).reads ↔ p ≤ a ∧ a < p + 4 := by
  simp [packReadInt, mem_reads_bind, mem_memcpy]

/-- The copying loop looks behind the string exactly when it finds no NUL. -/
theorem copyString_reads {mem : Bytes} {n p a : ℕ} (h : a ∈ (copyString mem n p).reads) :
    p ≤ a ∧ (a < p + n ∨ a = p + n ∧ (0 : UInt8) ∉ window mem p n) := by
  induction n generalizing p with
  | zero =>
    have ha : a = p := by simpa [copyString, mem_reads_bind, peek] using h
    subst ha
    exact ⟨le_refl _, Or.inr ⟨rfl, by simp [window]⟩⟩
  | succ n ih =>
    rw [copyString, mem_reads_bind] at h
    rcases h with h | ⟨v, hv, h⟩
    · have ha : a = p := by simpa [peek] using h
      subst ha
      exact ⟨le_refl _, Or.inl (by omega)⟩
    · obtain rfl : mem p = v := Except.ok.inj hv
      split at h
      · simp at h
      · next hne =>
        simp only [mem_reads_bind, reads_pure, List.not_mem_nil, and_false, exists_false,
          or_false] at h
        obtain ⟨hle, hlt | ⟨rfl, hnul⟩⟩ := ih h
        · exact ⟨by omega, Or.inl (by omega)⟩
        · refine ⟨by omega, Or.inr ⟨by omega, ?_⟩⟩
          rw [window_succ, List.mem_cons, not_or]
          exact ⟨Ne.symm hne, hnul⟩

theorem last_mem_copyString {mem : Bytes} {n p : ℕ} (h : (0 : UInt8) ∉ window mem p n) :
    p + n ∈ (copyString mem n p).reads := by
  induction n generalizing p with
  | zero => simp [copyString, mem_reads_bind, peek]
  | succ n ih =>
    rw [window_succ, List.mem_cons, not_or] at h
    have hrest := ih h.2
    rw [copyString, mem_reads_bind]
    refine Or.inr ⟨mem p, rfl, ?_⟩
    rw [if_neg (Ne.symm h.1), mem_reads_bind]
    rw [Nat.add_right_comm] at hrest
    exact Or.inl hrest

theorem snprintfString_reads {mem : Bytes} {n p a : ℕ} (h : a ∈ (snprintfString mem n p).reads) :
    p ≤ a ∧ (a < p + n ∨ a = p + n ∧ n ≠ 0 ∧ (0 : UInt8) ∉ window mem p n) := by
  unfold snprintfString at h
  split at h
  · simp at h
  · next hn =>
    obtain ⟨hle, hlt | ⟨heq, hnul⟩⟩ := copyString_reads h
    · exact ⟨hle, Or.inl hlt⟩
    · exact ⟨hle, Or.inr ⟨heq, hn, hnul⟩⟩

end

section

variable {s s' : Pack} {bytes rest : List UInt8} {e : Elem} {mem : Bytes} {p n a : ℕ}

theorem elemAddStr_reads {str : Str} (h : a ∈ (elemAddStr s e str).reads) :
    a ∈ (snprintfString str.mem str.len str.data).reads := by
  unfold elemAddStr at h
  rw [mem_reads_bind] at h
  rcases h with h | ⟨⟨ok, s1⟩, -, h⟩
  · simp at h
  · cases ok with
    | false => simp at h
    | true =>
      dsimp only at h
      rw [if_pos rfl] at h
      split at h
      · simp at h
      · rw [mem_reads_bind] at h
        rcases h with h | ⟨v, -, h⟩
        · exact h
        · simp at h

theorem elemAddData_reads (h : a ∈ (elemAddData s e mem p n).reads) : p ≤ a ∧ a < p + n := by
  unfold elemAddData at h
  rw [mem_reads_bind] at h
  rcases h with h | ⟨⟨ok, s1⟩, -, h⟩
  · simp at h
  · cases ok with
    | false => simp at h
    | true =>
      dsimp only at h
      rw [if_pos rfl] at h
      split at h
      · simp at h
      · rw [mem_reads_bind] at h
        rcases h with h | ⟨v, -, h⟩
        · exact mem_memcpy.mp h
        · simp at h

/-- A round reads what it waits for, and one byte more of a string that has no
NUL. -/
theorem readPhase_reads (haligned : Aligned s) (h : a ∈ (readPhase mem p s).reads) :
    p ≤ a ∧ (a < p + s.needSize ∨
      a = p + s.needSize ∧ OpenString (packCursor s) (window mem p s.needSize)) := by
  have hinside (hlt : p ≤ a ∧ a < p + s.needSize) : p ≤ a ∧ (a < p + s.needSize ∨
      a = p + s.needSize ∧ OpenString (packCursor s) (window mem p s.needSize)) :=
    ⟨hlt.1, Or.inl hlt.2⟩
  unfold Aligned at haligned
  unfold readPhase at h
  cases hphase : s.phase with
  | init =>
    simp only [hphase] at haligned h
    rw [mem_reads_bind, mem_packReadInt] at h
    rcases h with h | ⟨v, -, h⟩
    · exact hinside (by omega)
    · split at h <;> simp at h
  | elemNameLen =>
    simp only [hphase] at haligned h
    split at h
    · simp at h
    · rw [mem_reads_bind, mem_packReadInt] at h
      rcases h with h | ⟨v, -, h⟩
      · exact hinside (by omega)
      · simp at h
  | elemName =>
    simp only [hphase, palloc] at haligned h
    cases hgrant : (s.pool.palloc s.elemNameLen).1 with
    | false =>
      rw [hgrant] at h
      simp at h
    | true =>
      rw [hgrant] at h
      dsimp only at h
      rw [mem_reads_bind, mem_memcpy] at h
      rcases h with h | ⟨v, -, h⟩
      · exact hinside (by rw [haligned]; exact h)
      · simp at h
  | elemType | valueDataValueLen =>
    simp only [hphase] at haligned h
    rw [mem_reads_bind, mem_packReadInt] at h
    rcases h with h | ⟨v, -, h⟩
    · exact hinside (by omega)
    · simp at h
  | valueNum =>
    simp only [hphase] at haligned h
    rw [mem_reads_bind, mem_packReadInt] at h
    rcases h with h | ⟨v, -, h⟩
    · exact hinside (by omega)
    · rw [mem_reads_bind] at h
      rcases h with h | ⟨w, -, h⟩ <;> simp at h
  | valueDataInt =>
    simp only [hphase] at haligned h
    rw [mem_reads_bind, mem_packReadInt] at h
    rcases h with h | ⟨v, -, h⟩
    · exact hinside (by omega)
    · split at h
      · simp at h
      · rw [mem_reads_bind] at h
        rcases h with h | ⟨⟨ok, s1⟩, -, h⟩
        · simp at h
        · cases ok <;> simp at h
  | valueDataValue =>
    simp only [hphase] at haligned h
    split at h
    · simp at h
    · split at h
      · next htype =>
        rw [mem_reads_bind] at h
        rcases h with h | ⟨⟨ok, s1⟩, -, h⟩
        · obtain ⟨hle, hlt | ⟨rfl, hpos, hnul⟩⟩ := snprintfString_reads (elemAddStr_reads h)
          · exact hinside ⟨hle, by rw [haligned]; exact hlt⟩
          · refine ⟨hle, Or.inr ⟨by rw [haligned], hphase, htype, (window_length ..).symm, ?_, ?_⟩⟩
            · rw [← List.length_pos_iff, window_length, haligned]
              exact Nat.pos_of_ne_zero hpos
            · rw [haligned]
              exact hnul
        · cases ok <;> simp at h
      · rw [mem_reads_bind] at h
        rcases h with h | ⟨⟨ok, s1⟩, -, h⟩
        · exact hinside (by rw [haligned]; exact elemAddData_reads h)
        · cases ok <;> simp at h
  | done =>
    simp only [hphase] at h
    simp at h

theorem CutString.piece {t : Pack} (h : CutString (packCursor t) rest) {flow : Flow}
    (hneed : packNeed s = some bytes.length) (hrun : consume s bytes = Except.ok (flow, t))
    (hflow : flow ≠ .reject) : CutString (packCursor s) (bytes ++ rest) := by
  obtain ⟨before, v, c, rfl, hreads, hopen⟩ := h
  refine ⟨bytes ++ before, v, c, (List.append_assoc ..).symm, ?_, hopen⟩
  exact .piece hneed (consume_cursor hneed hrun hflow) hreads

/-- The loop stays in the buffer, unless a string without a NUL ends with it. -/
theorem readLoop_reads {last fuel : ℕ} (hs : Aligned s) (hle : p ≤ last)
    (h : a ∈ (readLoop mem last fuel p s).reads) :
    p ≤ a ∧ (a < last ∨ CutString (packCursor s) (window mem p (last - p))) := by
  induction fuel generalizing p s with
  | zero => simp [readLoop] at h
  | succ fuel ih =>
    rw [readLoop] at h
    split at h
    · next hfits =>
      rw [mem_reads_bind] at h
      have hsplit : window mem p (last - p) =
          window mem p s.needSize ++ window mem (p + s.needSize) (last - (p + s.needSize)) := by
        rw [← window_add]
        congr 1
        omega
      rcases h with h | ⟨⟨flow, q, t⟩, hround, h⟩
      · obtain ⟨hge, hlt | ⟨rfl, hopen⟩⟩ := readPhase_reads hs h
        · exact ⟨hge, Or.inl (by omega)⟩
        · refine ⟨hge, ?_⟩
          rcases Nat.lt_or_eq_of_le hfits with hlt | heq
          · exact Or.inl hlt
          · refine Or.inr ⟨[], _, _, ?_, .nil, hopen⟩
            rw [hsplit, heq, Nat.sub_self, List.nil_append]
            exact List.append_nil _
      · cases flow with
        | done | reject => simp at h
        | next =>
          have hconsume := readPhase_consume mem p hs
          rw [hround] at hconsume
          have hrun : consume s (window mem p s.needSize) = Except.ok (.next, t) := hconsume.symm
          by_cases hdone : s.phase = .done
          · simp only [consume, hdone] at hrun
            cases hrun
          · have hneed : packNeed s = some (window mem p s.needSize).length := by
              rw [packNeed, if_neg hdone, window_length]
            have hgoes := consume_goes hs hneed hrun (by simp)
            obtain rfl := readPhase_addr hs hround (by simp) hdone
            obtain ⟨hge, hlt | hcut⟩ := ih hgoes.aligned hfits h
            · exact ⟨by omega, Or.inl hlt⟩
            · refine ⟨by omega, Or.inr ?_⟩
              rw [hsplit]
              exact CutString.piece hcut hneed hrun (by simp)
    · simp at h

theorem Stores.phase (h : Stores s s') : s'.phase = s.phase := by rw [h]

theorem Stores.needSize (h : Stores s s') : s'.needSize = s.needSize := by rw [h]

/-- A round that is rejected leaves the reader where it is. -/
theorem startValues_rejected (h : startValues s = Except.ok (.reject, s')) :
    s'.phase = s.phase ∧ s'.needSize = s.needSize := by
  unfold startValues at h
  split at h
  · cases h
    exact ⟨rfl, rfl⟩
  · have hstores := elemCreate_stores { s with curValueNum := 0 } (s.elemName.take s.elemNameLen)
      s.elemType s.valueNum
    generalize elemCreate { s with curValueNum := 0 } (s.elemName.take s.elemNameLen) s.elemType
      s.valueNum = created at h hstores
    obtain ⟨e?, s1⟩ := created
    have hphase := Stores.phase hstores
    have hneed := Stores.needSize hstores
    dsimp only at hphase hneed
    cases e? with
    | none =>
      cases h
      exact ⟨hphase, hneed⟩
    | some e =>
      obtain ⟨⟨elements, pool⟩, -, h⟩ := bind_eq_ok.mp h
      dsimp only at h
      split at h
      · cases h
      · cases h
      · cases h
        exact ⟨hphase, hneed⟩

theorem Stores.aligned (hstores : Stores s s') (h : Aligned s) : Aligned s' := by
  rw [hstores]
  exact h

theorem consume_aligned {flow : Flow} (h : Aligned s) (hneed : packNeed s = some bytes.length)
    (hrun : consume s bytes = Except.ok (flow, s')) : Aligned s' := by
  by_cases hflow : flow = .reject
  · subst hflow
    have haligned := h
    unfold Aligned at haligned
    unfold consume at hrun
    cases hphase : s.phase with
    | init | elemNameLen =>
      simp only [hphase] at hrun
      split at hrun
      · cases hrun
        exact h
      · cases hrun
    | elemName =>
      simp only [hphase, palloc] at hrun haligned
      cases hgrant : (s.pool.palloc s.elemNameLen).1 with
      | false =>
        rw [hgrant] at hrun
        cases hrun
        unfold Aligned
        dsimp only
        exact haligned
      | true =>
        rw [hgrant] at hrun
        cases hrun
    | elemType | valueDataValueLen =>
      simp only [hphase] at hrun
      cases hrun
    | valueNum =>
      simp only [hphase] at hrun haligned
      obtain ⟨hphase', hneed'⟩ := startValues_rejected hrun
      unfold Aligned
      rw [hphase']
      dsimp only
      rw [hneed']
      exact haligned
    | valueDataInt =>
      simp only [hphase] at hrun
      cases hcur : s.curElem with
      | none =>
        simp only [hcur] at hrun
        cases hrun
      | some e =>
        simp only [hcur] at hrun
        obtain ⟨⟨ok, s1⟩, h1, hrun⟩ := bind_eq_ok.mp hrun
        have hs1 := Stores.aligned (elemAddInt_stores h1)
        simp only [hphase] at haligned
        cases ok with
        | false =>
          cases hrun
          exact hs1 haligned
        | true =>
          exact absurd (congrArg Prod.fst (Except.ok.inj hrun)) (afterValue_accepts _ _)
    | valueDataValue =>
      simp only [hphase] at hrun
      cases hcur : s.curElem with
      | none =>
        simp only [hcur] at hrun
        cases hrun
      | some e =>
        simp only [hcur] at hrun
        rw [ite_bind] at hrun
        obtain ⟨⟨ok, s1⟩, h1, hrun⟩ := bind_eq_ok.mp hrun
        have hs1 : Aligned s1 := by
          split at h1
          · exact Stores.aligned (elemStore_stores h1) h
          · exact Stores.aligned (elemStore_stores h1) h
        cases ok with
        | false =>
          cases hrun
          exact hs1
        | true =>
          exact absurd (congrArg Prod.fst (Except.ok.inj hrun)) (afterValue_accepts _ _)
    | done => exact absurd hphase (packNeed_eq_some hneed).1
  · exact (consume_goes h hneed hrun hflow).aligned

theorem readPhase_aligned {flow : Flow} {q : ℕ} (h : Aligned s)
    (hrun : (readPhase mem p s).result = Except.ok (flow, q, s')) : Aligned s' := by
  have hconsume := readPhase_consume mem p h
  rw [hrun] at hconsume
  have hround : consume s (window mem p s.needSize) = Except.ok (flow, s') := hconsume.symm
  by_cases hdone : s.phase = .done
  · simp only [consume, hdone] at hround
    cases hround
    unfold Aligned
    rw [hdone]
    trivial
  · refine consume_aligned h ?_ hround
    rw [packNeed, if_neg hdone, window_length]

theorem readLoop_aligned {last fuel q : ℕ} {flow : Flow} (h : Aligned s)
    (hrun : (readLoop mem last fuel p s).result = Except.ok (flow, q, s')) : Aligned s' := by
  induction fuel generalizing p s with
  | zero =>
    rw [readLoop] at hrun
    cases hrun
  | succ fuel ih =>
    rw [readLoop] at hrun
    split at hrun
    · rw [result_bind] at hrun
      obtain ⟨⟨flow', q', t⟩, hround, hrun⟩ := bind_eq_ok.mp hrun
      have ht := readPhase_aligned h hround
      cases flow' with
      | next => exact ih ht hrun
      | done | reject =>
        cases hrun
        exact ht
    · cases hrun
      exact h

theorem Reached.aligned (h : Reached s) : Aligned s := by
  induction h with
  | @init pool max s hinit =>
    unfold packInit at hinit
    split at hinit
    · cases hinit
    · cases hinit
      rfl
  | @read s s' mem buffer last r _ hrun ih =>
    unfold packRead at hrun
    split at hrun
    · cases hrun
      exact ih
    · rw [result_bind] at hrun
      obtain ⟨⟨flow, q, t⟩, hloop, hrun⟩ := bind_eq_ok.mp hrun
      have ht := readLoop_aligned ih hloop
      cases flow <;> cases hrun <;> exact ht

theorem readsInside_of_not_cut {buffer last : ℕ} (h : Reached s) (hle : buffer ≤ last)
    (hcut : ¬ CutString (packCursor s) (window mem buffer (last - buffer))) :
    ReadsInside mem buffer last s := by
  intro a ha
  unfold packRead at ha
  rw [if_neg (by omega), mem_reads_bind] at ha
  rcases ha with ha | ⟨⟨flow, q, t⟩, -, ha⟩
  · obtain ⟨hge, hlt | hcut'⟩ := readLoop_reads h.aligned hle ha
    · exact ⟨hge, hlt⟩
    · exact absurd hcut' hcut
  · cases flow <;> simp at ha

/-- A reader that has memory reads what its cursor reads. -/
theorem sound_lift {input : List UInt8} {c : Cursor} (hs : Sound s (input ++ rest))
    (h : Reads cursorMachine (packCursor s) input c) :
    ∃ t, Reads packMachine s input t ∧ packCursor t = c := by
  generalize hstart : packCursor s = c0 at h
  induction h generalizing s with
  | nil => exact ⟨s, .nil, hstart⟩
  | @piece c0 c1 c bytes input hneed hstep _ ih =>
    subst hstart
    rw [List.append_assoc] at hs
    have hneed' : packNeed s = some bytes.length := hneed
    have hstep' : (packCursor s).step bytes = some c1 := hstep
    cases hround : packStep s bytes with
    | none =>
      simp only [Cursor.step, packCursor] at hstep'
      rcases consume_rejects hs hneed' hround with ⟨hphase, hzero⟩ | ⟨hphase, hbound⟩ |
          ⟨hphase, hzero | htype⟩
      · simp [hphase, hzero] at hstep'
      · have hmax : s.max ≠ 0 ∧ s.max < s.num := by
          unfold Admits at hbound
          omega
        simp [hphase, hmax.1, hmax.2] at hstep'
      · simp [hphase, hzero] at hstep'
      · simp [hphase, htype] at hstep'
    | some u =>
      obtain ⟨flow, hflow, hrun⟩ := packStep_eq_some.mp hround
      have hcursor := consume_cursor hneed' hrun hflow
      rw [hstep'] at hcursor
      obtain ⟨t, hreads, ht⟩ := ih (packMachine_kept s bytes _ u hs hneed' hround)
        (Option.some.inj hcursor).symm
      exact ⟨t, .piece hneed hround hreads, ht⟩

/-- The loop comes to every state that its input leads to. -/
theorem readLoop_comes {input : List UInt8} {t : Pack} {last fuel : ℕ} (hs : Aligned s)
    (h : Reads packMachine s input t) (hdone : t.phase ≠ .done) (hmem : HoldsAt mem p input)
    (hlast : p + input.length + rest.length = last)
    (hfuel : rounds packMachine s (input ++ rest) < fuel) :
    ∃ fuel', rounds packMachine t rest < fuel' ∧
      ∀ a ∈ (readLoop mem last fuel' (p + input.length) t).reads,
        a ∈ (readLoop mem last fuel p s).reads := by
  induction h generalizing p fuel with
  | nil => exact ⟨fuel, hfuel, fun a ha => ha⟩
  | @piece s u t bytes input hneed hstep hreads ih =>
    obtain ⟨fuel, rfl⟩ : ∃ k, fuel = k + 1 := ⟨fuel - 1, by omega⟩
    obtain ⟨hbytes, htail⟩ := hmem.append
    obtain ⟨hphase, hsize⟩ := packNeed_eq_some hneed
    obtain ⟨flow, hflow, hrun⟩ := packStep_eq_some.mp hstep
    have hgoes := consume_goes hs hneed hrun hflow
    obtain ⟨q, hround, hq⟩ := readPhase_of_consume hs hbytes hsize hphase hrun
    obtain rfl := hq hflow
    have hmore : u.phase ≠ .done := by
      cases hreads with
      | nil => exact hdone
      | piece hneed' => exact (packNeed_eq_some hneed').1
    have hnext : flow = .next := by
      cases flow with
      | next => rfl
      | done => exact absurd (hgoes.done.mp rfl) hmore
      | reject => exact absurd rfl hflow
    rw [List.length_append] at hlast
    rw [List.append_assoc] at hfuel
    have hlt : rounds packMachine u (input ++ rest) < rounds packMachine s (bytes ++ (input ++ rest)) :=
      rounds_lt packMachine_productive hs hneed hstep
    have hless : rounds packMachine u (input ++ rest) < fuel := by omega
    obtain ⟨fuel', hfuel', hall⟩ := ih hgoes.aligned hdone htail (by omega) hless
    refine ⟨fuel', hfuel', fun a ha => ?_⟩
    rw [List.length_append, ← Nat.add_assoc] at ha
    rw [readLoop, if_pos (by omega), mem_reads_bind]
    refine Or.inr ⟨_, hround, ?_⟩
    rw [hnext]
    exact hall a ha

/-- The byte behind a string without a NUL is read. -/
theorem openString_reads (h : Sound s rest)
    (hopen : OpenString (packCursor s) (window mem p s.needSize)) :
    p + s.needSize ∈ (readPhase mem p s).reads := by
  obtain ⟨hphase, htype, -, hne, hnul⟩ := hopen
  simp only [packCursor] at hphase htype
  obtain ⟨e, a, hcur⟩ := h.current (Or.inr (Or.inr hphase))
  have hnelts := hcur.nelts
  have hnalloc := hcur.nalloc
  have hroom := hcur.room
  have hlt := hcur.lt
  have haligned := h.aligned
  unfold Aligned at haligned
  simp only [hphase] at haligned
  have hpos : s.valueLen ≠ 0 := by
    rw [← haligned]
    intro hzero
    rw [hzero] at hne
    exact hne rfl
  have hpush := pushValue_spare (s := s) hcur.array (by omega) (by omega)
  rw [readPhase, hphase]
  dsimp only
  rw [hcur.elem]
  dsimp only
  rw [if_pos htype, mem_reads_bind]
  refine Or.inl ?_
  unfold elemAddStr
  rw [mem_reads_bind]
  refine Or.inr ⟨_, hpush, ?_⟩
  dsimp only
  rw [if_pos rfl]
  simp only [palloc, replaceArray, h.granting.palloc]
  rw [mem_reads_bind]
  refine Or.inl ?_
  rw [haligned] at hnul ⊢
  rw [snprintfString, if_neg hpos]
  exact last_mem_copyString hnul

theorem last_read_of_cut {buffer last : ℕ} (hs : Sound s (window mem buffer (last - buffer)))
    (hle : buffer ≤ last) (hcut : CutString (packCursor s) (window mem buffer (last - buffer))) :
    last ∈ (packRead mem buffer last s).reads := by
  obtain ⟨before, v, c, hbytes, hreads, hopen⟩ := hcut
  rw [hbytes] at hs
  obtain ⟨t, hreads', rfl⟩ := sound_lift hs hreads
  have ht := packMachine_kept.reads hreads' hs
  have hlength := congrArg List.length hbytes
  rw [window_length, List.length_append] at hlength
  have hmem : HoldsAt mem buffer (before ++ v) := by
    unfold HoldsAt
    rw [List.length_append, ← hlength, hbytes]
  obtain ⟨hbefore, hv⟩ := hmem.append
  have hphase : t.phase = .valueDataValue := hopen.1
  have hsize : t.needSize = v.length := hopen.2.2.1
  have hdone : t.phase ≠ .done := by simp [hphase]
  have hfuel : rounds packMachine s (before ++ v) < readFuel (last - buffer) := by
    unfold rounds readFuel
    rw [List.length_append]
    split <;> omega
  obtain ⟨fuel, hfuel', hall⟩ := readLoop_comes hs.aligned hreads' hdone hbefore
    (show buffer + before.length + v.length = last by omega) hfuel
  obtain ⟨fuel, rfl⟩ : ∃ k, fuel = k + 1 := ⟨fuel - 1, by omega⟩
  have hopen' : OpenString (packCursor t) (window mem (buffer + before.length) t.needSize) := by
    rw [hsize, hv]
    exact hopen
  have hread := openString_reads ht hopen'
  unfold packRead
  rw [if_neg (by omega), mem_reads_bind]
  refine Or.inl (hall last ?_)
  rw [readLoop, if_pos (by omega), mem_reads_bind]
  refine Or.inl ?_
  have hend : last = buffer + before.length + t.needSize := by omega
  rw [hend]
  exact hread

/-- The calls of a reader stay in their buffers as long as no string without a
NUL ends with the buffer, and only then when there is memory for the elements. -/
theorem reads_inside {buffer last : ℕ} (h : Reached s) (hle : buffer ≤ last) :
    (¬ CutString (packCursor s) (window mem buffer (last - buffer)) →
      ReadsInside mem buffer last s) ∧
    (Sound s (window mem buffer (last - buffer)) → ReadsInside mem buffer last s →
      ¬ CutString (packCursor s) (window mem buffer (last - buffer))) := by
  refine ⟨readsInside_of_not_cut h hle, ?_⟩
  intro hs hinside hcut
  exact absurd (hinside last (last_read_of_cut hs hle hcut)).2 (lt_irrefl _)

end

/-- The count alone is read inside its four bytes. -/
theorem reads_inside_count : ∃ s, packInit amplePool 0 = some s ∧ ReadsInside (fun _ => 1) 0 4 s := by
  obtain ⟨s, hinit⟩ := packInit_granting amplePool_granting 0
  refine ⟨s, hinit, (reads_inside (.init hinit) (Nat.zero_le 4)).1 ?_⟩
  intro hcut
  obtain ⟨before, v, c, hbytes, hreads, hphase, -, -, hne, -⟩ := hcut
  have hcursor := (packInit_fresh amplePool_granting hinit).cursor
  have hlength := congrArg List.length hbytes
  have hpos := List.length_pos_iff.mpr hne
  rw [window_length, List.length_append] at hlength
  rw [hcursor] at hreads
  cases hreads with
  | nil => simp [Cursor.start] at hphase
  | @piece _ _ _ bytes input hneed =>
    have hfour : bytes.length = 4 := (Option.some.inj hneed).symm
    rw [List.length_append] at hlength
    omega

/-- A message with one string, which ends where the message ends. -/
def stringMessage : List UInt8 := encodePack [⟨[], .str, [.data [97]]⟩]

/-- The call that is given this message reads the byte behind it. -/
theorem string_read_behind : ¬ ∀ (s : Pack) (mem : Bytes) (buffer last : ℕ), Reached s →
    buffer ≤ last → ReadsInside mem buffer last s := by
  intro hall
  obtain ⟨s, hinit⟩ := packInit_granting amplePool_granting 0
  have hread : (packInit amplePool 0).any (fun s =>
      decide (21 ∈ (packRead (fun i => stringMessage.getD i 1) 0 21 s).reads)) = true := by
    decide +kernel
  rw [hinit, Option.any_some, decide_eq_true_iff] at hread
  have hinside := hall s _ 0 21 (.init hinit) (by omega) 21 hread
  omega

end HCore.PackBounds
