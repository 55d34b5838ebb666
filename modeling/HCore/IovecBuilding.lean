import HCore.SendChainRuns

/-!
The array of ranges for `writev`, entry by entry. An entry is a place that was
written or not, the pointer to the last one is set or not, and lengths are
those of a `size_t`. The array is the list of ranges of the sender as long as
no address wraps round; the total length alone may.
-/

namespace HCore.IovecBuilding

open Machine SendChain SendChainRuns

/-- `hcore_iovec_t`, with the entries that the call has written. -/
structure Vec where
  iovs : ℕ → Option (ℕ × ℕ)
  count : ℕ
  size : ℕ

/-- `iov->iov_len += size`, through a pointer that may not be set. -/
def addLen (iovs : ℕ → Option (ℕ × ℕ)) (iov : Option ℕ) (size : ℕ) :
    Exec (ℕ → Option (ℕ × ℕ)) :=
  match iov with
  | none => undefined
  | some i =>
    match iovs i with
    | none => undefined
    | some v => pure (Function.update iovs i (some (v.1, toUInt64 (v.2 + size : ℕ))))

/-- `iov_base` and `iov_len` of the entry `i` of an array of `nalloc`. -/
def setEntry (nalloc : ℕ) (iovs : ℕ → Option (ℕ × ℕ)) (i base len : ℕ) :
    Exec (ℕ → Option (ℕ × ℕ)) :=
  if i < nalloc then pure (Function.update iovs i (some (base, len))) else undefined

/-- The loop of `hcore_output_chain_to_iovec`; `count` and `size` are its `n`
and `total`. -/
def toIovecLoop (nalloc : ℕ) : List Buf → Vec → Option ℕ → ℕ → Exec (Vec × List Buf)
  | [], vec, _, _ => pure (vec, [])
  | b :: out, vec, iov, prevLast =>
    if vec.count = nalloc then pure (vec, b :: out)
    else if prevLast = b.pos then do
      let iovs ← addLen vec.iovs iov b.size
      toIovecLoop nalloc out ⟨iovs, vec.count, toUInt64 (vec.size + b.size : ℕ)⟩ iov
        (toUInt64 (b.pos + b.size : ℕ))
    else do
      let iovs ← setEntry nalloc vec.iovs vec.count b.pos b.size
      toIovecLoop nalloc out
        ⟨iovs, toUInt32 (vec.count + 1 : ℕ), toUInt64 (vec.size + b.size : ℕ)⟩ (some vec.count)
        (toUInt64 (b.pos + b.size : ℕ))

/-- `hcore_output_chain_to_iovec`: the array and the link that is returned. -/
def outputChainToIovec (nalloc : ℕ) (out : List Buf) : Exec (Vec × List Buf) :=
  toIovecLoop nalloc out ⟨fun _ => none, 0, 0⟩ none 0

def totalSize (chain : List Buf) : ℕ := (chain.map Buf.size).sum

/-- The ranges of a chain behind a buffer that ends at `last`, if there is one:
neighbours in memory share a range. -/
def rangesFrom : Option ℕ → List Buf → ℕ
  | _, [] => 0
  | last, b :: out => (if last = some b.pos then 0 else 1) + rangesFrom (some b.last) out

def ranges (chain : List Buf) : ℕ := rangesFrom none chain

/-- The entries that were written are the first `count` of the array, and they
are the memory of the buffers in front of the link that is returned. -/
def Built (nalloc : ℕ) (chain rest : List Buf) (vec : Vec) : Prop :=
  ∃ (entries : List (ℕ × ℕ)) (consumed : List Buf),
    (∀ i, vec.iovs i = entries[i]?) ∧ vec.count = entries.length ∧ vec.count ≤ nalloc ∧
      chain = consumed ++ rest ∧ vec.size = totalSize consumed ∧
      ∀ mem : ℕ → UInt8, iovecBytes mem entries = chainBytes mem consumed

/-- The buffers up to each one that has less than `nalloc` ranges in front of it
have a total length that fits. -/
def TotalFits (nalloc : ℕ) (chain : List Buf) : Prop :=
  ∀ front b, front ++ [b] <+: chain → ranges front < nalloc → totalSize (front ++ [b]) < 2 ^ 64

section

variable {nalloc total prevLast : ℕ} {iovs : List (ℕ × ℕ)} {out : List Buf}

/-- A list of ranges as an array. -/
def vecOf (iovs : List (ℕ × ℕ)) (total : ℕ) : Vec := ⟨fun i => iovs[i]?, iovs.length, total % 2 ^ 64⟩

/-- The pointer to the last entry. -/
def lastEntry (iovs : List (ℕ × ℕ)) : Option ℕ := if iovs = [] then none else some (iovs.length - 1)

theorem lastEntry_append (iovs : List (ℕ × ℕ)) (v : ℕ × ℕ) :
    lastEntry (iovs ++ [v]) = some iovs.length := by
  rw [lastEntry, if_neg (by simp), List.length_append, List.length_singleton, Nat.add_sub_cancel]

/-- One entry more. -/
theorem vecOf_append (iovs : List (ℕ × ℕ)) (v : ℕ × ℕ) :
    Function.update (fun i => iovs[i]?) iovs.length (some v) = fun i => (iovs ++ [v])[i]? := by
  funext i
  rcases Nat.lt_trichotomy i iovs.length with hlt | rfl | hgt
  · rw [Function.update_of_ne hlt.ne, List.getElem?_append_left hlt]
  · rw [Function.update_self, List.getElem?_concat_length]
  · rw [Function.update_of_ne hgt.ne', List.getElem?_eq_none hgt.le, List.getElem?_eq_none]
    rw [List.length_append, List.length_singleton]
    exact hgt

/-- Another last entry. -/
theorem vecOf_last (front : List (ℕ × ℕ)) (v v' : ℕ × ℕ) :
    Function.update (fun i => (front ++ [v])[i]?) front.length (some v') =
      fun i => (front ++ [v'])[i]? := by
  rw [← vecOf_append front v, Function.update_idem, vecOf_append]

theorem addLen_last (front : List (ℕ × ℕ)) (base : ℕ) {len size : ℕ} (hlt : len + size < 2 ^ 64) :
    addLen (fun i => (front ++ [(base, len)])[i]?) (lastEntry (front ++ [(base, len)])) size =
      Except.ok fun i => (front ++ [(base, len + size)])[i]? := by
  unfold addLen
  rw [lastEntry_append]
  dsimp only
  rw [List.getElem?_concat_length]
  dsimp only
  rw [toUInt64_of_lt hlt, vecOf_last, pure_eq_ok]

theorem lastEntry_last (front : List (ℕ × ℕ)) (v v' : ℕ × ℕ) :
    lastEntry (front ++ [v]) = lastEntry (front ++ [v']) :=
  (lastEntry_append front v).trans (lastEntry_append front v').symm

/-- An entry behind the last one. -/
theorem setEntry_append (total : ℕ) (v : ℕ × ℕ) (hroom : iovs.length < nalloc) :
    setEntry nalloc (vecOf iovs total).iovs (vecOf iovs total).count v.1 v.2 =
      Except.ok fun i => (iovs ++ [v])[i]? := by
  unfold setEntry vecOf
  dsimp only
  rw [if_pos hroom, vecOf_append, pure_eq_ok]

theorem toUInt64_mod_add (total size : ℕ) :
    toUInt64 (total % 2 ^ 64 + size : ℕ) = (total + size) % 2 ^ 64 := by
  unfold toUInt64
  omega

theorem next_last {b : Buf} (hb : b.last < 2 ^ 64) :
    toUInt64 (b.pos + b.size : ℕ) = b.pos + b.size := by
  rw [pos_add_size, toUInt64_of_lt hb]

/-- A round for a neighbour of the last entry. -/
theorem toIovecLoop_extend {b : Buf} {base len : ℕ} (front : List (ℕ × ℕ)) (hb : b.last < 2 ^ 64)
    (hfull : (front ++ [(base, len)]).length ≠ nalloc) (hstop : base + len = b.pos) :
    toIovecLoop nalloc (b :: out) (vecOf (front ++ [(base, len)]) total)
        (lastEntry (front ++ [(base, len)])) b.pos =
      toIovecLoop nalloc out (vecOf (front ++ [(base, len + b.size)]) (total + b.size))
        (lastEntry (front ++ [(base, len + b.size)])) (b.pos + b.size) := by
  have hsize : toUInt64 ((vecOf (front ++ [(base, len)]) total).size + b.size : ℕ) =
      (total + b.size) % 2 ^ 64 := toUInt64_mod_add total b.size
  have hlen : (front ++ [(base, len)]).length = (front ++ [(base, len + b.size)]).length := by
    simp only [List.length_append, List.length_singleton]
  have hfits : len + b.size < 2 ^ 64 := by
    have hsum := pos_add_size b
    omega
  rw [toIovecLoop, if_neg (show (vecOf _ total).count ≠ nalloc from hfull), if_pos rfl, hsize,
    next_last hb]
  refine bind_of_ok (addLen_last front base hfits) ?_
  rw [lastEntry_last front (base, len) (base, len + b.size)]
  unfold vecOf
  dsimp only
  rw [hlen]

/-- A round for a buffer that gets an entry of its own. -/
theorem toIovecLoop_new {b : Buf} (iov : Option ℕ) (hmax : nalloc < 2 ^ 32) (hb : b.last < 2 ^ 64)
    (hroom : iovs.length < nalloc) (hprev : prevLast ≠ b.pos) :
    toIovecLoop nalloc (b :: out) (vecOf iovs total) iov prevLast =
      toIovecLoop nalloc out (vecOf (iovs ++ [(b.pos, b.size)]) (total + b.size))
        (lastEntry (iovs ++ [(b.pos, b.size)])) (b.pos + b.size) := by
  have hsize : toUInt64 ((vecOf iovs total).size + b.size : ℕ) = (total + b.size) % 2 ^ 64 :=
    toUInt64_mod_add total b.size
  have hcount : toUInt32 ((vecOf iovs total).count + 1 : ℕ) =
      (iovs ++ [(b.pos, b.size)]).length := by
    rw [List.length_append, List.length_singleton]
    exact toUInt32_of_lt (show iovs.length + 1 < 2 ^ 32 by omega)
  rw [toIovecLoop, if_neg (show (vecOf iovs total).count ≠ nalloc from hroom.ne), if_neg hprev,
    hsize, hcount, next_last hb]
  refine bind_of_ok (setEntry_append total (b.pos, b.size) hroom) ?_
  rw [lastEntry_append]
  rfl

/-- The array is filled as the list of ranges is. -/
theorem toIovecLoop_eq (hmax : nalloc < 2 ^ 32) (hlast : ∀ b ∈ out, b.last < 2 ^ 64)
    (hroom : iovs.length ≤ nalloc) (hend : iovs ≠ [] → EndsAt iovs prevLast) :
    toIovecLoop nalloc out (vecOf iovs total) (lastEntry iovs) prevLast =
      (SendChain.toIovecLoop nalloc out iovs prevLast total).map fun r =>
        (vecOf r.1 r.2.1, r.2.2) := by
  induction out generalizing iovs prevLast total with
  | nil => rfl
  | cons b out ih =>
    obtain ⟨hb, hlast⟩ := List.forall_mem_cons.mp hlast
    rw [SendChain.toIovecLoop]
    by_cases hfull : iovs.length = nalloc
    · rw [toIovecLoop, if_pos hfull, if_pos (show (vecOf iovs total).count = nalloc from hfull)]
      rfl
    · rw [if_neg hfull]
      by_cases hprev : prevLast = b.pos
      · rw [if_pos hprev]
        subst hprev
        rcases List.eq_nil_or_concat' iovs with rfl | ⟨front, ⟨base, len⟩, rfl⟩
        · rw [toIovecLoop, if_neg (show (vecOf [] total).count ≠ nalloc from hfull), if_pos rfl]
          rfl
        · obtain ⟨-, hstop⟩ := hend (by simp)
          have hstop : base + len = b.pos := hstop (base, len) List.getLast?_concat
          have hend' : EndsAt (front ++ [(base, len + b.size)]) (b.pos + b.size) := by
            rw [← hstop, Nat.add_assoc]
            exact endsAt_append ..
          have hroom' : (front ++ [(base, len + b.size)]).length ≤ nalloc := by
            simpa only [List.length_append, List.length_singleton] using hroom
          rw [List.getLast?_concat, List.dropLast_concat, toIovecLoop_extend front hb hfull hstop]
          exact ih hlast hroom' fun _ => hend'
      · have hroom' : (iovs ++ [(b.pos, b.size)]).length ≤ nalloc := by
          rw [List.length_append, List.length_singleton]
          omega
        rw [if_neg hprev, toIovecLoop_new _ hmax hb (lt_of_le_of_ne hroom hfull) hprev]
        exact ih hlast hroom' fun _ => endsAt_append iovs b.pos b.size

/-- The array and the link of the function are those of the sender. -/
theorem outputChainToIovec_eq (hmax : nalloc < 2 ^ 32) (hlast : ∀ b ∈ out, b.last < 2 ^ 64) :
    outputChainToIovec nalloc out =
      (SendChain.outputChainToIovec nalloc out).map fun r => (vecOf r.1 r.2.1, r.2.2) :=
  @toIovecLoop_eq nalloc 0 0 [] out hmax hlast (Nat.zero_le nalloc) fun hne => absurd rfl hne

end

section

variable {nalloc total total' prevLast : ℕ} {iovs iovs' : List (ℕ × ℕ)} {out rest : List Buf}
  {last : Option ℕ}

theorem totalSize_cons (b : Buf) (out : List Buf) :
    totalSize (b :: out) = b.size + totalSize out := rfl

/-- Behind a first range, the loop takes buffers until the array is full, and the
last one that it takes finds room. -/
theorem toIovecLoop_takes (hend : EndsAt iovs prevLast) (hroom : iovs.length ≤ nalloc)
    (hrun : SendChain.toIovecLoop nalloc out iovs prevLast total =
      Except.ok (iovs', total', rest)) :
    ∃ taken, out = taken ++ rest ∧ iovs'.length = iovs.length + rangesFrom (some prevLast) taken ∧
      iovs'.length ≤ nalloc ∧ total' = total + totalSize taken ∧
      (rest = [] ∨ iovs'.length = nalloc) ∧
      ∀ front c, taken = front ++ [c] → iovs.length + rangesFrom (some prevLast) front < nalloc := by
  induction out generalizing iovs prevLast total with
  | nil =>
    cases hrun
    exact ⟨[], rfl, rfl, hroom, rfl, Or.inl rfl, by simp⟩
  | cons b out ih =>
    by_cases hfull : iovs.length = nalloc
    · rw [SendChain.toIovecLoop, if_pos hfull] at hrun
      cases hrun
      exact ⟨[], rfl, rfl, hroom, rfl, Or.inr hfull, by simp⟩
    · obtain ⟨iovs1, hround, hend1, -, hlen1⟩ := toIovecLoop_round (id : ℕ → ℕ) b out total hend hfull
      have hroom1 : iovs1.length ≤ nalloc := by
        split at hlen1 <;> omega
      obtain ⟨taken, rfl, hlen, hle, htotal, hstop, hfront⟩ :=
        ih hend1 hroom1 (hround.symm.trans hrun)
      have hranges (front : List Buf) : iovs.length + rangesFrom (some prevLast) (b :: front) =
          iovs1.length + rangesFrom (some b.last) front := by
        rw [rangesFrom, hlen1, Nat.add_assoc]
      refine ⟨b :: taken, rfl, by rw [hranges, hlen], hle, ?_, hstop, fun front c hsplit => ?_⟩
      · rw [htotal, totalSize_cons, Nat.add_assoc]
      · cases front with
        | nil => exact lt_of_le_of_ne hroom hfull
        | cons b' front =>
          obtain ⟨hb, htaken⟩ := List.cons.inj hsplit
          rw [← hb, hranges]
          exact hfront front c htaken

/-- The function takes buffers of a chain that does not begin at NULL. -/
theorem outputChainToIovec_takes {b : Buf} (hmax : 0 < nalloc) (hpos : b.pos ≠ 0)
    (hrun : SendChain.outputChainToIovec nalloc (b :: out) = Except.ok (iovs, total, rest)) :
    ∃ consumed, b :: out = consumed ++ rest ∧ iovs.length = ranges consumed ∧
      iovs.length ≤ nalloc ∧ total = totalSize consumed ∧ (rest = [] ∨ ranges consumed = nalloc) ∧
      ∀ front c, consumed = front ++ [c] → ranges front < nalloc := by
  rw [outputChainToIovec_first hmax hpos] at hrun
  obtain ⟨taken, rfl, hlen, hle, htotal, hstop, hfront⟩ :=
    toIovecLoop_takes (endsAt_append [] b.pos b.size) hmax hrun
  have hranges (front : List Buf) :
      ranges (b :: front) = 1 + rangesFrom (some (b.pos + b.size)) front := by
    rw [ranges, rangesFrom, if_neg (by simp), pos_add_size]
  refine ⟨b :: taken, rfl, hlen.trans (hranges taken).symm, hle, ?_, ?_, fun front c hsplit => ?_⟩
  · rw [htotal, Nat.zero_add]
    rfl
  · exact hstop.imp_right fun hfull => by rw [hranges, ← hfull, hlen]; rfl
  · cases front with
    | nil => exact hmax
    | cons b' front =>
      obtain ⟨hb, htaken⟩ := List.cons.inj hsplit
      rw [← hb, hranges]
      exact hfront front c htaken

theorem rangesFrom_append_le (last : Option ℕ) (front rest : List Buf) :
    rangesFrom last front ≤ rangesFrom last (front ++ rest) := by
  induction front generalizing last with
  | nil => exact Nat.zero_le _
  | cons b front ih => exact Nat.add_le_add_left (ih (some b.last)) _

theorem totalSize_append (front rest : List Buf) :
    totalSize (front ++ rest) = totalSize front + totalSize rest := by
  rw [totalSize, List.map_append, List.sum_append]
  rfl

/-- The total length of what is taken fits if that of all that finds room does. -/
theorem totalFits_iff {chain consumed : List Buf} (hsplit : chain = consumed ++ rest)
    (hstop : rest = [] ∨ ranges consumed = nalloc)
    (hfront : ∀ front c, consumed = front ++ [c] → ranges front < nalloc) :
    TotalFits nalloc chain ↔ totalSize consumed < 2 ^ 64 := by
  constructor
  · intro hfits
    rcases List.eq_nil_or_concat' consumed with rfl | ⟨front, c, rfl⟩
    · decide
    · refine hfits front c ?_ (hfront front c rfl)
      rw [hsplit]
      exact List.prefix_append ..
  · intro hlt front c hprefix hroom
    have hinside : front ++ [c] <+: consumed := by
      rw [hsplit] at hprefix
      rcases List.prefix_or_prefix_of_prefix hprefix (List.prefix_append consumed rest) with h | h
      · exact h
      · rcases List.prefix_concat_iff.mp h with heq | hshort
        · exact heq ▸ List.prefix_rfl
        · -- behind a full array no buffer finds room
          obtain ⟨more, rfl⟩ := hshort
          rcases hstop with hnil | hfull
          · rw [hnil, List.append_nil] at hprefix
            exact hprefix
          · have hle : ranges consumed ≤ ranges (consumed ++ more) := rangesFrom_append_le none ..
            omega
    obtain ⟨more, rfl⟩ := hinside
    rw [totalSize_append] at hlt
    omega

end

section

variable {nalloc : ℕ} {b : Buf} {out : List Buf}

/-- A chain that begins at NULL is undefined. -/
theorem outputChainToIovec_null (hmax : 0 < nalloc) (hmax' : nalloc < 2 ^ 32)
    (hlast : ∀ c ∈ b :: out, c.last < 2 ^ 64) (hpos : b.pos = 0) :
    outputChainToIovec nalloc (b :: out) = undefined := by
  rw [outputChainToIovec_eq hmax' hlast, toIovec_null hmax hpos]
  rfl

/-- **The ranges are built** exactly if the chain does not begin at NULL and its
total length fits. -/
theorem iovec_built_iff (nalloc : ℕ) (b : Buf) (out : List Buf) (hmax : 0 < nalloc)
    (hmax' : nalloc < 2 ^ 32) (hlast : ∀ c ∈ b :: out, c.last < 2 ^ 64) :
    (∃ vec rest, outputChainToIovec nalloc (b :: out) = Except.ok (vec, rest) ∧
        Built nalloc (b :: out) rest vec) ↔
      b.pos ≠ 0 ∧ TotalFits nalloc (b :: out) := by
  by_cases hpos : b.pos = 0
  · refine iff_of_false ?_ fun h => h.1 hpos
    rintro ⟨vec, rest, hrun, -⟩
    rw [outputChainToIovec_null hmax hmax' hlast hpos] at hrun
    cases hrun
  · obtain ⟨iovs, total, rest, hrun, -⟩ := toIovec_bytes (id : ℕ → ℕ) out hmax hpos
    obtain ⟨consumed, hsplit, hlen, hle, rfl, hstop, hfront⟩ :=
      outputChainToIovec_takes hmax hpos hrun
    have harray : outputChainToIovec nalloc (b :: out) =
        Except.ok (vecOf iovs (totalSize consumed), rest) := by
      rw [outputChainToIovec_eq hmax' hlast, hrun]
      rfl
    rw [and_iff_right hpos, totalFits_iff hsplit hstop hfront]
    constructor
    · rintro ⟨vec, rest', hrun', entries, consumed', -, -, -, hsplit', hsize, -⟩
      rw [harray] at hrun'
      cases hrun'
      obtain rfl := List.append_cancel_right (hsplit.symm.trans hsplit')
      rw [← hsize]
      exact Nat.mod_lt _ (by decide)
    · intro hfits
      refine ⟨_, rest, harray, iovs, consumed, fun i => rfl, rfl, hle, hsplit,
        Nat.mod_eq_of_lt hfits, fun mem => ?_⟩
      obtain ⟨iovs', total', rest', hrun', hbytes, -⟩ := toIovec_bytes mem out hmax hpos
      rw [hrun] at hrun'
      cases hrun'
      rw [hsplit, chainBytes, List.flatMap_append] at hbytes
      exact (List.append_cancel_right hbytes).symm

end

/-- Three bytes, an empty neighbour, the cleared buffer of `hcore_alloc_chain_with_buf`,
and a buffer for which there is no entry. -/
def mixedChain : List Buf :=
  threeBytes ++ [⟨103, 103, by decide⟩] ++ nullChain ++ [⟨200, 201, by decide⟩]

theorem iovec_built_mixed :
    (∃ vec rest, outputChainToIovec 2 mixedChain = Except.ok (vec, rest) ∧
        Built 2 mixedChain rest vec) ↔ 100 ≠ 0 ∧ TotalFits 2 mixedChain :=
  iovec_built_iff 2 ⟨100, 103, by decide⟩ _ (by decide) (by decide) (by decide)

/-- A cleared buffer at the front is taken for a neighbour of an entry that was never set. -/
theorem cleared_buffer_undefined :
    ¬ ∀ (nalloc : ℕ) (b : Buf) (out : List Buf), 0 < nalloc → nalloc < 2 ^ 32 →
      (∀ c ∈ b :: out, c.last < 2 ^ 64) →
        ∃ vec rest, outputChainToIovec nalloc (b :: out) = Except.ok (vec, rest) ∧
          Built nalloc (b :: out) rest vec := by
  intro h
  obtain ⟨vec, rest, hrun, -⟩ := h 16 ⟨0, 0, Nat.le_refl 0⟩ [] (by decide) (by decide) (by decide)
  rw [outputChainToIovec_null (by decide) (by decide) (by decide) rfl] at hrun
  cases hrun

end HCore.IovecBuilding
