import HCore.PoolRuns

/-!
The end of a pool. The handlers run in turn, the one that was added last first,
then the large blocks are released, and then the block of the pool. After a run
in one block everything that was obtained has then been released, and nothing
twice.
-/

namespace HCore.PoolModel

open Machine LittleEndian CHeap

/-- What the handlers of the records do, in this order. -/
def handlerEvents (cleanups : List Cleanup) : List Event := cleanups.filterMap fun c =>
  if c.handler = 0 then none else some (.ran c.handler c.data)

def releaseEvents (blocks : List Block) : List Event := blocks.map fun c => .released c.id

theorem obtainedIds_append (log log' : List Event) :
    obtainedIds (log ++ log') = obtainedIds log ++ obtainedIds log' := List.filterMap_append

theorem releasedIds_append (log log' : List Event) :
    releasedIds (log ++ log') = releasedIds log ++ releasedIds log' := List.filterMap_append

theorem obtainedIds_handlerEvents (cleanups : List Cleanup) :
    obtainedIds (handlerEvents cleanups) = [] := by
  apply List.filterMap_eq_nil_iff.mpr
  intro e he
  obtain ⟨c, -, hc⟩ := List.mem_filterMap.mp he
  split at hc
  · cases hc
  · cases hc
    rfl

theorem releasedIds_handlerEvents (cleanups : List Cleanup) :
    releasedIds (handlerEvents cleanups) = [] := by
  apply List.filterMap_eq_nil_iff.mpr
  intro e he
  obtain ⟨c, -, hc⟩ := List.mem_filterMap.mp he
  split at hc
  · cases hc
  · cases hc
    rfl

theorem obtainedIds_releaseEvents (blocks : List Block) :
    obtainedIds (releaseEvents blocks) = [] := by
  apply List.filterMap_eq_nil_iff.mpr
  intro e he
  obtain ⟨c, -, rfl⟩ := List.mem_map.mp he
  rfl

theorem releasedIds_releaseEvents (blocks : List Block) :
    releasedIds (releaseEvents blocks) = blocks.map Block.id := by
  rw [releasedIds, releaseEvents, List.filterMap_map]
  show List.filterMap (some ∘ Block.id) blocks = _
  rw [List.filterMap_eq_map]

namespace Structured

variable {s t : Proc} {b : Block} {last max fuel head : ℕ} {cl : Client} {records : List Record}

/-- The handlers only log that they run. -/
theorem runCleanups_eq (h : Structured s b last max cl records) {rest : List Cleanup}
    (hsub : ∀ c ∈ rest, c ∈ cl.cleanups) (hfuel : rest.length < fuel)
    (hchain : Chained s.heap.mem 16 head (rest.map Cleanup.addr)) (log : List Event) :
    runCleanups ⟨s.heap, log⟩ fuel head = Except.ok ⟨s.heap, log ++ handlerEvents rest⟩ := by
  induction rest generalizing fuel head log with
  | nil =>
    obtain ⟨k, rfl⟩ := Nat.exists_eq_add_of_lt hfuel
    have hzero : head = 0 := hchain
    rw [runCleanups, if_pos hzero, handlerEvents, List.filterMap_nil, List.append_nil]
    rfl
  | cons c rest ih =>
    obtain ⟨fuel, rfl⟩ : ∃ k, fuel = k + 1 := ⟨fuel - 1, by omega⟩
    obtain ⟨rfl, hne, hchain⟩ := hchain
    have hc := hsub c List.mem_cons_self
    have hown : s.heap.Owns c.addr cleanupSize := h.layout.owns (cleanup_mem hc)
    obtain ⟨hhandler, hdata⟩ := h.words.set c hc
    have hload : ∀ {k : ℕ}, k + 8 ≤ cleanupSize → ∀ log : List Event,
        Proc.load ⟨s.heap, log⟩ (c.addr + k) = Except.ok (wordAt s.heap.mem (c.addr + k)) := by
      intro k hk log
      exact Proc.load_of_owns (hown.mono (Nat.le_add_right _ _) (by omega))
    have hload0 : Proc.load ⟨s.heap, log⟩ c.addr = Except.ok c.handler := by
      rw [← hhandler]
      exact hload (by decide : 0 + 8 ≤ cleanupSize) log
    have hless : rest.length < fuel := by
      rw [List.length_cons] at hfuel
      omega
    rw [runCleanups, if_neg hne, hload0, ok_bind, hload (by decide), ok_bind, hdata]
    dsimp only
    split
    · next hzero =>
      rw [hload (by decide), ok_bind]
      rw [ih (fun k hk => hsub k (List.mem_cons_of_mem _ hk)) hless hchain]
      simp only [handlerEvents, List.filterMap_cons, if_pos hzero]
    · next hset =>
      rw [hload (by decide), ok_bind]
      rw [ih (fun k hk => hsub k (List.mem_cons_of_mem _ hk)) hless hchain]
      simp only [handlerEvents, List.filterMap_cons, if_neg hset, List.append_assoc,
        List.singleton_append]

/-- The walk along the records reads the block of the pool, which is not yet
released. -/
theorem releaseLarge_eq (h : Structured s b last max cl records) {rest : List Record}
    (hsub : ∀ r ∈ rest, r ∈ records) (hfuel : rest.length < fuel)
    (hchain : Chained s.heap.mem 0 head (rest.map Record.addr)) (hmem : t.heap.mem = s.heap.mem)
    (hb : b ∈ t.heap.live) (hlive : ∀ c ∈ heldBlocks rest, c ∈ t.heap.live)
    (honce : (heldBlocks rest).Nodup) :
    ∃ t', releaseLarge t fuel head = Except.ok t' ∧ t'.heap.mem = t.heap.mem ∧
      b ∈ t'.heap.live ∧ t'.log = t.log ++ releaseEvents (heldBlocks rest) := by
  induction rest generalizing fuel head t with
  | nil =>
    obtain ⟨k, rfl⟩ := Nat.exists_eq_add_of_lt hfuel
    have hzero : head = 0 := hchain
    refine ⟨t, ?_, rfl, hb, (List.append_nil _).symm⟩
    rw [releaseLarge, if_pos hzero]
    rfl
  | cons r rest ih =>
    obtain ⟨fuel, rfl⟩ : ∃ k, fuel = k + 1 := ⟨fuel - 1, by omega⟩
    obtain ⟨rfl, hne, hchain⟩ := hchain
    have hr := hsub r List.mem_cons_self
    have hrest : ∀ k ∈ rest, k ∈ records := fun k hk => hsub k (List.mem_cons_of_mem _ hk)
    have hless : rest.length < fuel := by
      rw [List.length_cons] at hfuel
      omega
    have hload : ∀ {u : Proc} {k : ℕ}, b ∈ u.heap.live → u.heap.mem = s.heap.mem →
        k + 8 ≤ largeSize → u.load (r.addr + k) = Except.ok (wordAt s.heap.mem (r.addr + k)) := by
      intro u k hbu hu hk
      have hown : u.heap.Owns r.addr largeSize := ⟨b, hbu, h.layout.record_covered hr⟩
      rw [← hu]
      exact Proc.load_of_owns (hown.mono (Nat.le_add_right _ _) (by omega))
    rw [releaseLarge, if_neg hne, hload hb hmem (by decide), ok_bind, h.words.alloc r hr]
    cases hblock : r.block with
    | none =>
      have hheld : heldBlocks (r :: rest) = heldBlocks rest :=
        List.filterMap_cons_none hblock
      have hnull : r.alloc = 0 := (h.alloc_eq_zero hr).mpr hblock
      rw [hheld] at hlive honce ⊢
      have hnext : t.load r.addr = Except.ok (wordAt s.heap.mem r.addr) :=
        hload hb hmem (by decide : 0 + 8 ≤ largeSize)
      rw [if_pos hnull, pure_eq_ok, ok_bind]
      dsimp only
      rw [hnext, ok_bind]
      exact ih hrest hless hchain hmem hb hlive honce
    | some c =>
      have hheld : heldBlocks (r :: rest) = c :: heldBlocks rest :=
        List.filterMap_cons_some hblock
      obtain ⟨halloc, -, hpos⟩ := h.alloc_ne_zero hr hblock
      rw [hheld] at hlive honce ⊢
      obtain ⟨hnew, honce⟩ := List.nodup_cons.mp honce
      obtain ⟨t1, hfree, hmem1, -, hlive1, hlog1⟩ := hcoreFree_live (hlive c List.mem_cons_self)
      have hcb : c ≠ b := (h.layout.held c (mem_heldBlocks hr hblock)).2
      have hb1 : b ∈ t1.heap.live := (hlive1 b).mpr ⟨hb, hcb.symm⟩
      have hnext : t1.load r.addr = Except.ok (wordAt s.heap.mem r.addr) :=
        hload hb1 (hmem1.trans hmem) (by decide : 0 + 8 ≤ largeSize)
      have hlive' : ∀ d ∈ heldBlocks rest, d ∈ t1.heap.live := by
        intro d hd
        refine (hlive1 d).mpr ⟨hlive d (List.mem_cons_of_mem _ hd), ?_⟩
        rintro rfl
        exact hnew hd
      obtain ⟨t', hrun, hmem', hb', hlog'⟩ :=
        ih hrest hless hchain (hmem1.trans hmem) hb1 hlive' honce
      rw [if_neg (halloc ▸ hpos), halloc, hfree, ok_bind]
      dsimp only
      rw [hnext, ok_bind]
      refine ⟨t', hrun, hmem'.trans hmem1, hb', ?_⟩
      rw [hlog', hlog1, List.append_assoc]
      rfl

/-- There are fewer handlers than addresses. -/
theorem cleanups_lt (h : Structured s b last max cl records) :
    cl.cleanups.length < addresses := by
  have hnodup : (cl.cleanups.map Cleanup.addr).Nodup := by
    obtain ⟨-, hcleanups, -⟩ := List.pairwise_append.mp h.layout.apart
    refine List.pairwise_map.mpr ((List.pairwise_map.mp hcleanups).imp ?_)
    intro c k hapart heq
    unfold Range.Apart Cleanup.range cleanupSize at hapart
    dsimp only at hapart
    omega
  have hlt := length_lt_of_nodup (by decide : 0 < addresses) hnodup fun a ha => by
    obtain ⟨c, hc, rfl⟩ := List.mem_map.mp ha
    have htop := h.layout.item_lt (cleanup_mem hc)
    refine ⟨h.words.cleanup.ne_zero ha, ?_⟩
    exact (Nat.le_add_right _ _).trans_lt htop
  rwa [List.length_map] at hlt

end Structured

/-- What the end of a pool leaves: the handlers that were set have run, the one
that was added last first, before anything that the end releases; what the pool
obtained has been released, all of it, and it obtained nothing twice. -/
structure Settled (log log' : List Event) (cleanups : List Cleanup) : Prop where
  ends : ∃ blocks, log' = log ++ handlerEvents cleanups ++ releaseEvents blocks
  quiet : ∀ handler data, Event.ran handler data ∉ log
  released : (obtainedIds log').Perm (releasedIds log')
  once : (obtainedIds log').Nodup

theorem Holds.destroy {env : Env} {s : Proc} {b : Block} {last max : ℕ} {cl : Client}
    {records : List Record} (h : Holds s b last max cl records) :
    ∃ s', destroyPool env s b.addr = Except.ok s' ∧ Settled s.log s'.log cl.cleanups := by
  have hcleanup : runCleanups s addresses (wordAt s.heap.mem (b.addr + cleanupOffset)) =
      Except.ok ⟨s.heap, s.log ++ handlerEvents cl.cleanups⟩ :=
    h.runCleanups_eq (fun _ hc => hc) h.cleanups_lt h.words.cleanup s.log
  set s1 : Proc := ⟨s.heap, s.log ++ handlerEvents cl.cleanups⟩ with hs1
  have h1 : Structured s1 b last max cl records := ⟨h.layout, h.words⟩
  obtain ⟨s2, hlarge, hmem, hb, hlog⟩ := h1.releaseLarge_eq (t := s1) (fun _ hr => hr)
    h1.records_lt h1.words.large rfl h.layout.block (fun c hc => (h.layout.held c hc).1)
    h.layout.once
  have hnext : s2.load (b.addr + nextOffset) = Except.ok 0 := by
    have hown : s2.heap.Owns (b.addr + nextOffset) 8 := by
      have hheader := h.layout.header
      have hfits := h.layout.fits
      have hoffset : nextOffset + 8 ≤ poolSize := by decide
      exact ⟨b, hb, Nat.le_add_right _ _, by omega⟩
    rw [Proc.load_of_owns hown, hmem]
    exact congrArg Except.ok h.words.next
  obtain ⟨s3, hfree, -, -, -, hlog3⟩ := hcoreFree_live hb
  have hend : destroyPool env s b.addr = Except.ok s3 := by
    obtain ⟨fuel, hfuel⟩ := addresses_succ
    unfold destroyPool
    rw [h.load_header (by decide), ok_bind, hcleanup, ok_bind, h1.not_customed, ok_bind,
      if_neg Bool.false_ne_true, h1.load_header (by decide), ok_bind, hlarge, ok_bind, hnext,
      ok_bind, hfuel, releaseChain, hfree, ok_bind]
    rfl
  have hlog' : s3.log = s.log ++ handlerEvents cl.cleanups ++
      releaseEvents (heldBlocks records ++ [b]) := by
    have hevents : releaseEvents (heldBlocks records ++ [b]) =
        releaseEvents (heldBlocks records) ++ [.released b.id] := List.map_append
    rw [hlog3, hlog, hevents, ← List.append_assoc]
  have hobtained : obtainedIds s3.log = obtainedIds s.log := by
    rw [hlog', obtainedIds_append, obtainedIds_append, obtainedIds_handlerEvents,
      obtainedIds_releaseEvents, List.append_nil, List.append_nil]
  have hreleased : releasedIds s3.log =
      releasedIds s.log ++ (heldBlocks records ++ [b]).map Block.id := by
    rw [hlog', releasedIds_append, releasedIds_append, releasedIds_handlerEvents,
      releasedIds_releaseEvents, List.append_nil]
  refine ⟨s3, hend, ⟨_, hlog'⟩, h.ledger.quiet, ?_, ?_⟩
  · rw [hobtained, hreleased]
    refine h.ledger.balance.trans (List.Perm.append_left _ ?_)
    rw [List.map_append]
    exact (List.perm_append_singleton _ _).symm
  · rw [hobtained]
    exact h.ledger.once

end HCore.PoolModel
