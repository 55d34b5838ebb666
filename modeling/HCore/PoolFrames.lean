import HCore.PoolRuns

/-!
What a call to a pool leaves alone. Of the blocks that the callers hold, a call
touches the one that it is given and no other, and the callers still hold those.
Two words of the header are of no use to the requests and may be set.
-/

namespace HCore.PoolModel

open Machine LittleEndian CHeap

/-- The block or the record that a call is given. -/
def Call.target : Call → ℕ
  | alloc _ => 0
  | calloc _ => 0
  | resize x _ => x.addr
  | free x => x.addr
  | addCleanup _ => 0
  | setCleanup a _ _ => a
  | write x _ _ => x.addr

/-- `pool->log` and `pool->chain` -/
def logOffset : ℕ := 88
def chainOffset : ℕ := 96

section

variable {env : Env} {s s' : Proc} {b : Block} {last max n a a' v v' p : ℕ} {cl : Client}
  {records : List Record} {x y : Range}

/-- Two words that do not overlap may be stored in either order. -/
theorem put_comm (s : Proc) (v v' : ℕ) (h : a + 8 ≤ a' ∨ a' + 8 ≤ a) :
    (s.put a v).put a' v' = (s.put a' v').put a v := by
  have hmem : writeAt (writeAt s.heap.mem a (encode64 v)) a' (encode64 v') =
      writeAt (writeAt s.heap.mem a' (encode64 v')) a (encode64 v) := by
    funext i
    by_cases hi : a ≤ i ∧ i < a + 8
    · obtain ⟨k, rfl⟩ := Nat.exists_eq_add_of_le hi.1
      have hk : k < (encode64 v).length := by
        rw [encode64_length]
        omega
      have hother : a + k < a' ∨ a' + (encode64 v').length ≤ a + k := by
        rw [encode64_length]
        omega
      rw [writeAt_other hother, writeAt_same hk, writeAt_same hk]
    · have hother : i < a ∨ a + (encode64 v).length ≤ i := by
        rw [encode64_length]
        omega
      rw [writeAt_other hother]
      unfold writeAt
      split
      · rw [← writeAt, writeAt_other hother]
      · rw [← writeAt, writeAt_other hother]
  exact congrArg (fun mem => (⟨s.heap.withMem mem, s.log⟩ : Proc)) hmem

namespace Holds

theorem user_apart (h : Holds s b last max cl records) (hx : x ∈ cl.user) (hy : y ∈ cl.user)
    (hne : x.addr ≠ y.addr) : x.Apart y := by
  have hsymm : Std.Symm Range.Apart := ⟨fun _ _ hxy => hxy.symm⟩
  obtain ⟨huser, -, -⟩ := List.pairwise_append.mp h.layout.apart
  refine huser.forall hx hy ?_
  rintro rfl
  exact hne rfl

theorem user_pos (h : Holds s b last max cl records) (hx : x ∈ cl.user) : x.addr ≠ 0 := by
  obtain ⟨c, hc, hstart, -⟩ := h.layout.owns (List.mem_append_left _ hx)
  have hrange := s.heap.inRange c hc
  omega

/-- `hcore_pcalloc` clears what it hands out, and nothing else. -/
theorem pcalloc_cleared (h : Holds s b last max cl records) (hroom : FindsRoom env s b.addr n) :
    ∃ p s' last' records', pcalloc env s b.addr n = Except.ok (p, s') ∧
      Holds s' b last' max (cl.grant p n) records' ∧ ItemsKept s s' cl.items ∧
      (p ≠ 0 → ∀ i < n, s'.heap.mem (p + i) = 0) := by
  obtain ⟨p, s₁, last', records', hrun, h₁, hkept⟩ := h.pnalloc_holds hroom
  unfold pcalloc
  rw [hrun, ok_bind]
  dsimp only
  by_cases hp : p = 0
  · rw [hp] at h₁ ⊢
    exact ⟨0, s₁, last', records', rfl, h₁, hkept, fun hne => absurd rfl hne⟩
  · have hnew : (⟨p, n⟩ : Range) ∈ (cl.grant p n).user := by
      rw [Client.grant_of_ne hp]
      exact List.mem_cons_self
    have hlen : p + (List.replicate n (0 : UInt8)).length ≤ p + n := by rw [List.length_replicate]
    obtain ⟨hstore, h₂, hkept₂⟩ := h₁.write hnew (le_refl p) hlen
    have hapart := h₁.layout.apart
    rw [Client.grant_items hp] at hapart
    obtain ⟨hapart, -⟩ := List.pairwise_cons.mp hapart
    refine ⟨p, _, last', records', ?_, h₂, fun x hx => ?_, fun _ i hi => ?_⟩
    · rw [if_neg hp]
      exact bind_of_ok hstore rfl
    · exact Keeps.trans (hkept x hx) (hkept₂ x (hapart x hx).symm)
    · have hzero : i < (List.replicate n (0 : UInt8)).length := by rwa [List.length_replicate]
      exact (writeAt_same hzero).trans (List.getElem_replicate _)

/-- The blocks of the callers while a record for a handler is added. -/
theorem cleanupAdd_kept (h : Holds s b last max cl records) (hroom : CleanupFindsRoom env s b.addr n)
    (hx : x ∈ cl.user) (hrun : poolCleanupAdd env s b.addr n = Except.ok (p, s')) :
    x.Kept s.heap.mem s'.heap.mem := by
  have hitem : x ∈ cl.items := List.mem_append_left _ hx
  obtain ⟨c, s₁, last₁, records₁, hrun₁, h₁, hkept₁⟩ := h.pnalloc_holds hroom.1
  unfold poolCleanupAdd at hrun
  rw [hrun₁, ok_bind] at hrun
  dsimp only at hrun
  by_cases hc : c = 0
  · rw [if_pos hc] at hrun
    obtain ⟨-, rfl⟩ := Prod.mk.inj (Except.ok.inj hrun)
    exact hkept₁ x hitem
  · rw [Client.grant_of_ne hc] at h₁
    obtain ⟨hapart, -⟩ := List.pairwise_cons.mp h₁.layout.apart
    have hrecord : x.Apart ⟨c, cleanupSize⟩ := (hapart x hitem).symm
    have hheader : x.Apart ⟨b.addr, poolSize⟩ := h.layout.apart_header hitem
    rw [if_neg hc, ite_bind] at hrun
    obtain ⟨⟨data, s₂⟩, hdata, hrun⟩ := bind_eq_ok.mp hrun
    have hkept₂ : x.Kept s₁.heap.mem s₂.heap.mem := by
      by_cases hn : n = 0
      · rw [if_neg (not_not_intro hn)] at hdata
        obtain ⟨-, rfl⟩ := Prod.mk.inj (Except.ok.inj hdata)
        exact Keeps.refl _ _ _
      · obtain ⟨data', s₂', _, _, hrun₂, -, hkept₂⟩ := h₁.pnalloc_holds (hroom.2 c s₁ hn hrun₁ hc)
        rw [if_pos hn, hrun₂] at hdata
        obtain ⟨-, rfl⟩ := Prod.mk.inj (Except.ok.inj hdata)
        exact hkept₂ x (List.mem_cons_of_mem _ hitem)
    obtain ⟨s₃, hstore₃, hrun⟩ := bind_eq_ok.mp hrun
    have hkept₃ : x.Kept s₂.heap.mem s₃.heap.mem := by
      rw [Proc.eq_put hstore₃]
      exact hrecord.kept_put (Nat.le_add_right c 8)
        (Nat.add_le_add_left (by decide : 8 + 8 ≤ cleanupSize) c)
    have hkept : x.Kept s.heap.mem s₃.heap.mem :=
      Keeps.trans (hkept₁ x hitem) (Keeps.trans hkept₂ hkept₃)
    split at hrun
    · obtain ⟨-, rfl⟩ := Prod.mk.inj (Except.ok.inj hrun)
      exact hkept
    · obtain ⟨s₄, hstore₄, hrun⟩ := bind_eq_ok.mp hrun
      obtain ⟨head, -, hrun⟩ := bind_eq_ok.mp hrun
      obtain ⟨s₅, hstore₅, hrun⟩ := bind_eq_ok.mp hrun
      obtain ⟨s₆, hstore₆, hrun⟩ := bind_eq_ok.mp hrun
      obtain ⟨-, rfl⟩ := Prod.mk.inj (Except.ok.inj hrun)
      refine Keeps.trans hkept ?_
      rw [Proc.eq_put hstore₆, Proc.eq_put hstore₅, Proc.eq_put hstore₄]
      refine Keeps.trans (hrecord.kept_put (le_refl c) ?_) (Keeps.trans
        (hrecord.kept_put (Nat.le_add_right c 16) (le_refl (c + 24)))
        (hheader.kept_put (Nat.le_add_right _ _) ?_))
      · exact Nat.add_le_add_left (by decide : 8 ≤ cleanupSize) c
      · exact Nat.add_le_add_left (by decide : cleanupOffset + 8 ≤ poolSize) b.addr

/-- A call leaves the blocks alone that it is not given. -/
theorem call_kept (h : Holds s b last max cl records) {call : Call} (hvalid : call.Valid cl)
    (hfits : call.FitsBlock env b.addr s) (hx : x ∈ cl.user) (hne : x.addr ≠ call.target)
    (hrun : call.run env b.addr s = Except.ok (p, s')) :
    x.Kept s.heap.mem s'.heap.mem ∧ x ∈ (call.after cl s' p).user := by
  have hitem : x ∈ cl.items := List.mem_append_left _ hx
  have hgrant : ∀ {p n : ℕ}, x ∈ (cl.grant p n).user := by
    intro p n
    unfold Client.grant
    split
    · exact hx
    · exact List.mem_cons_of_mem _ hx
  cases call with
  | alloc n =>
    obtain ⟨_, _, _, _, hserved, -, hkept⟩ := h.pnalloc_holds hfits
    cases hserved.symm.trans hrun
    exact ⟨hkept x hitem, hgrant⟩
  | calloc n =>
    obtain ⟨_, _, _, _, hserved, -, hkept, -⟩ := h.pcalloc_cleared hfits
    cases hserved.symm.trans hrun
    exact ⟨hkept x hitem, hgrant⟩
  | resize y n =>
    obtain ⟨-, hy⟩ := hvalid
    have hresize : prealloc env s b.addr y.addr y.size n = Except.ok (p, s') := hrun
    show _ ∧ x ∈ (cl.resize y n p).user
    unfold Client.resize
    by_cases hzero : y.addr = 0
    · have hroom : FindsRoom env s b.addr n := (if_pos hzero).mp hfits
      obtain ⟨_, _, _, _, hserved, -, hkept⟩ := h.pnalloc_holds hroom
      unfold prealloc at hresize
      rw [if_pos hzero, hserved] at hresize
      cases hresize
      rw [if_pos hzero]
      exact ⟨hkept x hitem, hgrant⟩
    · have hperm := List.perm_cons_erase (hy.resolve_left hzero)
      have hcons : Holds s b last max ⟨y :: cl.user.erase y, cl.cleanups⟩ records := h.perm hperm
      have hrest : x ∈ cl.user.erase y := by
        refine (List.mem_erase_of_ne ?_).mpr hx
        rintro rfl
        exact hne rfl
      obtain ⟨_, _, _, _, hserved, -, hkept, -⟩ := hcons.prealloc_held hzero hfits
      cases hserved.symm.trans hresize
      refine ⟨hkept x (List.mem_append_left _ hrest), ?_⟩
      rw [if_neg hzero]
      split
      · exact hrest
      · split
        · exact hx
        · exact List.mem_cons_of_mem _ hrest
  | free y =>
    have hrest : x ∈ cl.user.erase y := by
      refine (List.mem_erase_of_ne ?_).mpr hx
      rintro rfl
      exact hne rfl
    obtain ⟨⟨ok, s₁⟩, hfree, hrun⟩ := bind_eq_ok.mp hrun
    obtain ⟨-, rfl⟩ := Prod.mk.inj (Except.ok.inj hrun)
    refine ⟨?_, hrest⟩
    by_cases hmem : y ∈ cl.user
    · have hcons : Holds s b last max ⟨y :: cl.user.erase y, cl.cleanups⟩ records :=
        h.perm (List.perm_cons_erase hmem)
      obtain ⟨_, _, _, hserved, -, hkept⟩ := hcons.giveBack env
      cases hserved.symm.trans hfree
      exact hkept x (List.mem_append_left _ hrest)
    · have hempty := hvalid.resolve_left hmem
      have halone : ∀ c ∈ heldBlocks records, c.addr = y.addr → ∀ z ∈ cl.items, z.addr ≠ c.addr := by
        intro c hc haddr z hz hzc
        have hpos := h.layout.pos_of_large hz hc hzc
        rw [hempty z hz (hzc.trans haddr)] at hpos
        exact lt_irrefl _ hpos
      obtain ⟨_, _, _, hserved, -, hkept⟩ : ∃ ok s' records', pfree env s b.addr y.addr =
          Except.ok (ok, s') ∧ Holds s' b last max cl records' ∧ ItemsKept s s' cl.items :=
        h.pfree_holds halone
      cases hserved.symm.trans hfree
      exact hkept x hitem
  | addCleanup n =>
    refine ⟨h.cleanupAdd_kept hfits hx hrun, ?_⟩
    show x ∈ (cl.addCleanup n p _).user
    unfold Client.addCleanup
    split
    · exact hx
    · split
      · exact hx
      · exact List.mem_cons_of_mem _ hx
  | setCleanup a handler data =>
    obtain ⟨ha, -, -⟩ := hvalid
    obtain ⟨c, hc, rfl⟩ := List.mem_map.mp ha
    obtain ⟨-, -, hcross⟩ := List.pairwise_append.mp h.layout.apart
    have hrecord : x.Apart c.range := hcross x hx _ (List.mem_map_of_mem hc)
    obtain ⟨s₁, hstore₁, hrun⟩ := bind_eq_ok.mp hrun
    obtain ⟨s₂, hstore₂, hrun⟩ := bind_eq_ok.mp hrun
    obtain ⟨-, rfl⟩ := Prod.mk.inj (Except.ok.inj hrun)
    refine ⟨?_, hx⟩
    rw [Proc.eq_put hstore₂, Proc.eq_put hstore₁]
    exact Keeps.trans
      (hrecord.kept_put (le_refl _) (Nat.add_le_add_left (by decide : 8 ≤ cleanupSize) c.addr))
      (hrecord.kept_put (Nat.le_add_right c.addr 8)
        (Nat.add_le_add_left (by decide : 8 + 8 ≤ cleanupSize) c.addr))
  | write y i v =>
    obtain ⟨hy, hi⟩ := hvalid
    have hend : y.addr + i + [v].length ≤ y.addr + y.size := by
      rw [List.length_singleton]
      omega
    obtain ⟨hstore, -, hkept⟩ := h.write hy (Nat.le_add_right y.addr i) hend
    obtain ⟨heap, hheap, hrun⟩ := bind_eq_ok.mp hrun
    obtain ⟨-, rfl⟩ := Prod.mk.inj (Except.ok.inj hrun)
    cases hstore.symm.trans hheap
    exact ⟨hkept x (h.user_apart hx hy hne), hx⟩

/-- A request that the block has room for, of at most `max` bytes. -/
theorem pnalloc_small (env : Env) (h : Holds s b last max cl records) (hle : n ≤ max)
    (hroom : last + n ≤ b.addr + b.size) :
    pnalloc env s b.addr n = Except.ok (last, s.put (b.addr + lastOffset) (last + n)) ∧
      Holds (s.put (b.addr + lastOffset) (last + n)) b (last + n) max
        ⟨⟨last, n⟩ :: cl.user, cl.cleanups⟩ records ∧
      ItemsKept s (s.put (b.addr + lastOffset) (last + n)) cl.items := by
  obtain ⟨hlayout, hsmall, hitems, hrecords⟩ := h.layout.carve (le_refl last) hroom
  have h' := h.setLast hlayout
  refine ⟨?_, ⟨⟨?_, h'.words⟩, h.ledger⟩, h.kept_last⟩
  · unfold pnalloc
    rw [h.not_customed, ok_bind, if_neg Bool.false_ne_true, h.load_max, ok_bind, if_pos hle]
    exact h.pallocSmall_of_room rfl hroom
  · exact h'.layout.addItem (Or.inl hsmall) hitems fun r hr => (hrecords r hr).symm

/-- The newest block is written. -/
theorem write_first (h : Holds s b last max ⟨x :: cl.user, cl.cleanups⟩ records)
    {bytes : List UInt8} (hstart : x.addr ≤ a) (hend : a + bytes.length ≤ x.addr + x.size) :
    store s.heap a bytes = Except.ok (s.heap.withMem (writeAt s.heap.mem a bytes)) ∧
      Holds ⟨s.heap.withMem (writeAt s.heap.mem a bytes), s.log⟩ b last max
        ⟨x :: cl.user, cl.cleanups⟩ records ∧
      ItemsKept s ⟨s.heap.withMem (writeAt s.heap.mem a bytes), s.log⟩ cl.items := by
  obtain ⟨hapart, -⟩ := List.pairwise_cons.mp h.layout.apart
  obtain ⟨hstore, h', hkept⟩ := h.write List.mem_cons_self hstart hend
  exact ⟨hstore, h', fun y hy => hkept y (hapart y hy).symm⟩

/-- Such a request, and its block is cleared. -/
theorem pnalloc_zeroed (env : Env) (h : Holds s b last max cl records) (hle : n ≤ max)
    (hroom : last + n ≤ b.addr + b.size) :
    ∃ s₁ heap, pnalloc env s b.addr n = Except.ok (last, s₁) ∧
      memzero s₁.heap last n = Except.ok heap ∧
      Holds ⟨heap, s₁.log⟩ b (last + n) max ⟨⟨last, n⟩ :: cl.user, cl.cleanups⟩ records ∧
      ItemsKept s ⟨heap, s₁.log⟩ cl.items ∧ ∀ i < n, heap.mem (last + i) = 0 := by
  obtain ⟨hrun, h₁, hkept₁⟩ := h.pnalloc_small env hle hroom
  have hlen : last + (List.replicate n (0 : UInt8)).length ≤ last + n := by
    rw [List.length_replicate]
  obtain ⟨hstore, h₂, hkept₂⟩ := h₁.write_first (le_refl last) hlen
  refine ⟨_, _, hrun, hstore, h₂, hkept₁.trans hkept₂, fun i hi => ?_⟩
  have hzero : i < (List.replicate n (0 : UInt8)).length := by rwa [List.length_replicate]
  exact (writeAt_same hzero).trans (List.getElem_replicate _)

end Holds

/-- A word of the header that the requests do not use. -/
theorem Words.setUnused {mem : ℕ → UInt8} {cleanups : List Cleanup} {k : ℕ}
    (w : Words mem b last max records cleanups) (hk : k = logOffset ∨ k = chainOffset)
    (hrecords : ∀ r ∈ records, r.range.Apart ⟨b.addr, poolSize⟩)
    (hcleanups : ∀ c ∈ cleanups, c.range.Apart ⟨b.addr, poolSize⟩) :
    Words (writeAt mem (b.addr + k) (encode64 v)) b last max records cleanups := by
  have hother {j : ℕ} (hj : j + 8 ≤ logOffset ∨ chainOffset + 8 ≤ j) :
      wordAt (writeAt mem (b.addr + k) (encode64 v)) (b.addr + j) = wordAt mem (b.addr + j) := by
    apply wordAt_header
    unfold logOffset chainOffset at hj hk
    omega
  have hheader : k + 8 ≤ poolSize := by
    unfold logOffset chainOffset at hk
    unfold poolSize
    omega
  exact {
    last := (hother (by decide)).trans w.last
    bound := (hother (by decide)).trans w.bound
    next := (hother (by decide)).trans w.next
    max := (hother (by decide)).trans w.max
    current := (hother (by decide)).trans w.current
    customed := by
      rw [hother (by decide)]
      exact w.customed
    large := by
      rw [hother (by decide)]
      exact chained_records w.large fun r hr => kept_of_header (hrecords r hr) hheader
    alloc := w.alloc_kept fun r hr => kept_of_header (hrecords r hr) hheader
    cleanup := by
      rw [hother (by decide)]
      exact chained_cleanups w.cleanup fun c hc => kept_of_header (hcleanups c hc) hheader
    set := w.set_kept fun c hc => kept_of_header (hcleanups c hc) hheader }

theorem Holds.setUnused {k : ℕ} (h : Holds s b last max cl records)
    (hk : k = logOffset ∨ k = chainOffset) :
    s.store (b.addr + k) v = Except.ok (s.put (b.addr + k) v) ∧
      Holds (s.put (b.addr + k) v) b last max cl records ∧
      ItemsKept s (s.put (b.addr + k) v) cl.items := by
  have hheader : k + 8 ≤ poolSize := by
    unfold logOffset chainOffset at hk
    unfold poolSize
    omega
  have hwords := h.words.setUnused (v := v) hk (fun r hr => h.layout.record_apart_header hr)
    fun c hc => h.layout.apart_header (Structured.cleanup_mem hc)
  refine ⟨Proc.store_of_owns (h.owns_word hheader), ⟨⟨h.layout, hwords⟩, h.ledger⟩, fun x hx => ?_⟩
  exact Words.kept_of_header (h.layout.apart_header hx) hheader

/-- A pool is made in a new block, or nothing is obtained. -/
theorem createPool_made (env : Env) {size : ℕ} (hsize : poolSize ≤ size) (hlog : s.log = []) :
    (∃ s', createPool env s size = Except.ok (0, s') ∧ s'.log = [] ∧
        s'.heap.live = s.heap.live) ∨
      ∃ b s', b.size = size ∧ createPool env s size = Except.ok (b.addr, s') ∧
        s'.heap.live = b :: s.heap.live ∧ b ∉ s.heap.live ∧
        Holds s' b (b.addr + poolSize) (roomOf env size) ⟨[], []⟩ [] := by
  rcases hcoreMalloc_cases env s size with hfail | ⟨c, s₁, hmalloc, rfl, ho⟩
  · refine Or.inl ⟨⟨{ s.heap with calls := s.heap.calls + 1 }, s.log⟩, ?_, hlog, rfl⟩
    unfold createPool
    rw [hfail]
    exact if_pos rfl
  · have hrun := createPool_eq hsize hmalloc ho
    have hlive : (created env s₁ c).heap.live = c :: s.heap.live := ho.live
    have hnew : c ∉ s.heap.live := by
      intro hc
      have hself := ho.fits.apart c hc
      omega
    obtain ⟨b, max, haddr, h⟩ := createPool_holds hsize hlog hrun ho.fits.pos.ne'
    have hc : c ∈ (created env s₁ c).heap.live := by
      rw [hlive]
      exact List.mem_cons_self
    obtain rfl : b = c := Heap.block_unique h.layout.block hc haddr
    have hmax : max = roomOf env b.size :=
      h.words.max.symm.trans (created_words hsize ho.fits.top).max
    rw [hmax] at h
    exact Or.inr ⟨b, _, rfl, hrun, hlive, hnew, h⟩

end

end HCore.PoolModel
