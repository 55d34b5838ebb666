import HCore.PoolCalls

/-!
The calls that make several requests, or none: `hcore_pcalloc`,
`hcore_prealloc` and `hcore_pool_cleanup_add`. A block that is resized keeps
its contents as far as both sizes go.
-/

namespace HCore.PoolModel

open Machine LittleEndian CHeap

/-- A resize that leaves the block where it is stays in memory, and one that
moves it finds room for the new block. -/
def ResizeFindsRoom (env : Env) (s : Proc) (pool : ℕ) (x : Range) (n : ℕ) : Prop :=
  let word (k : ℕ) := wordAt s.heap.mem (pool + k)
  if x.addr = 0 then FindsRoom env s pool n
  else if n = 0 then True
  else if x.size ≤ word maxOffset ∧ x.addr + x.size = word lastOffset then
    x.addr + n < 2 ^ 64 ∧ (word endOffset < x.addr + n → FindsRoom env s pool n)
  else x.size < n → FindsRoom env s pool n

/-- The record finds room, and then its data. -/
def CleanupFindsRoom (env : Env) (s : Proc) (pool n : ℕ) : Prop :=
  FindsRoom env s pool cleanupSize ∧
    ∀ c s', n ≠ 0 → pnalloc env s pool cleanupSize = Except.ok (c, s') → c ≠ 0 →
      FindsRoom env s' pool n

/-- The callers after `hcore_prealloc(pool, x.addr, x.size, n)`. -/
def Client.resize (cl : Client) (x : Range) (n p : ℕ) : Client :=
  if x.addr = 0 then cl.grant p n
  else if n = 0 then ⟨cl.user.erase x, cl.cleanups⟩
  else if p = 0 then cl
  else ⟨⟨p, n⟩ :: cl.user.erase x, cl.cleanups⟩

/-- The callers after `hcore_pool_cleanup_add(pool, n)`, which answers `c`. -/
def Client.addCleanup (cl : Client) (n c data : ℕ) : Client :=
  if c = 0 then cl
  else ⟨if n = 0 then cl.user else ⟨data, n⟩ :: cl.user, ⟨c, 0, data⟩ :: cl.cleanups⟩

/-- The callers set the handler of the record at `a`. -/
def Client.setCleanup (cl : Client) (a handler data : ℕ) : Client :=
  ⟨cl.user, cl.cleanups.map (Cleanup.setAt a handler data)⟩

namespace Holds

variable {env : Env} {s : Proc} {b : Block} {last max n : ℕ} {cl : Client}
  {records : List Record} {x : Range} {user : List Range} {cleanups : List Cleanup}

theorem perm (h : Holds s b last max ⟨user, cleanups⟩ records) {user' : List Range}
    (hperm : user.Perm user') : Holds s b last max ⟨user', cleanups⟩ records :=
  ⟨⟨h.layout.perm (hperm.append_right _), h.words⟩, h.ledger⟩

theorem sub (h : Holds s b last max ⟨user, cleanups⟩ records) {user' : List Range}
    (hsub : user'.Sublist user) : Holds s b last max ⟨user', cleanups⟩ records :=
  ⟨⟨h.layout.sub (hsub.append_right _), h.words⟩, h.ledger⟩

theorem drop (h : Holds s b last max ⟨x :: user, cleanups⟩ records) :
    Holds s b last max ⟨user, cleanups⟩ records := h.sub (List.sublist_cons_self _ _)

/-- `hcore_pcalloc` answers as `hcore_palloc`. -/
theorem pcalloc_holds (h : Holds s b last max cl records) (hroom : FindsRoom env s b.addr n) :
    ∃ p s' last' records', pcalloc env s b.addr n = Except.ok (p, s') ∧
      Holds s' b last' max (cl.grant p n) records' := by
  obtain ⟨p, s1, last', records', hrun, h1, -⟩ := h.pnalloc_holds hroom
  unfold pcalloc
  rw [hrun, ok_bind]
  dsimp only
  by_cases hp : p = 0
  · exact ⟨p, s1, last', records', by rw [if_pos hp, hp]; rfl, h1⟩
  · have hmem : (⟨p, n⟩ : Range) ∈ (cl.grant p n).user := by
      rw [Client.grant_of_ne hp]
      exact List.mem_cons_self
    have hlen : p + (List.replicate n (0 : UInt8)).length ≤ p + n := by rw [List.length_replicate]
    obtain ⟨hstore, h2, -⟩ := h1.write hmem (le_refl p) hlen
    refine ⟨p, _, last', records', ?_, h2⟩
    rw [if_neg hp]
    exact bind_of_ok hstore rfl

/-- The loop of `hcore_prealloc`, with one block. -/
theorem resizeLast_eq (h : Holds s b last max cl records) {p old : ℕ} :
    resizeLast s p old n addresses b.addr = Except.ok
      (if toUInt64 (p + old : ℕ) = last ∧ toUInt64 (p + n : ℕ) ≤ b.addr + b.size then
        some (s.put (b.addr + lastOffset) (p + n)) else none) := by
  obtain ⟨fuel, hfuel⟩ := addresses_succ
  rw [hfuel, resizeLast, h.load_last, ok_bind, h.load_end, ok_bind]
  split
  · rw [Proc.store_of_owns (h.owns_word (by decide))]
    rfl
  · rw [h.load_next, ok_bind]
    rfl

/-- The last block is taken back, or made smaller or larger where it lies. -/
theorem retract (h : Holds s b last max ⟨x :: user, cleanups⟩ records)
    (hlast : x.addr + x.size = last) :
    Holds (s.put (b.addr + lastOffset) x.addr) b x.addr max ⟨user, cleanups⟩ records :=
  ⟨(h.drop.toStructured).setLast (h.layout.retract hlast).2, h.ledger⟩

theorem resizeInPlace (h : Holds s b last max ⟨x :: user, cleanups⟩ records)
    (hlast : x.addr + x.size = last) (hroom : x.addr + n ≤ b.addr + b.size) :
    Holds (s.put (b.addr + lastOffset) (x.addr + n)) b (x.addr + n) max
      ⟨⟨x.addr, n⟩ :: user, cleanups⟩ records := by
  obtain ⟨-, hlayout⟩ := h.layout.retract hlast
  obtain ⟨hcarved, hsmall, hitems, hrecords⟩ := hlayout.carve (le_refl _) hroom
  have h' := h.drop.toStructured.setLast hcarved
  refine ⟨⟨h'.layout.addItem (Or.inl hsmall) hitems fun r hr => (hrecords r hr).symm, h'.words⟩,
    h.ledger⟩

theorem shrink (h : Holds s b last max ⟨x :: user, cleanups⟩ records) (hpos : 0 < n)
    (hle : n ≤ x.size) : Holds s b last max ⟨⟨x.addr, n⟩ :: user, cleanups⟩ records :=
  ⟨⟨h.layout.shrink hpos hle, h.words⟩, h.ledger⟩

/-- The block moves, and its old place is released. -/
theorem move (h : Holds s b last max ⟨x :: user, cleanups⟩ records) (hlt : x.size < n)
    (hroom : FindsRoom env s b.addr n) :
    ∃ p s' last' records', moveBlock env s b.addr x.addr x.size n = Except.ok (p, s') ∧
      Holds s' b last' max ⟨if p = 0 then x :: user else ⟨p, n⟩ :: user, cleanups⟩ records' ∧
      ItemsKept s s' (⟨user, cleanups⟩ : Client).items ∧
      (p ≠ 0 → readAt s'.heap.mem p x.size = readAt s.heap.mem x.addr x.size) := by
  obtain ⟨p, s1, last', records', hrun, h1, hkept⟩ := h.pnalloc_holds hroom
  have hkept' : ItemsKept s s1 (⟨user, cleanups⟩ : Client).items :=
    fun y hy => hkept y (List.mem_cons_of_mem _ hy)
  unfold moveBlock
  rw [if_neg (by omega), hrun, ok_bind]
  dsimp only
  by_cases hp : p = 0
  · subst hp
    exact ⟨0, s1, last', records', rfl, h1, hkept', fun hne => absurd rfl hne⟩
  · rw [Client.grant_of_ne hp] at h1
    rw [if_neg hp]
    have hnew : (⟨p, n⟩ : Range) ∈ (⟨p, n⟩ :: x :: user) := List.mem_cons_self
    have hx : x ∈ (⟨p, n⟩ :: x :: user) := List.mem_cons_of_mem _ List.mem_cons_self
    have hapart : (⟨p, n⟩ : Range).Apart x := by
      obtain ⟨hall, -⟩ := List.pairwise_cons.mp h1.layout.apart
      exact hall x List.mem_cons_self
    have hdst : s1.heap.Owns p x.size := by
      have hown := h1.layout.owns (List.mem_append_left _ hnew)
      exact hown.mono (le_refl p) (Nat.add_le_add_left hlt.le p)
    have hsrc : s1.heap.Owns x.addr x.size := h1.layout.owns (List.mem_append_left _ hx)
    have hcopy := memcpy_of_owns hdst hsrc (by
      unfold Range.Apart at hapart
      dsimp only at hapart
      omega)
    have hlen : p + (readAt s1.heap.mem x.addr x.size).length ≤ p + n := by
      rw [readAt_length]
      omega
    obtain ⟨-, h2, hkept2⟩ := h1.write hnew (le_refl p) hlen
    have hswap : Holds _ b last' max ⟨x :: ⟨p, n⟩ :: user, cleanups⟩ records' :=
      h2.perm (List.Perm.swap ..)
    obtain ⟨_, s3, records3, hfree, h3, hkept3⟩ := hswap.drop.pfree_holds
      (fun c hc haddr => hswap.layout.alone hc haddr.symm)
    rw [hcopy, ok_bind, hfree, ok_bind]
    refine ⟨p, s3, last', records3, rfl, by rwa [if_neg hp], ?_, fun _ => ?_⟩
    · -- the others are apart from the new block
      obtain ⟨hothers, -⟩ := List.pairwise_cons.mp h1.layout.apart
      intro y hy
      have hcopied : y.Kept s1.heap.mem _ := hkept2 y (hothers y (List.mem_cons_of_mem _ hy)).symm
      exact Keeps.trans (hkept' y hy) (Keeps.trans hcopied (hkept3 y (List.mem_cons_of_mem _ hy)))
    calc readAt s3.heap.mem p x.size
        = readAt (writeAt s1.heap.mem p (readAt s1.heap.mem x.addr x.size)) p x.size :=
          Keeps.read (hkept3 ⟨p, n⟩ List.mem_cons_self) hlt.le
      _ = readAt s1.heap.mem x.addr x.size := by
          have hread : readAt (writeAt s1.heap.mem p (readAt s1.heap.mem x.addr x.size)) p
              (readAt s1.heap.mem x.addr x.size).length = _ := readAt_writeAt
          rwa [readAt_length] at hread
      _ = readAt s.heap.mem x.addr x.size := Keeps.read (hkept x List.mem_cons_self) (le_refl _)

/-- The block is given back. -/
theorem giveBack (env : Env) (h : Holds s b last max ⟨x :: user, cleanups⟩ records) :
    ∃ ok s' records', pfree env s b.addr x.addr = Except.ok (ok, s') ∧
      Holds s' b last max ⟨user, cleanups⟩ records' ∧
      ItemsKept s s' (⟨user, cleanups⟩ : Client).items :=
  h.drop.pfree_holds (fun _ hc haddr => h.layout.alone hc haddr.symm)

/-- The end of `hcore_prealloc`. -/
theorem moveBlock_holds (h : Holds s b last max ⟨x :: user, cleanups⟩ records) (hpos : 0 < n)
    (hroom : x.size < n → FindsRoom env s b.addr n) :
    ∃ p s' last' records', moveBlock env s b.addr x.addr x.size n = Except.ok (p, s') ∧
      Holds s' b last' max ⟨if p = 0 then x :: user else ⟨p, n⟩ :: user, cleanups⟩ records' ∧
      ItemsKept s s' (⟨user, cleanups⟩ : Client).items ∧
      (p ≠ 0 → readAt s'.heap.mem p (min x.size n) = readAt s.heap.mem x.addr (min x.size n)) := by
  by_cases hle : n ≤ x.size
  · refine ⟨x.addr, s, last, records, if_pos hle, ?_, fun _ _ => Keeps.refl _ _ _, fun _ => rfl⟩
    split
    · exact h
    · exact h.shrink hpos hle
  · rw [min_eq_left (by omega)]
    exact h.move (by omega) (hroom (by omega))

/-- A block that is held is resized. -/
theorem prealloc_held (h : Holds s b last max ⟨x :: user, cleanups⟩ records) (hx : x.addr ≠ 0)
    (hroom : ResizeFindsRoom env s b.addr x n) :
    ∃ p s' last' records', prealloc env s b.addr x.addr x.size n = Except.ok (p, s') ∧
      Holds s' b last' max
        ⟨if n = 0 then user else if p = 0 then x :: user else ⟨p, n⟩ :: user, cleanups⟩ records' ∧
      ItemsKept s s' (⟨user, cleanups⟩ : Client).items ∧
      (n ≠ 0 → p ≠ 0 →
        readAt s'.heap.mem p (min x.size n) = readAt s.heap.mem x.addr (min x.size n)) := by
  simp only [ResizeFindsRoom, if_neg hx, h.words.max, h.words.last, h.words.bound] at hroom
  have hitem : x ∈ (⟨x :: user, cleanups⟩ : Client).items :=
    List.mem_append_left _ List.mem_cons_self
  have hbound : toUInt64 (x.addr + x.size : ℕ) = x.addr + x.size :=
    toUInt64_of_lt (h.layout.item_lt hitem)
  have htop := h.layout.top_lt
  have hfits := h.layout.fits
  unfold prealloc
  rw [if_neg hx]
  by_cases hzero : n = 0
  · rw [if_pos hzero, h.load_last, ok_bind, hbound]
    simp only [if_pos hzero]
    by_cases hlast : x.addr + x.size = last
    · rw [if_pos hlast, Proc.store_of_owns (h.owns_word (by decide))]
      exact ⟨0, _, x.addr, records, rfl, h.retract hlast, h.drop.kept_last,
        fun hne => absurd hzero hne⟩
    · rw [if_neg hlast]
      obtain ⟨ok, s', records', hfree, h', hkept⟩ := h.giveBack env
      exact ⟨0, s', last, records', bind_of_ok hfree rfl, h', hkept, fun hne => absurd hzero hne⟩
  · rw [if_neg hzero, h.load_max, ok_bind]
    simp only [if_neg hzero] at hroom ⊢
    by_cases hplace : x.size ≤ max ∧ x.addr + x.size = last
    · rw [if_pos hplace] at hroom
      obtain ⟨hsize, hlast⟩ := hplace
      rw [if_pos hsize, h.resizeLast_eq, ok_bind, hbound, toUInt64_of_lt hroom.1]
      by_cases hfit : x.addr + n ≤ b.addr + b.size
      · rw [if_pos ⟨hlast, hfit⟩]
        refine ⟨x.addr, _, x.addr + n, records, rfl, ?_, h.drop.kept_last, fun _ _ => ?_⟩
        · rw [if_neg hx]
          exact h.resizeInPlace hlast hfit
        · have hkept : x.Kept s.heap.mem (s.put (b.addr + lastOffset) (x.addr + n)).heap.mem :=
            h.kept_last x hitem
          exact Keeps.read hkept (min_le_left _ _)
      · rw [if_neg fun hand => hfit hand.2]
        obtain ⟨p, s', last', records', hrun, h', hkept, hread⟩ :=
          h.moveBlock_holds (Nat.pos_of_ne_zero hzero) fun _ => hroom.2 (by omega)
        exact ⟨p, s', last', records', hrun, h', hkept, fun _ => hread⟩
    · rw [if_neg hplace] at hroom
      obtain ⟨p, s', last', records', hrun, h', hkept, hread⟩ :=
        h.moveBlock_holds (Nat.pos_of_ne_zero hzero) hroom
      refine ⟨p, s', last', records', ?_, h', hkept, fun _ => hread⟩
      split
      · next hsize =>
        rw [h.resizeLast_eq, ok_bind, hbound, if_neg fun hand => hplace ⟨hsize, hand.1⟩]
        exact hrun
      · exact hrun

/-- `hcore_prealloc` of a block that is held, or of NULL. -/
theorem prealloc_holds (h : Holds s b last max cl records)
    (hx : x.addr = 0 ∨ x ∈ cl.user) (hroom : ResizeFindsRoom env s b.addr x n) :
    ∃ p s' last' records', prealloc env s b.addr x.addr x.size n = Except.ok (p, s') ∧
      Holds s' b last' max (cl.resize x n p) records' ∧
      (x.addr ≠ 0 → n ≠ 0 → p ≠ 0 →
        readAt s'.heap.mem p (min x.size n) = readAt s.heap.mem x.addr (min x.size n)) := by
  unfold Client.resize
  by_cases hzero : x.addr = 0
  · simp only [ResizeFindsRoom, if_pos hzero] at hroom
    obtain ⟨p, s', last', records', hrun, h', -⟩ := h.pnalloc_holds hroom
    refine ⟨p, s', last', records', ?_, ?_, fun hne => absurd hzero hne⟩
    · rw [prealloc, if_pos hzero, hrun]
    · rwa [if_pos hzero]
  · have hmem : x ∈ cl.user := hx.resolve_left hzero
    have hperm := List.perm_cons_erase hmem
    have hcons : Holds s b last max ⟨x :: cl.user.erase x, cl.cleanups⟩ records := h.perm hperm
    obtain ⟨p, s', last', records', hrun, h', -, hread⟩ := hcons.prealloc_held hzero hroom
    refine ⟨p, s', last', records', hrun, ?_, fun _ => hread⟩
    rw [if_neg hzero]
    split at h'
    · next hnull =>
      rwa [if_pos hnull]
    · next hnull =>
      rw [if_neg hnull]
      split at h'
      · next hp =>
        rw [if_pos hp]
        exact h'.perm hperm.symm
      · next hp =>
        rwa [if_neg hp]

/-- The callers store a word in what they hold. -/
theorem put_item (h : Holds s b last max cl records) (hx : x ∈ cl.user) {a : ℕ}
    (hstart : x.addr ≤ a) (hend : a + 8 ≤ x.addr + x.size) (v : ℕ) :
    s.store a v = Except.ok (s.put a v) ∧ Holds (s.put a v) b last max cl records := by
  have hown := h.layout.owns (List.mem_append_left _ hx)
  obtain ⟨-, h', -⟩ := h.write hx hstart (by rwa [encode64_length] : a + (encode64 v).length ≤ _)
  exact ⟨Proc.store_of_owns (hown.mono hstart hend), h'⟩

/-- The record of a handler is written, and the pool links to it. -/
theorem linkCleanup {c data : ℕ}
    (h : Holds s b last max ⟨⟨c, cleanupSize⟩ :: user, cleanups⟩ records)
    (hc : c ≠ 0) (hdata : wordAt s.heap.mem (c + 8) = data) :
    ∃ s1 head s2 s3, s.store c 0 = Except.ok s1 ∧
      s1.load (b.addr + cleanupOffset) = Except.ok head ∧
      s1.store (c + 16) head = Except.ok s2 ∧
      s2.store (b.addr + cleanupOffset) c = Except.ok s3 ∧
      wordAt s3.heap.mem (c + 8) = data ∧
      Holds s3 b last max ⟨user, ⟨c, 0, data⟩ :: cleanups⟩ records := by
  have hmem : (⟨c, cleanupSize⟩ : Range) ∈ (⟨c, cleanupSize⟩ :: user) := List.mem_cons_self
  have hitem : (⟨c, cleanupSize⟩ : Range) ∈ (⟨⟨c, cleanupSize⟩ :: user, cleanups⟩ : Client).items :=
    List.mem_append_left _ hmem
  have hheader : (⟨c, cleanupSize⟩ : Range).Apart ⟨b.addr, poolSize⟩ := h.layout.apart_header hitem
  have hlt : c < 2 ^ 64 := (Nat.le_add_right c cleanupSize).trans_lt (h.layout.item_lt hitem)
  obtain ⟨hstore1, h1⟩ := h.put_item hmem (le_refl c)
    (Nat.add_le_add_left (by decide : 8 ≤ cleanupSize) c) 0
  set s1 := s.put c 0 with hs1
  set head := wordAt s1.heap.mem (b.addr + cleanupOffset) with hhead
  obtain ⟨hstore2, h2⟩ := h1.put_item hmem (Nat.le_add_right c 16) (le_refl (c + 24)) head
  set s2 := s1.put (c + 16) head with hs2
  have hkept : Keeps s1.heap.mem s2.heap.mem b.addr poolSize :=
    hheader.symm.kept_put (Nat.le_add_right c 16) (le_refl (c + 24))
  have hhandler : wordAt s2.heap.mem c = 0 := by
    rw [hs2, put_mem, wordAt_other (Or.inl (Nat.add_le_add_left (by decide) c)), hs1, put_mem]
    exact wordAt_same (by decide)
  have hdata' : wordAt s2.heap.mem (c + 8) = data := by
    rw [hs2, put_mem, wordAt_other (Or.inl (le_refl (c + 16))), hs1, put_mem,
      wordAt_other (Or.inr (le_refl (c + 8)))]
    exact hdata
  have hnext : wordAt s2.heap.mem (c + 16) = wordAt s2.heap.mem (b.addr + cleanupOffset) := by
    rw [hkept.word (by decide)]
    exact wordAt_same (wordAt_lt _ _)
  have hrange : (Cleanup.range ⟨c, 0, data⟩).Apart ⟨b.addr, poolSize⟩ := hheader
  have hwords := h2.words.pushCleanup
    (fun r hr => h2.layout.record_apart_header hr)
    (fun k hk => h2.layout.apart_header (Structured.cleanup_mem hk))
    hrange hc hlt hhandler hdata' hnext
  refine ⟨s1, head, s2, s2.put (b.addr + cleanupOffset) c, hstore1,
    h1.load_header (by decide), hstore2, Proc.store_of_owns (h2.owns_word (by decide)),
    (hwords.set _ List.mem_cons_self).2, ⟨⟨?_, hwords⟩, h2.ledger⟩⟩
  exact h2.layout.perm List.perm_middle.symm

/-- `hcore_pool_cleanup_add` -/
theorem cleanupAdd_holds (h : Holds s b last max cl records)
    (hroom : CleanupFindsRoom env s b.addr n) :
    ∃ c s' last' records', poolCleanupAdd env s b.addr n = Except.ok (c, s') ∧
      Holds s' b last' max (cl.addCleanup n c (wordAt s'.heap.mem (c + 8))) records' := by
  obtain ⟨hroom, hroom'⟩ := hroom
  obtain ⟨c, s1, last1, records1, hrun1, h1, -⟩ := h.pnalloc_holds hroom
  unfold poolCleanupAdd
  rw [hrun1, ok_bind]
  dsimp only
  by_cases hc : c = 0
  · subst hc
    exact ⟨0, s1, last1, records1, rfl, h1⟩
  · rw [Client.grant_of_ne hc] at h1
    rw [if_neg hc]
    have hdata : ∃ data s2 last2 records2,
        (if n ≠ 0 then pnalloc env s1 b.addr n else pure (0, s1)) = Except.ok (data, s2) ∧
        Holds s2 b last2 max ((⟨⟨c, cleanupSize⟩ :: cl.user, cl.cleanups⟩ : Client).grant data n)
          records2 ∧ (n = 0 → data = 0) := by
      by_cases hn : n = 0
      · refine ⟨0, s1, last1, records1, if_neg (not_not_intro hn), ?_, fun _ => rfl⟩
        rwa [Client.grant_zero]
      · obtain ⟨data, s2, last2, records2, hrun2, h2, -⟩ :=
          h1.pnalloc_holds (hroom' c s1 hn hrun1 hc)
        exact ⟨data, s2, last2, records2, (if_pos hn).trans hrun2, h2, fun hzero => absurd hzero hn⟩
    obtain ⟨data, s2, last2, records2, hrun2, h2, hnone⟩ := hdata
    rw [ite_bind, hrun2, ok_bind]
    dsimp only
    have hmem : (⟨c, cleanupSize⟩ : Range) ∈
        ((⟨⟨c, cleanupSize⟩ :: cl.user, cl.cleanups⟩ : Client).grant data n).user := by
      unfold Client.grant
      split
      · exact List.mem_cons_self
      · exact List.mem_cons_of_mem _ List.mem_cons_self
    obtain ⟨hstore, h3⟩ := h2.put_item hmem (Nat.le_add_right c 8)
      (Nat.add_le_add_left (by decide : 8 + 8 ≤ cleanupSize) c) data
    rw [hstore, ok_bind]
    by_cases hfail : n ≠ 0 ∧ data = 0
    · rw [if_pos hfail]
      rw [hfail.2, Client.grant_zero] at h3
      exact ⟨0, _, last2, records2, by rw [hfail.2]; rfl, h3.drop⟩
    · rw [if_neg hfail]
      have hlt : data < 2 ^ 64 := by
        by_cases hzero : data = 0
        · rw [hzero]
          exact Nat.two_pow_pos 64
        · have hitem : (⟨data, n⟩ : Range) ∈
              ((⟨⟨c, cleanupSize⟩ :: cl.user, cl.cleanups⟩ : Client).grant data n).items := by
            rw [Client.grant_items hzero]
            exact List.mem_cons_self
          exact (Nat.le_add_right data n).trans_lt (h2.layout.item_lt hitem)
      have h4 : Holds (s2.put (c + 8) data) b last2 max
          ⟨⟨c, cleanupSize⟩ :: (if n = 0 then cl.user else ⟨data, n⟩ :: cl.user), cl.cleanups⟩
          records2 := by
        by_cases hn : n = 0
        · rw [hnone hn, Client.grant_zero] at h3
          rw [hnone hn, if_pos hn]
          exact h3
        · have hne : data ≠ 0 := fun hzero => hfail ⟨hn, hzero⟩
          rw [Client.grant_of_ne hne] at h3
          rw [if_neg hn]
          exact h3.perm (List.Perm.swap ..)
      obtain ⟨s4, head, s5, s6, hstore1, hload, hstore2, hstore3, hword, h6⟩ :=
        h4.linkCleanup hc (wordAt_same hlt)
      rw [hstore1, ok_bind, hload, ok_bind, hstore2, ok_bind, hstore3]
      refine ⟨c, s6, last2, records2, rfl, ?_⟩
      rw [Client.addCleanup, if_neg hc, hword]
      exact h6

/-- The callers set the handler of a record, and its data. -/
theorem setCleanup {c : Cleanup} {handler data : ℕ} (h : Holds s b last max cl records)
    (hc : c ∈ cl.cleanups) (hhandler : handler < 2 ^ 64) (hdata : data < 2 ^ 64) :
    ∃ s1 s2, s.store c.addr handler = Except.ok s1 ∧ s1.store (c.addr + 8) data = Except.ok s2 ∧
      Holds s2 b last max (cl.setCleanup c.addr handler data) records := by
  have hitem : c.range ∈ cl.items := Structured.cleanup_mem hc
  have hown : s.heap.Owns c.addr cleanupSize := h.layout.owns hitem
  set s1 := s.put c.addr handler with hs1
  set s2 := s1.put (c.addr + 8) data with hs2
  have hkept : ∀ y : Range, y.Apart c.range → y.Kept s.heap.mem s2.heap.mem := by
    intro y hy
    have hkept1 : y.Kept s.heap.mem s1.heap.mem :=
      hy.kept_put (le_refl _) (Nat.add_le_add_left (by decide : 8 ≤ cleanupSize) c.addr)
    have hkept2 : y.Kept s1.heap.mem s2.heap.mem :=
      hy.kept_put (Nat.le_add_right c.addr 8)
        (Nat.add_le_add_left (by decide : 8 + 8 ≤ cleanupSize) c.addr)
    exact Keeps.trans hkept1 hkept2
  have hword : wordAt s2.heap.mem c.addr = handler := by
    rw [hs2, put_mem, wordAt_other (Or.inl (le_refl (c.addr + 8))), hs1, put_mem]
    exact wordAt_same hhandler
  have hword' : wordAt s2.heap.mem (c.addr + 8) = data := wordAt_same hdata
  have hnext : wordAt s2.heap.mem (c.addr + 16) = wordAt s.heap.mem (c.addr + 16) := by
    rw [hs2, put_mem, wordAt_other (Or.inr (le_refl (c.addr + 16))), hs1, put_mem]
    exact wordAt_other (Or.inr (Nat.add_le_add_left (by decide : 8 ≤ 16) c.addr))
  -- the other records lie apart from this one
  obtain ⟨-, hcleanups, -⟩ := List.pairwise_append.mp h.layout.apart
  have hothers : ∀ k ∈ cl.cleanups, k.addr ≠ c.addr → k.range.Kept s.heap.mem s2.heap.mem := by
    intro k hk hne
    have hsymm : Std.Symm fun x y : Cleanup => x.range.Apart y.range := ⟨fun _ _ hxy => hxy.symm⟩
    refine hkept _ ((List.pairwise_map.mp hcleanups).forall hk hc ?_)
    rintro rfl
    exact hne rfl
  have hitems : (cl.setCleanup c.addr handler data).items = cl.items := by
    rw [Client.items, Client.setCleanup, Cleanup.map_setAt_range]
    rfl
  refine ⟨s1, s2, Proc.store_of_owns (hown.mono (le_refl _) ?_),
    Proc.store_of_owns (hown.mono (Nat.le_add_right _ 8) ?_), ⟨⟨?_, ?_⟩, h.ledger⟩⟩
  · exact Nat.add_le_add_left (by decide : 8 ≤ cleanupSize) c.addr
  · exact Nat.add_le_add_left (by decide : 8 + 8 ≤ cleanupSize) c.addr
  · rw [hitems]
    exact h.layout
  · refine h.words.setCleanup ?_ ?_ hothers hword hword' hnext
    · exact hkept _ (h.layout.apart_header hitem).symm
    · exact fun r hr => hkept _ (h.layout.recordApart _ hitem r hr).symm

end Holds

end HCore.PoolModel
