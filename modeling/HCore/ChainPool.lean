import HCore.PoolFrames
import HCore.PoolService

/-!
The links of chains in a pool. The pool keeps the links that are given back in
a list through their `next` fields, and hands them out again before it makes a
new one. A link can be given back with its buffer, and finds it again.
-/

namespace HCore.ChainPool

open Machine LittleEndian CHeap PoolModel PoolService

/-- `sizeof(hcore_chain_t)` and `sizeof(hcore_buf_t)` -/
def chainSize : ℕ := 32
def bufSize : ℕ := 32

/-- The fields of `hcore_chain_t`. -/
inductive Field
  | buf
  | next
  | free
  | data
  deriving DecidableEq, Repr

def Field.offset : Field → ℕ
  | buf => 0
  | next => 8
  | free => 16
  | data => 24

/-- The functions behind `cl->free`. They write only into the link that they
are called with. -/
structure Handlers where
  run : (fn cl : ℕ) → Proc → Exec Proc
  bytes : (fn cl : ℕ) → Proc → List UInt8
  length : ∀ fn cl s, (bytes fn cl s).length = chainSize
  writes : ∀ fn cl s, s.heap.Owns cl chainSize →
    run fn cl s = Except.ok ⟨s.heap.withMem (writeAt s.heap.mem cl (bytes fn cl s)), s.log⟩

/-- `hcore_create_pool`, with the list of links that it clears. -/
def createPool (env : Env) (s : Proc) (size : ℕ) : Exec (ℕ × Proc) := do
  let (p, s) ← PoolModel.createPool env s size
  if p = 0 then pure (0, s)
  else do
    let s ← s.store (p + chainOffset) 0
    pure (p, s)

/-- `hcore_alloc_chain` -/
def allocChain (env : Env) (s : Proc) (pool : ℕ) : Exec (ℕ × Proc) := do
  let cl ← s.load (pool + chainOffset)
  if cl ≠ 0 then do
    let next ← s.load (cl + Field.next.offset)
    let s ← s.store (pool + chainOffset) next
    let s ← s.store (cl + Field.next.offset) 0
    let s ← s.store (cl + Field.free.offset) 0
    pure (cl, s)
  else pcalloc env s pool chainSize

/-- `hcore_alloc_chain_with_buf`; a new link without a buffer is not given back. -/
def allocChainWithBuf (env : Env) (s : Proc) (pool : ℕ) : Exec (ℕ × Proc) := do
  let (cl, s) ← allocChain env s pool
  if cl = 0 then pure (0, s)
  else do
    let buf ← s.load (cl + Field.buf.offset)
    if buf ≠ 0 then pure (cl, s)
    else do
      let (buf, s) ← pcalloc env s pool bufSize
      let s ← s.store (cl + Field.buf.offset) buf
      if buf = 0 then pure (0, s) else pure (cl, s)

/-- `hcore_free_chain_hold_buf` -/
def freeChainHoldBuf (hs : Handlers) (s : Proc) (pool cl : ℕ) : Exec Proc := do
  let free ← s.load (cl + Field.free.offset)
  let s ← if free ≠ 0 then hs.run free cl s else pure s
  let s ← s.store (cl + Field.free.offset) 0
  let head ← s.load (pool + chainOffset)
  let s ← s.store (cl + Field.next.offset) head
  s.store (pool + chainOffset) cl

/-- `hcore_free_chain` -/
def freeChain (hs : Handlers) (s : Proc) (pool cl : ℕ) : Exec Proc := do
  let s ← freeChainHoldBuf hs s pool cl
  s.store (cl + Field.buf.offset) 0

/-- `hcore_alloc_buf`; the fields of `hcore_buf_t` are `pos`, `last`, `start` and `end`. -/
def allocBuf (env : Env) (s : Proc) (pool size : ℕ) : Exec (ℕ × Proc) := do
  let (b, s) ← pcalloc env s pool bufSize
  if b = 0 then pure (0, s)
  else do
    let (start, s) ← pnalloc env s pool size
    let s ← s.store (b + 16) start
    let s ← s.store b start
    let s ← s.store (b + 8) start
    if start = 0 then pure (0, s)
    else do
      let s ← s.store (b + 24) (start + size)
      pure (b, s)

/-- A link and its fields. -/
structure Link where
  addr : ℕ
  buf : ℕ
  next : ℕ
  free : ℕ
  data : ℕ
  deriving DecidableEq, Repr

namespace Link

def range (l : Link) : Range := ⟨l.addr, chainSize⟩

def get (l : Link) : Field → ℕ
  | .buf => l.buf
  | .next => l.next
  | .free => l.free
  | .data => l.data

def set (l : Link) (v : ℕ) : Field → Link
  | .buf => { l with buf := v }
  | .next => { l with next := v }
  | .free => { l with free := v }
  | .data => { l with data := v }

/-- The fields are in memory. -/
def Stored (mem : ℕ → UInt8) (l : Link) : Prop :=
  ∀ f : Field, wordAt mem (l.addr + f.offset) = l.get f

/-- What the memory says of the link at an address. -/
def ofMem (mem : ℕ → UInt8) (a : ℕ) : Link :=
  let word (f : Field) := wordAt mem (a + f.offset)
  ⟨a, word .buf, word .next, word .free, word .data⟩

end Link

/-- A pool with one block, what it has handed out, and the first link of its list. -/
structure Pooled (pool head : ℕ) (s : Proc) (items : List Range) : Prop where
  block : OneBlock pool s items
  head : wordAt s.heap.mem (pool + chainOffset) = head

section

variable {env : Env} {pool head a v n p : ℕ} {s s' : Proc} {items items' : List Range} {x : Range}
  {b : Block} {last max : ℕ} {cl : Client} {records : List Record}

/-- A new large block does not lie over the block of the pool. -/
theorem hcoreMalloc_other {c : Block} (hb : b ∈ s.heap.live) (ho : Obtained s s' c) {k : ℕ}
    (hk : k + 8 ≤ b.size) : wordAt s'.heap.mem (b.addr + k) = wordAt s.heap.mem (b.addr + k) := by
  have hapart := ho.fits.apart b hb
  apply wordAt_congr
  intro i hi
  exact ho.keep _ (by omega)

/-- The block of a request goes into a record, which leaves the list of links alone. -/
theorem pallocLarge_chain (h : Holds s b last max cl records)
    (hroom : (hcoreMalloc env s n).1 = 0 ∨ firstUnused 5 records ≠ 0 ∨
      (last + 7) / 8 * 8 + largeSize ≤ b.addr + b.size)
    (hrun : pallocLarge env s b.addr n = Except.ok (p, s')) :
    wordAt s'.heap.mem (b.addr + chainOffset) = wordAt s.heap.mem (b.addr + chainOffset) := by
  have hheader := h.layout.header
  have hfits := h.layout.fits
  have htop := h.layout.top_lt
  have hbelow : chainOffset + 8 ≤ poolSize := by decide
  unfold pallocLarge at hrun
  rcases hcoreMalloc_cases env s n with hfail | ⟨c, s1, hmalloc, rfl, ho⟩
  · rw [hfail] at hrun
    obtain ⟨-, rfl⟩ := Prod.mk.inj (Except.ok.inj hrun)
    rfl
  · obtain ⟨h1, -⟩ := ho.structured h.toStructured
    have hne : c.addr ≠ 0 := ho.fits.pos.ne'
    have hnew := hcoreMalloc_other h.layout.block ho (show chainOffset + 8 ≤ b.size by omega)
    rw [hmalloc] at hroom hrun
    dsimp only at hroom hrun
    rw [if_neg hne, h1.load_header (by decide), ok_bind, h1.freeRecord_head, ok_bind] at hrun
    by_cases hunused : firstUnused 5 records = 0
    · have hplace := (hroom.resolve_left hne).resolve_left (not_not_intro hunused)
      have halign : (if true then alignPtr last else last) = (last + 7) / 8 * 8 :=
        alignPtr_of_room (n := largeSize) (by omega)
      have hbehind : b.addr + poolSize ≤ (last + 7) / 8 * 8 := by omega
      have hmne : (last + 7) / 8 * 8 ≠ 0 := by
        unfold poolSize at hbehind
        omega
      rw [if_neg (not_not_intro hunused), h1.pallocSmall_of_room halign hplace, ok_bind] at hrun
      dsimp only at hrun
      rw [if_neg hmne] at hrun
      obtain ⟨s3, hstore3, hrun⟩ := bind_eq_ok.mp hrun
      obtain ⟨head, -, hrun⟩ := bind_eq_ok.mp hrun
      obtain ⟨s4, hstore4, hrun⟩ := bind_eq_ok.mp hrun
      obtain ⟨s5, hstore5, hrun⟩ := bind_eq_ok.mp hrun
      obtain ⟨-, rfl⟩ := Prod.mk.inj (Except.ok.inj hrun)
      rw [Proc.store_other hstore5 (Or.inr (Nat.add_le_add_left (by decide : largeOffset + 8 ≤ _) _)),
        Proc.store_other hstore4 (Or.inl (by omega)), Proc.store_other hstore3 (Or.inl (by omega)), put_mem,
        wordAt_header (by decide), hnew]
    · obtain ⟨pre, post, hsplit⟩ := firstUnused_split rfl hunused
      have hmem : (⟨firstUnused 5 records, none⟩ : Record) ∈
          pre ++ ⟨firstUnused 5 records, none⟩ :: post :=
        List.mem_append_right _ List.mem_cons_self
      rw [← hsplit] at hmem
      have hinside : b.addr + poolSize ≤ firstUnused 5 records := (h.layout.inside _ hmem).1
      rw [if_pos hunused] at hrun
      obtain ⟨s2, hstore, hrun⟩ := bind_eq_ok.mp hrun
      obtain ⟨-, rfl⟩ := Prod.mk.inj (Except.ok.inj hrun)
      rw [Proc.store_other hstore (Or.inl (by omega)), hnew]

/-- A request leaves the list of links alone. -/
theorem pnalloc_chain (h : Holds s b last max cl records) (hroom : FindsRoom env s b.addr n)
    (hrun : pnalloc env s b.addr n = Except.ok (p, s')) :
    wordAt s'.heap.mem (b.addr + chainOffset) = wordAt s.heap.mem (b.addr + chainOffset) := by
  simp only [FindsRoom, h.words.max, h.words.last, h.words.bound, h.freeRecord_head] at hroom
  unfold pnalloc at hrun
  rw [h.not_customed, ok_bind, if_neg Bool.false_ne_true, h.load_max, ok_bind] at hrun
  split at hroom
  · next hle =>
    rw [if_pos hle, h.pallocSmall_of_room rfl hroom] at hrun
    obtain ⟨-, rfl⟩ := Prod.mk.inj (Except.ok.inj hrun)
    exact wordAt_header (by decide)
  · next hlarge =>
    rw [if_neg hlarge] at hrun
    refine pallocLarge_chain h (hroom.imp_right (Or.imp_left fun hfree hzero => ?_)) hrun
    exact hfree (by rw [hzero])

namespace Pooled

theorem perm (h : Pooled pool head s items) (hperm : items.Perm items') :
    Pooled pool head s items' := by
  obtain ⟨⟨b, last, max, records, hb, hholds⟩, hhead⟩ := h
  exact ⟨⟨b, last, max, records, hb, hholds.perm hperm⟩, hhead⟩

theorem drop (h : Pooled pool head s (x :: items)) : Pooled pool head s items := by
  obtain ⟨⟨b, last, max, records, hb, hholds⟩, hhead⟩ := h
  exact ⟨⟨b, last, max, records, hb, hholds.drop⟩, hhead⟩

theorem apart (h : Pooled pool head s items) : items.Pairwise Range.Apart := by
  obtain ⟨⟨b, last, max, records, hb, hholds⟩, -⟩ := h
  have hapart := hholds.layout.apart
  rwa [oneBlock_items] at hapart

theorem owns (h : Pooled pool head s items) (hx : x ∈ items) : s.heap.Owns x.addr x.size := by
  obtain ⟨⟨b, last, max, records, hb, hholds⟩, -⟩ := h
  exact hholds.layout.owns (List.mem_append_left _ hx)

theorem addr_pos (h : Pooled pool head s items) (hx : x ∈ items) :
    0 < x.addr ∧ x.addr + x.size < 2 ^ 64 := by
  obtain ⟨c, hc, hstart, hend⟩ := h.owns hx
  have hrange := s.heap.inRange c hc
  omega

theorem load_head (h : Pooled pool head s items) :
    s.load (pool + chainOffset) = Except.ok head := by
  obtain ⟨⟨b, last, max, records, rfl, hholds⟩, rfl⟩ := h
  exact hholds.load_header (by decide)

theorem setHead (h : Pooled pool head s items) (hv : v < 2 ^ 64) :
    ∃ s', s.store (pool + chainOffset) v = Except.ok s' ∧ Pooled pool v s' items ∧
      ItemsKept s s' items := by
  obtain ⟨⟨b, last, max, records, rfl, hholds⟩, -⟩ := h
  obtain ⟨hstore, h', hkept⟩ := hholds.setUnused (v := v) (Or.inr rfl)
  rw [oneBlock_items] at hkept
  exact ⟨_, hstore, ⟨⟨b, last, max, records, rfl, h'⟩, wordAt_same hv⟩, hkept⟩

theorem write {bytes : List UInt8} (h : Pooled pool head s items) (hx : x ∈ items)
    (hstart : x.addr ≤ a) (hend : a + bytes.length ≤ x.addr + x.size) :
    Pooled pool head ⟨s.heap.withMem (writeAt s.heap.mem a bytes), s.log⟩ items ∧
      ∀ y : Range, y.Apart x → y.Kept s.heap.mem (writeAt s.heap.mem a bytes) := by
  obtain ⟨⟨b, last, max, records, rfl, hholds⟩, rfl⟩ := h
  obtain ⟨-, hwritten, hkept⟩ := hholds.write hx hstart hend
  have hheader := hkept _ (hholds.layout.apart_header (List.mem_append_left _ hx)).symm
  refine ⟨⟨⟨b, last, max, records, rfl, hwritten⟩, ?_⟩, hkept⟩
  exact Keeps.word hheader (by decide : chainOffset + 8 ≤ poolSize)

theorem palloc (h : Pooled pool head s items) (hroom : FindsRoom env s pool n) :
    ∃ p s', pnalloc env s pool n = Except.ok (p, s') ∧ Pooled pool head s' (granted items p n) ∧
      ItemsKept s s' items := by
  obtain ⟨p, s', hrun, hblock, hkept⟩ := (oneBlock_serves env pool).palloc h.block (Or.inr hroom)
  obtain ⟨⟨b, last, max, records, rfl, hholds⟩, rfl⟩ := h
  exact ⟨p, s', hrun, ⟨hblock, pnalloc_chain hholds hroom hrun⟩, hkept⟩

theorem pcalloc (h : Pooled pool head s items) (hroom : FindsRoom env s pool n) :
    ∃ p s', pcalloc env s pool n = Except.ok (p, s') ∧ Pooled pool head s' (granted items p n) ∧
      ItemsKept s s' items ∧ (p ≠ 0 → ∀ i < n, s'.heap.mem (p + i) = 0) := by
  obtain ⟨p, s1, hrun, h1, hkept⟩ := h.palloc hroom
  unfold PoolModel.pcalloc
  rw [hrun, ok_bind]
  dsimp only
  by_cases hp : p = 0
  · rw [hp] at h1
    exact ⟨0, s1, if_pos hp, h1, hkept, fun hne => absurd rfl hne⟩
  · have hgrant : granted items p n = ⟨p, n⟩ :: items := if_neg hp
    rw [hgrant] at h1
    have hnew : (⟨p, n⟩ : Range) ∈ ⟨p, n⟩ :: items := List.mem_cons_self
    have hlen : p + (List.replicate n (0 : UInt8)).length ≤ p + n := by rw [List.length_replicate]
    obtain ⟨h2, hkept2⟩ := h1.write hnew (le_refl p) hlen
    obtain ⟨hapart, -⟩ := List.pairwise_cons.mp h1.apart
    rw [if_neg hp, memzero_of_owns (h1.owns hnew)]
    refine ⟨p, _, rfl, hgrant ▸ h2, fun x hx => ?_, fun _ i hi => ?_⟩
    · exact Keeps.trans (hkept x hx) (hkept2 x (hapart x hx).symm)
    · have hzero : i < (List.replicate n (0 : UInt8)).length := by rwa [List.length_replicate]
      exact (writeAt_same hzero).trans (List.getElem_replicate _)

end Pooled

end

end HCore.ChainPool
