import HCore.PoolSteps

/-!
Runs of a pool from its creation on. The callers request and resize blocks,
release any pointer, register handlers, and write what they hold. As long as no
request takes a second block for the pool, what it has handed out lies in the
blocks that it has obtained, apart from one another and from its records, and a
block that is resized keeps its contents.
-/

namespace HCore.PoolModel

open Machine LittleEndian CHeap

/-- `p->max` -/
def roomOf (env : Env) (size : ℕ) : ℕ :=
  if size - poolSize < env.pagesize - 1 then size - poolSize else env.pagesize - 1

/-- The fields of a new pool, but for its flags. -/
def headed (env : Env) (s : Proc) (c : Block) : Proc :=
  (((((((s.put (c.addr + lastOffset) (c.addr + poolSize)).put
    (c.addr + endOffset) (c.addr + c.size)).put (c.addr + nextOffset) 0).put
    (c.addr + failedOffset) 0).put (c.addr + maxOffset) (roomOf env c.size)).put
    (c.addr + currentOffset) c.addr).put (c.addr + largeOffset) 0).put
    (c.addr + cleanupOffset) 0

/-- A new pool. -/
def created (env : Env) (s : Proc) (c : Block) : Proc :=
  (headed env s c).put (c.addr + customedOffset)
    (wordAt (headed env s c).heap.mem (c.addr + customedOffset) / 2 * 2)

section

variable {env : Env} {s s' s1 : Proc} {c : Block} {size p : ℕ}

theorem createPool_eq (hsize : poolSize ≤ c.size) (hmalloc : hcoreMalloc env s c.size = (c.addr, s1))
    (ho : Obtained s s1 c) : createPool env s c.size = Except.ok (c.addr, created env s1 c) := by
  have htop := ho.fits.top
  have hmem : c ∈ s1.heap.live := by
    rw [ho.live]
    exact List.mem_cons_self
  -- none of the stores changes what is live
  have hown : ∀ {t : Proc} {k : ℕ}, k + 8 ≤ poolSize → t.heap.live = s1.heap.live →
      t.heap.Owns (c.addr + k) 8 := by
    intro t k hk ht
    refine ⟨c, ?_, Nat.le_add_right _ _, by omega⟩
    rw [ht]
    exact hmem
  have hstore : ∀ {t : Proc} {k v : ℕ}, k + 8 ≤ poolSize → t.heap.live = s1.heap.live →
      t.store (c.addr + k) v = Except.ok (t.put (c.addr + k) v) :=
    fun hk ht => Proc.store_of_owns (hown hk ht)
  have hload : (headed env s1 c).load (c.addr + customedOffset) =
      Except.ok (wordAt (headed env s1 c).heap.mem (c.addr + customedOffset)) :=
    Proc.load_of_owns (hown (by decide) rfl)
  have hroom : toUInt64 ((c.size : ℤ) - poolSize) = c.size - poolSize := by
    unfold toUInt64
    omega
  unfold createPool
  rw [hmalloc]
  dsimp only
  rw [if_neg ho.fits.pos.ne', hroom]
  refine bind_of_ok (hstore (by decide) rfl) ?_
  refine bind_of_ok (hstore (by decide) rfl) ?_
  refine bind_of_ok (hstore (by decide) rfl) ?_
  refine bind_of_ok (hstore (by decide) rfl) ?_
  refine bind_of_ok (hstore (by decide) rfl) ?_
  refine bind_of_ok (hstore (by decide) rfl) ?_
  refine bind_of_ok (hstore (by decide) rfl) ?_
  refine bind_of_ok (hstore (by decide) rfl) (bind_of_ok hload ?_)
  exact bind_of_ok (hstore (by decide) rfl) rfl

theorem created_words (hsize : poolSize ≤ c.size) (htop : c.addr + c.size < 2 ^ 64) :
    Words (created env s c).heap.mem c (c.addr + poolSize) (roomOf env c.size) [] [] := by
  have hmax : roomOf env c.size < 2 ^ 64 := by
    unfold roomOf
    split <;> omega
  have hlast : c.addr + poolSize < 2 ^ 64 := by omega
  unfold created
  set flags := wordAt (headed env s c).heap.mem (c.addr + customedOffset) with hflags
  have hlt : flags / 2 * 2 < 2 ^ 64 := by
    have hword := wordAt_lt (headed env s c).heap.mem (c.addr + customedOffset)
    omega
  constructor
  · simp (disch := decide) only [headed, put_mem, wordAt_header]
    exact wordAt_same hlast
  · simp (disch := decide) only [headed, put_mem, wordAt_header]
    exact wordAt_same htop
  · simp (disch := decide) only [headed, put_mem, wordAt_header]
    exact wordAt_same (by decide)
  · simp (disch := decide) only [headed, put_mem, wordAt_header]
    exact wordAt_same hmax
  · simp (disch := decide) only [headed, put_mem, wordAt_header]
    exact wordAt_same (by omega)
  · rw [put_mem, wordAt_same hlt]
    exact Nat.mul_mod_left _ _
  · simp (disch := decide) only [headed, put_mem, wordAt_header]
    exact wordAt_same (by decide)
  · exact fun r hr => absurd hr List.not_mem_nil
  · simp (disch := decide) only [headed, put_mem, wordAt_header]
    exact wordAt_same (by decide)
  · exact fun k hk => absurd hk List.not_mem_nil

/-- A pool that has just been made has handed out nothing. -/
theorem createPool_holds (hsize : poolSize ≤ size) (hlog : s.log = [])
    (hrun : createPool env s size = Except.ok (p, s')) (hp : p ≠ 0) :
    ∃ b max, b.addr = p ∧ Holds s' b (p + poolSize) max ⟨[], []⟩ [] := by
  rcases hcoreMalloc_cases env s size with hfail | ⟨c, s1, hmalloc, rfl, ho⟩
  · unfold createPool at hrun
    rw [hfail] at hrun
    cases hrun
    exact absurd rfl hp
  · obtain ⟨rfl, rfl⟩ : p = c.addr ∧ s' = created env s1 c :=
      Prod.mk.inj (Except.ok.inj (hrun.symm.trans (createPool_eq hsize hmalloc ho)))
    have hlog' : (created env s1 c).log = [.obtained c.id] := by
      show s1.log = _
      rw [ho.log, hlog, List.nil_append]
    have hcalls : (created env s1 c).heap.calls = s.heap.calls + 1 := ho.calls
    refine ⟨c, roomOf env c.size, rfl, ⟨⟨?_, created_words hsize ho.fits.top⟩, ?_⟩⟩
    · exact {
        block := by
          show c ∈ s1.heap.live
          rw [ho.live]
          exact List.mem_cons_self
        header := le_refl _
        fits := Nat.add_le_add_left hsize c.addr
        inside := fun r hr => absurd hr List.not_mem_nil
        held := fun d hd => absurd hd List.not_mem_nil
        once := List.nodup_nil
        placed := fun x hx => absurd hx List.not_mem_nil
        apart := List.Pairwise.nil
        recordsApart := List.Pairwise.nil
        recordApart := fun x hx => absurd hx List.not_mem_nil }
    · rw [hlog', hcalls]
      refine ⟨?_, List.nodup_singleton _, List.Perm.refl _, ?_⟩
      · intro id hid
        rw [List.mem_singleton.mp hid, ho.id]
        exact Nat.lt_succ_self _
      · intro handler data hran
        exact absurd (List.mem_singleton.mp hran) (by simp)

end

/-- What the callers of a pool do. The block that they resize or write is given
with its size; what they release may be any pointer. -/
inductive Call
  | alloc (n : ℕ)
  | calloc (n : ℕ)
  | resize (x : Range) (n : ℕ)
  | free (x : Range)
  | addCleanup (n : ℕ)
  | setCleanup (a handler data : ℕ)
  | write (x : Range) (i : ℕ) (v : UInt8)
  deriving DecidableEq

namespace Call

def run (env : Env) (pool : ℕ) (s : Proc) : Call → Exec (ℕ × Proc)
  | alloc n => pnalloc env s pool n
  | calloc n => pcalloc env s pool n
  | resize x n => prealloc env s pool x.addr x.size n
  | free x => do
    let (_, s) ← pfree env s pool x.addr
    pure (0, s)
  | addCleanup n => poolCleanupAdd env s pool n
  | setCleanup a handler data => do
    let s ← s.store a handler
    let s ← s.store (a + 8) data
    pure (0, s)
  | write x i v => do
    let heap ← store s.heap (x.addr + i) [v]
    pure (0, { s with heap })

/-- Sizes are of `size_t`, and only what is held is resized or written. A
pointer that is released is not one of a block that the callers hold, or they
give the block up. -/
def Valid (cl : Client) : Call → Prop
  | alloc n => n < 2 ^ 64
  | calloc n => n < 2 ^ 64
  | resize x n => n < 2 ^ 64 ∧ (x.addr = 0 ∨ x ∈ cl.user)
  | free x => x ∈ cl.user ∨ ∀ y ∈ cl.items, y.addr = x.addr → y.size = 0
  | addCleanup n => n < 2 ^ 64
  | setCleanup a handler data => a ∈ cl.cleanups.map Cleanup.addr ∧ handler < 2 ^ 64 ∧ data < 2 ^ 64
  | write x i _ => x ∈ cl.user ∧ i < x.size

/-- The call is served without a second block for the pool. -/
def FitsBlock (env : Env) (pool : ℕ) (s : Proc) : Call → Prop
  | alloc n => FindsRoom env s pool n
  | calloc n => FindsRoom env s pool n
  | resize x n => ResizeFindsRoom env s pool x n
  | addCleanup n => CleanupFindsRoom env s pool n
  | _ => True

/-- What the callers hold after the call, which answers `p`. -/
def after (cl : Client) (s' : Proc) (p : ℕ) : Call → Client
  | alloc n => cl.grant p n
  | calloc n => cl.grant p n
  | resize x n => cl.resize x n p
  | free x => ⟨cl.user.erase x, cl.cleanups⟩
  | addCleanup n => cl.addCleanup n p (wordAt s'.heap.mem (p + 8))
  | setCleanup a handler data => cl.setCleanup a handler data
  | write _ _ _ => cl

/-- A block that is resized keeps its contents as far as both sizes go. -/
def KeepsContents (s s' : Proc) (p : ℕ) : Call → Prop
  | resize x n => x.addr ≠ 0 → n ≠ 0 → p ≠ 0 →
      readAt s'.heap.mem p (min x.size n) = readAt s.heap.mem x.addr (min x.size n)
  | _ => True

end Call

/-- A run of calls to a pool that `hcore_create_pool` has made, of which every one is allowed. -/
inductive Run (env : Env) (pool : ℕ) (allowed : Proc → Call → Prop) : Proc → Client → Prop
  | create {s s' : Proc} {size : ℕ} (hsize : poolSize ≤ size) (hlog : s.log = [])
      (hrun : createPool env s size = Except.ok (pool, s')) (hpool : pool ≠ 0) :
      Run env pool allowed s' ⟨[], []⟩
  | step {s s' : Proc} {cl : Client} {p : ℕ} (call : Call) (hrun : Run env pool allowed s cl)
      (hvalid : call.Valid cl) (hallowed : allowed s call)
      (hcall : call.run env pool s = Except.ok (p, s')) :
      Run env pool allowed s' (call.after cl s' p)

def recordRange (a : ℕ) : Range := ⟨a, largeSize⟩

/-- What the callers hold, and the records of the pool, lie each in a block that
the pool has obtained, and no two of them overlap. -/
def Separated (pool : ℕ) (s : Proc) (cl : Client) : Prop :=
  ∃ nodes, Chained s.heap.mem 0 (wordAt s.heap.mem (pool + largeOffset)) nodes ∧
    (∀ x ∈ cl.items ++ nodes.map recordRange,
      ∃ c ∈ s.heap.live, Event.obtained c.id ∈ s.log ∧ c.Covers x.addr x.size) ∧
    (cl.items ++ nodes.map recordRange).Pairwise Range.Apart

namespace Holds

variable {env : Env} {s : Proc} {b : Block} {last max : ℕ} {cl : Client} {records : List Record}

/-- Any pointer may be released. -/
theorem free_holds (env : Env) (h : Holds s b last max cl records) {x : Range}
    (hx : x ∈ cl.user ∨ ∀ y ∈ cl.items, y.addr = x.addr → y.size = 0) :
    ∃ ok s' records', pfree env s b.addr x.addr = Except.ok (ok, s') ∧
      Holds s' b last max ⟨cl.user.erase x, cl.cleanups⟩ records' := by
  by_cases hmem : x ∈ cl.user
  · have hcons : Holds s b last max ⟨x :: cl.user.erase x, cl.cleanups⟩ records :=
      h.perm (List.perm_cons_erase hmem)
    obtain ⟨ok, s', records', hrun, h', -⟩ := hcons.giveBack env
    exact ⟨ok, s', records', hrun, h'⟩
  · have hempty := hx.resolve_left hmem
    rw [List.erase_of_not_mem hmem]
    have halone : ∀ c ∈ heldBlocks records, c.addr = x.addr → ∀ y ∈ cl.items, y.addr ≠ c.addr := by
      intro c hc haddr y hy hyc
      have hpos := h.layout.pos_of_large hy hc hyc
      rw [hempty y hy (hyc.trans haddr)] at hpos
      exact lt_irrefl _ hpos
    obtain ⟨ok, s', records', hrun, h', -⟩ := h.pfree_holds halone
    exact ⟨ok, s', records', hrun, h'⟩

/-- Every valid call that fits the block of the pool is served. -/
theorem serves (h : Holds s b last max cl records) {call : Call} (hvalid : call.Valid cl)
    (hfits : call.FitsBlock env b.addr s) :
    ∃ p s' last' records', call.run env b.addr s = Except.ok (p, s') ∧
      Holds s' b last' max (call.after cl s' p) records' ∧ call.KeepsContents s s' p := by
  cases call with
  | alloc n =>
    obtain ⟨p, s', last', records', hrun, h', -⟩ := h.pnalloc_holds hfits
    exact ⟨p, s', last', records', hrun, h', trivial⟩
  | calloc n =>
    obtain ⟨p, s', last', records', hrun, h'⟩ := h.pcalloc_holds hfits
    exact ⟨p, s', last', records', hrun, h', trivial⟩
  | resize x n => exact h.prealloc_holds hvalid.2 hfits
  | free x =>
    obtain ⟨ok, s', records', hrun, h'⟩ := h.free_holds env hvalid
    exact ⟨0, s', last, records', bind_of_ok hrun rfl, h', trivial⟩
  | addCleanup n =>
    obtain ⟨p, s', last', records', hrun, h'⟩ := h.cleanupAdd_holds hfits
    exact ⟨p, s', last', records', hrun, h', trivial⟩
  | setCleanup a handler data =>
    obtain ⟨ha, hhandler, hdata⟩ := hvalid
    obtain ⟨c, hc, rfl⟩ := List.mem_map.mp ha
    obtain ⟨s1, s2, hstore, hstore', h'⟩ := h.setCleanup hc hhandler hdata
    exact ⟨0, s2, last, records, bind_of_ok hstore (bind_of_ok hstore' rfl), h', trivial⟩
  | write x i v =>
    obtain ⟨hx, hi⟩ := hvalid
    have hend : x.addr + i + [v].length ≤ x.addr + x.size := by
      rw [List.length_singleton]
      omega
    obtain ⟨hstore, h', -⟩ := h.write hx (Nat.le_add_right x.addr i) hend
    exact ⟨0, _, last, records, bind_of_ok hstore rfl, h', trivial⟩

theorem separated (h : Holds s b last max cl records) : Separated b.addr s cl := by
  have hranges : (records.map Record.addr).map recordRange = records.map Record.range := by
    rw [List.map_map]
    rfl
  refine ⟨records.map Record.addr, h.words.large, ?_, ?_⟩
  · rw [hranges]
    intro x hx
    rcases List.mem_append.mp hx with hx | hx
    · obtain ⟨d, hd, hlive, hcover⟩ := h.layout.covered hx
      exact ⟨d, hlive, h.ledger.obtained hd, hcover⟩
    · obtain ⟨r, hr, rfl⟩ := List.mem_map.mp hx
      exact ⟨b, h.layout.block, h.ledger.obtained List.mem_cons_self, h.layout.record_covered hr⟩
  · rw [hranges]
    refine List.pairwise_append.mpr
      ⟨h.layout.apart, List.pairwise_map.mpr h.layout.recordsApart, ?_⟩
    intro x hx y hy
    obtain ⟨r, hr, rfl⟩ := List.mem_map.mp hy
    exact h.layout.recordApart x hx r hr

end Holds

section

variable {env : Env} {pool : ℕ} {s : Proc} {cl : Client}

/-- The pool and its callers along a run in which every call fits the block. -/
theorem Run.holds (h : Run env pool (fun s call => call.FitsBlock env pool s) s cl) :
    ∃ b last max records, b.addr = pool ∧ Holds s b last max cl records := by
  induction h with
  | create hsize hlog hrun hpool =>
    obtain ⟨b, max, hb, h⟩ := createPool_holds hsize hlog hrun hpool
    exact ⟨b, _, max, [], hb, h⟩
  | step call _ hvalid hallowed hcall ih =>
    obtain ⟨b, last, max, records, rfl, h⟩ := ih
    obtain ⟨p, s', last', records', hrun, h', -⟩ := h.serves hvalid hallowed
    cases hrun.symm.trans hcall
    exact ⟨b, last', max, records', rfl, h'⟩

/-- Along every run in which no request takes a second block for the pool, what
is held is separated, and the next such call is served and keeps contents. -/
theorem one_block_separated (h : Run env pool (fun s call => call.FitsBlock env pool s) s cl) :
    Separated pool s cl ∧ ∀ call : Call, call.Valid cl → call.FitsBlock env pool s →
      ∃ p s', call.run env pool s = Except.ok (p, s') ∧ Separated pool s' (call.after cl s' p) ∧
        call.KeepsContents s s' p := by
  obtain ⟨b, last, max, records, rfl, hpool⟩ := h.holds
  refine ⟨hpool.separated, fun call hvalid hfits => ?_⟩
  obtain ⟨p, s', last', records', hrun, h', hkeeps⟩ := hpool.serves hvalid hfits
  exact ⟨p, s', hrun, h'.separated, hkeeps⟩

end

/-- Pages of 4 KiB, and an allocator that refuses nothing that fits. -/
def bumpEnv : Env where
  alloc := bumpAllocator
  pagesize := 4096
  pagesize_pos := by decide
  customAlloc _ _ _ heap := (0, heap)
  customFree _ _ _ heap := pure heap
  customDestroy _ _ heap := pure heap

def idleProc : Proc := ⟨emptyHeap, []⟩

/-- The process after a call that returns. -/
def resultOf (x : Exec (ℕ × Proc)) : Proc :=
  match x with
  | .ok (_, s) => s
  | .error _ => idleProc

theorem eq_resultOf {x : Exec (ℕ × Proc)} {p : ℕ} (h : x.map Prod.fst = Except.ok p) :
    x = Except.ok (p, resultOf x) := by
  cases x with
  | error e => cases h
  | ok r =>
    cases h
    rfl

/-- A pool with room for 16 bytes. -/
def smallPool : Proc := resultOf (createPool bumpEnv idleProc 136)

theorem smallPool_run (allowed : Proc → Call → Prop) : Run bumpEnv 16 allowed smallPool ⟨[], []⟩ :=
  .create (by decide : poolSize ≤ 136) rfl (eq_resultOf (by decide +kernel)) (by decide)

theorem one_block_separated_small : Separated 16 smallPool ⟨[], []⟩ ∧
    ∃ p s', (Call.alloc 8).run bumpEnv 16 smallPool = Except.ok (p, s') ∧
      Separated 16 s' ((Call.alloc 8).after ⟨[], []⟩ s' p) ∧
      (Call.alloc 8).KeepsContents smallPool s' p := by
  obtain ⟨hseparated, hnext⟩ := one_block_separated (smallPool_run _)
  have hroom : FindsRoom bumpEnv smallPool 16 8 := by decide +kernel
  exact ⟨hseparated, hnext (.alloc 8) (by decide : 8 < 2 ^ 64) hroom⟩

/-- The pool when its room is used up, and with two blocks in its second block. -/
def fullPool : Proc := resultOf (pnalloc bumpEnv smallPool 16 16)

def overlaidPool : Proc := resultOf (pnalloc bumpEnv fullPool 16 8)

def movedLast : Proc := resultOf (pnalloc bumpEnv overlaidPool 16 8)

def resizedPool : Proc := resultOf (prealloc bumpEnv movedLast 16 192 8 16)

theorem movedLast_run : Run bumpEnv 16 (fun _ _ => True) movedLast
    ⟨[⟨200, 8⟩, ⟨192, 8⟩, ⟨136, 16⟩], []⟩ := by
  have hfull : Run bumpEnv 16 (fun _ _ => True) fullPool ⟨[⟨136, 16⟩], []⟩ :=
    (smallPool_run _).step (.alloc 16) (by decide : 16 < 2 ^ 64) trivial
      (eq_resultOf (by decide +kernel) : _ = Except.ok (136, fullPool))
  have hoverlaid : Run bumpEnv 16 (fun _ _ => True) overlaidPool ⟨[⟨192, 8⟩, ⟨136, 16⟩], []⟩ :=
    hfull.step (.alloc 8) (by decide : 8 < 2 ^ 64) trivial
      (eq_resultOf (by decide +kernel) : _ = Except.ok (192, overlaidPool))
  exact hoverlaid.step (.alloc 8) (by decide : 8 < 2 ^ 64) trivial
    (eq_resultOf (by decide +kernel) : _ = Except.ok (200, movedLast))

/-- A pool of 121 bytes whose one byte is used up. -/
def oddPool : Proc := resultOf (createPool bumpEnv idleProc 121)

def fullOddPool : Proc := resultOf (pnalloc bumpEnv oddPool 16 1)

theorem fullOddPool_run : Run bumpEnv 16 (fun _ _ => True) fullOddPool ⟨[⟨136, 1⟩], []⟩ := by
  have hcreate : Run bumpEnv 16 (fun _ _ => True) oddPool ⟨[], []⟩ :=
    .create (by decide : poolSize ≤ 121) rfl (eq_resultOf (by decide +kernel)) (by decide)
  exact hcreate.step (.alloc 1) (by decide : 1 < 2 ^ 64) trivial
    (eq_resultOf (by decide +kernel) : _ = Except.ok (136, fullOddPool))

/-- The first block from a second pool block lies over `d.last` of its header:
when another block is taken from there, its contents are lost, also for the
`hcore_prealloc` that takes it. A record that no longer fits after its address
is rounded up is put behind the end of the pool. -/
theorem second_block_overlays_header :
    (∃ s cl s' p, Run bumpEnv 16 (fun _ _ => True) s cl ∧ (Call.resize ⟨192, 8⟩ 16).Valid cl ∧
      (Call.resize ⟨192, 8⟩ 16).run bumpEnv 16 s = Except.ok (p, s') ∧
      (obtainedIds s'.log).length = s'.heap.calls ∧
      ¬ (Call.resize ⟨192, 8⟩ 16).KeepsContents s s' p) ∧
    ∃ s cl, Run bumpEnv 16 (fun _ _ => True) s cl ∧ (Call.alloc 2).Valid cl ∧
      ¬ ∃ r, (Call.alloc 2).run bumpEnv 16 s = Except.ok r := by
  constructor
  · refine ⟨movedLast, _, resizedPool, 208, movedLast_run, ?_,
      eq_resultOf (by decide +kernel), ?_, ?_⟩
    · exact ⟨by decide, Or.inr (List.mem_cons_of_mem _ List.mem_cons_self)⟩
    · decide +kernel
    · intro hkeeps
      have hlost : readAt resizedPool.heap.mem 208 8 ≠ readAt movedLast.heap.mem 192 8 := by
        decide +kernel
      exact hlost (hkeeps (by decide) (by decide) (by decide))
  · refine ⟨fullOddPool, _, fullOddPool_run, (by decide : 2 < 2 ^ 64), ?_⟩
    rintro ⟨r, hrun⟩
    have hfault : ((Call.alloc 2).run bumpEnv 16 fullOddPool).map Prod.fst = undefined := by
      decide +kernel
    rw [hrun] at hfault
    cases hfault

end HCore.PoolModel
