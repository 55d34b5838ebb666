import HCore.SlabClasses

/-!
Runs of calls that allocate and free blocks. A block lies in its own run of
descriptors, and a descriptor stands for half a page, so blocks cannot
overlap as long as every class hands out the first chunk of a new page. The
second chunk of a class comes from a page that is in use, at an address that
does not depend on the bit that was found.
-/

namespace HCore.SlabRuns

open Words Machine Base SlabPool SlabPages SlabAlloc SlabLayout SlabFreeList SlabClasses Runs

structure Block where
  addr : ℕ
  size : ℕ
  deriving DecidableEq, Repr

/-- A pool and the blocks that callers hold. -/
structure State where
  pool : Pool
  live : List Block

inductive Call
  | alloc (size : ℕ)
  | free (b : Block)

/-- One call that returns. -/
inductive Step (P : PageSize) : State → Call → State → Prop
  | allocBlock {s s' : Pool} {live : List Block} {size fuel p : ℕ} (hsize : 0 < size)
      (hrun : slabAllocLocked P.geometry fuel s size = Except.ok (p, s')) (hp : p ≠ 0) :
      Step P ⟨s, live⟩ (.alloc size) ⟨s', ⟨p, size⟩ :: live⟩
  | allocNone {s s' : Pool} {live : List Block} {size fuel : ℕ} (hsize : 0 < size)
      (hrun : slabAllocLocked P.geometry fuel s size = Except.ok (0, s')) :
      Step P ⟨s, live⟩ (.alloc size) ⟨s', live⟩
  | free {s s' : Pool} {live : List Block} {b : Block} (hb : b ∈ live)
      (hrun : slabFreeLocked P.geometry s b.addr = Except.ok s') :
      Step P ⟨s, live⟩ (.free b) ⟨s', live.erase b⟩

/-- The states that calls with the property `guard` reach from a new pool. -/
inductive Reaches (P : PageSize) (M : Mapping P) (size : ℕ) (guard : State → Call → Prop) :
    State → Prop
  | init {s : Pool} (h : createShpool P M size = Except.ok s) : Reaches P M size guard ⟨s, []⟩
  | call {st st' : State} {c : Call} (h : Reaches P M size guard st) (hc : guard st c)
      (hstep : Step P st c st') : Reaches P M size guard st'

/-- What a new pool has and every call keeps holds in all states that are reached. -/
theorem Reaches.invariant {P : PageSize} {M : Mapping P} {size : ℕ} {guard : State → Call → Prop}
    {I : State → Prop} (hinit : ∀ s, Created P M size s → I ⟨s, []⟩)
    (hkeep : ∀ st st' c, I st → guard st c → Step P st c st' → I st') {st : State}
    (h : Reaches P M size guard st) : I st := by
  induction h with
  | init h =>
    obtain ⟨s, hrun, hcreated⟩ := createShpool_spec P M size
    rw [h] at hrun
    cases hrun
    exact hinit _ hcreated
  | call _ hc hstep ih => exact hkeep _ _ _ ih hc hstep

/-- A call that allocates, by the three ways in which the allocation can go. -/
theorem Step.of_alloc {P : PageSize} {st st' : State} {size : ℕ} {I : State → Prop} (h : I st)
    (halloc : ∀ fuel, slabAllocLocked P.geometry fuel st.pool size = outOfFuel ∨
      slabAllocLocked P.geometry fuel st.pool size = Except.ok (0, st.pool) ∨
      ∃ p s', p ≠ 0 ∧ slabAllocLocked P.geometry fuel st.pool size = Except.ok (p, s') ∧
        I ⟨s', ⟨p, size⟩ :: st.live⟩)
    (hstep : Step P st (.alloc size) st') : I st' := by
  cases hstep with
  | @allocBlock s s' live _ fuel p hsize hrun hp =>
    rcases halloc fuel with hcase | hcase | ⟨p, s', -, hcase, hnext⟩
    · rw [hcase] at hrun
      cases hrun
    · rw [hcase] at hrun
      cases hrun
      exact absurd rfl hp
    · rw [hcase] at hrun
      cases hrun
      exact hnext
  | @allocNone s s' live _ fuel hsize hrun =>
    rcases halloc fuel with hcase | hcase | ⟨p, s', hp, hcase, -⟩
    · rw [hcase] at hrun
      cases hrun
    · rw [hcase] at hrun
      cases hrun
      exact h
    · rw [hcase] at hrun
      cases hrun
      exact absurd rfl hp

/-- The bytes of a block: the chunk of its class, or what was asked for. -/
def blockSize (P : PageSize) (s : Pool) (size : ℕ) : ℕ :=
  if unit P < size then size else 2 ^ classShift s size

def IsSmall (s : Pool) (i : ℕ) : Prop := s.word (prevOf (s.page i)) &&& slabPageMask = slabSmall

/-- The bytes of the map at the start of a page of small chunks. -/
def bitmapSize (P : PageSize) (s : Pool) (i : ℕ) : ℕ :=
  8 * (chunks P (s.word (slabOf (s.page i))) / 64)

/-- The blocks are large enough, lie inside the pool, and overlap neither
each other nor the maps of small pages. -/
structure NoOverlap (P : PageSize) (N : ℕ) (st : State) : Prop where
  size_le : ∀ b ∈ st.live, b.size ≤ blockSize P st.pool b.size
  inside : ∀ b ∈ st.live, st.pool.start ≤ b.addr ∧
    b.addr + blockSize P st.pool b.size ≤ st.pool.endAddr
  disjoint : st.live.Pairwise (fun b b' =>
    b.addr + blockSize P st.pool b.size ≤ b'.addr ∨
      b'.addr + blockSize P st.pool b'.size ≤ b.addr)
  bitmaps : ∀ b ∈ st.live, ∀ i < N, IsSmall st.pool i →
    b.addr + blockSize P st.pool b.size ≤ pageAddr P st.pool i ∨
      pageAddr P st.pool i + bitmapSize P st.pool i ≤ b.addr

/-- The class of a request has a slot head, and its list is empty. -/
def FreshClass (P : PageSize) (s : Pool) (size : ℕ) : Prop :=
  classShift s size - s.minShift < slotCount P ∧
    s.word (nextOf (s.slot (classShift s size - s.minShift))) =
      s.slot (classShift s size - s.minShift)

instance (P : PageSize) (s : Pool) (size : ℕ) : Decidable (FreshClass P s size) :=
  inferInstanceAs (Decidable (_ ∧ _))

/-- The pages that a request above half a page asks for, before the count is
cut to 32 bits. -/
def pagesWanted (P : PageSize) (size : ℕ) : ℕ :=
  (size >>> (P.log - 1)) + if size % P.bytes ≠ 0 then 1 else 0

/-- A request whose page count is a 32-bit integer, or whose class has no
partly used page; nothing is freed. -/
def Fresh (P : PageSize) (st : State) : Call → Prop
  | .alloc size => (unit P < size → pagesWanted P size < 2 ^ 32) ∧
      (size ≤ unit P → FreshClass P st.pool size)
  | .free _ => False

/-- A block and the run of descriptors it was cut from. -/
structure Within (P : PageSize) (s : Pool) (b : Block) (r : Run) : Prop where
  size_le : b.size ≤ blockSize P s b.size
  lower : pageAddr P s r.start ≤ b.addr
  upper : b.addr + blockSize P s b.size ≤ pageAddr P s r.start + r.len * unit P
  bitmap : ∀ i, r.Covers i → IsSmall s i → pageAddr P s i + bitmapSize P s i ≤ b.addr

/-- The blocks in use, each with the run of its own that it lies in. -/
structure RunInv (P : PageSize) (N : ℕ) (st : State) (frees : List Run)
    (held : List (Block × Run)) : Prop where
  list : FreeList P N st.pool frees (held.map Prod.snd)
  live : st.live = held.map Prod.fst
  within : ∀ x ∈ held, Within P st.pool x.1 x.2

section

variable {P : PageSize} {N : ℕ} {s s' : Pool} {st : State} {live : List Block}
  {frees runs : List Run} {held : List (Block × Run)}

theorem bitmapSize_le (P : PageSize) (s : Pool) (i : ℕ) : bitmapSize P s i ≤ unit P := by
  have hle : chunks P (s.word (slabOf (s.page i))) ≤ P.bytes := by
    rw [chunks, Nat.shiftRight_eq_div_pow]
    exact Nat.div_le_self ..
  rw [bytes_eq] at hle
  unfold bitmapSize
  omega

/-- Blocks in disjoint runs do not overlap. -/
theorem disjoint_of_within {b b' : Block} {r r' : Run} (h : Within P s b r)
    (h' : Within P s b' r') (hr : r.stop ≤ r'.start ∨ r'.stop ≤ r.start) :
    b.addr + blockSize P s b.size ≤ b'.addr ∨ b'.addr + blockSize P s b'.size ≤ b.addr := by
  rcases hr with hr | hr
  · have hmono := pageAddr_mono P s hr
    have hupper := h.upper
    have hlower := h'.lower
    exact Or.inl (by omega)
  · have hmono := pageAddr_mono P s hr
    have hupper := h'.upper
    have hlower := h.lower
    exact Or.inr (by omega)

/-- Blocks in runs of their own satisfy the property. -/
theorem RunInv.noOverlap (h : RunInv P N st frees held) : NoOverlap P N st := by
  have hmem {b : Block} (hb : b ∈ st.live) : ∃ r, (b, r) ∈ held := by
    rw [h.live] at hb
    obtain ⟨x, hx, rfl⟩ := List.mem_map.mp hb
    exact ⟨x.2, hx⟩
  have hrun {x : Block × Run} (hx : x ∈ held) : x.2 ∈ frees ++ held.map Prod.snd :=
    List.mem_append_right _ (List.mem_map_of_mem hx)
  constructor
  · intro b hb
    obtain ⟨r, hr⟩ := hmem hb
    exact (h.within _ hr).size_le
  · intro b hb
    obtain ⟨r, hr⟩ := hmem hb
    have hw : Within P st.pool b r := h.within _ hr
    have hin : r.start + r.len ≤ N := h.list.tiles.stop_le (hrun hr)
    obtain ⟨hlow, hhigh⟩ := pageAddr_room h.list.layout r.len hin
    have hlower := hw.lower
    have hupper := hw.upper
    omega
  · rw [h.live, List.pairwise_map]
    have hapart := (List.pairwise_append.mp h.list.tiles.pairwise).2.1
    rw [List.pairwise_map] at hapart
    refine hapart.imp_of_mem ?_
    intro x y hx hy hxy
    exact disjoint_of_within (h.within x hx) (h.within y hy) hxy
  · intro b hb i hi hsmall
    obtain ⟨r, hr⟩ := hmem hb
    have hw : Within P st.pool b r := h.within _ hr
    by_cases hcover : r.Covers i
    · exact Or.inr (hw.bitmap i hcover hsmall)
    · have hmap := bitmapSize_le P st.pool i
      have hlower := hw.lower
      have hupper := hw.upper
      unfold Run.Covers at hcover
      rcases Nat.lt_or_ge i r.start with hlt | hge
      · have hmono := pageAddr_mono P st.pool (show i + 1 ≤ r.start from hlt)
        exact Or.inr (by omega)
      · have hmono := pageAddr_mono P st.pool (show r.start + r.len ≤ i by
          unfold Run.stop at hcover
          omega)
        exact Or.inl (by omega)

/-- A call that keeps the descriptors of a run keeps its block. -/
theorem Within.congr {b : Block} {r : Run} (h : Within P s b r) (hsame : SameHeader s s')
    (hkeep : ∀ i, r.Covers i → ∀ x, s.page i ≤ x → x < s.page i + 24 → s'.word x = s.word x) :
    Within P s' b r := by
  have hsize : blockSize P s' b.size = blockSize P s b.size := by
    unfold blockSize classShift
    rw [hsame.minSize, hsame.minShift]
  have haddr (i : ℕ) : pageAddr P s' i = pageAddr P s i := by
    unfold pageAddr
    rw [hsame.start]
  refine ⟨hsize ▸ h.size_le, haddr r.start ▸ h.lower, ?_, ?_⟩
  · rw [hsize, haddr]
    exact h.upper
  · intro i hi hsmall
    have hslab := hkeep i hi (slabOf (s.page i)) (by unfold slabOf; omega) (by unfold slabOf; omega)
    have hprev := hkeep i hi (prevOf (s.page i)) (by unfold prevOf; omega) (by unfold prevOf; omega)
    unfold IsSmall at hsmall
    rw [hsame.page, hprev] at hsmall
    rw [haddr, bitmapSize, hsame.page, hslab]
    exact h.bitmap i hi hsmall

/-- A new block in a run that was free. -/
theorem RunInv.cons {b : Block} {r : Run} {frees' : List Run}
    (h : RunInv P N ⟨s, live⟩ frees held) (hsame : SameHeader s s')
    (hfree : FreeList P N s' frees' (r :: held.map Prod.snd)) (hb : Within P s' b r)
    (hkeep : ∀ x ∈ held, ∀ i, x.2.Covers i →
      ∀ y, s.page i ≤ y → y < s.page i + 24 → s'.word y = s.word y) :
    RunInv P N ⟨s', b :: live⟩ frees' ((b, r) :: held) := by
  refine ⟨hfree, ?_, ?_⟩
  · have hlive := h.live
    dsimp only at hlive ⊢
    rw [hlive, List.map_cons]
  · intro x hx
    rcases List.mem_cons.mp hx with rfl | hx
    · exact hb
    · exact (h.within x hx).congr hsame (hkeep x hx)

theorem requestPages_of_lt {size : ℕ} (h : pagesWanted P size < 2 ^ 32) :
    requestPages P.geometry size = pagesWanted P size := by
  unfold requestPages
  rw [P.geometry_eq]
  exact toUInt32_of_lt h

/-- The half pages of a request hold its bytes. -/
theorem le_pagesWanted (P : PageSize) (size : ℕ) : size ≤ pagesWanted P size * unit P := by
  have hunit : 0 < unit P := Nat.two_pow_pos _
  have hdiv := Nat.div_add_mod size (unit P)
  have hmod := Nat.mod_lt size hunit
  unfold pagesWanted
  rw [Nat.shiftRight_eq_div_pow, ← unit]
  by_cases hrest : size % P.bytes ≠ 0
  · rw [if_pos hrest, Nat.add_mul, Nat.mul_comm (size / unit P)]
    omega
  · have hdvd : unit P ∣ size :=
      (Dvd.intro_left 2 (bytes_eq P).symm).trans (Nat.dvd_of_mod_eq_zero (not_not.mp hrest))
    rw [if_neg hrest, Nat.add_zero, Nat.div_mul_cancel hdvd]

theorem isSmall_iff (s : Pool) (i : ℕ) : IsSmall s i ↔ s.word (prevOf (s.page i)) % 4 = 3 := by
  unfold IsSmall
  rw [show slabPageMask = 2 ^ 2 - 1 from rfl, and_mask]
  rfl

theorem pageAddr_ne_zero (hl : Layout P N s) (i : ℕ) : pageAddr P s i ≠ 0 := by
  have hlow := hl.addr_pos
  have hpages := hl.pages_eq
  have hlast := hl.last_eq
  have hstart := hl.last_le
  unfold pageAddr
  omega

/-- A block of whole pages lies in its run, whose pages have no map. -/
theorem within_pages {size i n : ℕ} (hsize : unit P < size) (hn : size ≤ n * unit P)
    (hpage : s'.page = s.page) (htags : ∀ j < n, s'.word (prevOf (s.page (i + j))) % 4 = 0) :
    Within P s' ⟨pageAddr P s' i, size⟩ ⟨i, n⟩ := by
  have hblock : blockSize P s' size = size := if_pos hsize
  refine ⟨hblock.ge, le_refl _, ?_, ?_⟩
  · dsimp only
    rw [hblock]
    omega
  · intro j hj hsmall
    rw [Run.covers_mk] at hj
    have htag := htags (j - i) (by omega)
    rw [isSmall_iff, hpage] at hsmall
    rw [show i + (j - i) = j by omega] at htag
    omega

/-- The first chunk of a new page lies behind the map of the page. -/
theorem within_chunk (hl : Layout P N s') {size i shift : ℕ} (hsize : size ≤ unit P)
    (hshift : shift = classShift s' size) (hk : shift - 3 < slotCount P)
    (hslab : s'.word (slabOf (s'.page i)) = firstSlab P shift)
    (hprev : s'.word (prevOf (s'.page i)) % 4 = classType P shift) :
    Within P s' ⟨pageAddr P s' i + firstOffset P shift, size⟩ ⟨i, 1⟩ := by
  obtain ⟨hlow, -, hle⟩ := classShift_spec hl.minShift hl.minSize hsize
  have hblock : blockSize P s' size = 2 ^ shift := by
    rw [hshift]
    exact if_neg (Nat.not_lt.mpr hsize)
  rw [← hshift] at hlow hle
  have hroom := firstOffset_room hlow hk
  refine ⟨?_, Nat.le_add_right .., ?_, ?_⟩
  · rw [hblock]
    exact hle
  · dsimp only
    rw [hblock]
    omega
  · intro j hj hsmall
    rw [Run.covers_mk] at hj
    obtain rfl : j = i := by omega
    rw [isSmall_iff, hprev] at hsmall
    have hclass : shift < P.log - 7 := by
      unfold classType at hsmall
      by_contra hbig
      rw [if_neg hbig] at hsmall
      split at hsmall
      · exact absurd hsmall (by decide)
      · exact absurd hsmall (by decide)
    obtain ⟨hmap, -, -, -, -⟩ := bitmap_room P hlow hclass
    unfold bitmapSize firstOffset
    rw [hslab, firstSlab, if_pos hclass, if_pos hclass]
    dsimp only
    omega

/-- The type bits of a slot head address with a class type. -/
theorem slot_tag (hl : Layout P N s) (k shift : ℕ) :
    (s.slot k ||| classType P shift) % 4 = classType P shift := by
  have htype := classType_lt P shift
  have hdvd := slot_dvd hl k
  rw [or_tag hdvd htype]
  omega

/-- A served request runs out of steps, finds no pages, or hands out a block
in a run of its own. -/
theorem fresh_cases (h : RunInv P N ⟨s, live⟩ frees held) {size : ℕ}
    (hguard : Fresh P ⟨s, live⟩ (.alloc size)) (fuel : ℕ) :
    (slabAllocLocked P.geometry fuel s size = outOfFuel ∧ fuel ≤ frees.length) ∨
      slabAllocLocked P.geometry fuel s size = Except.ok (0, s) ∨
      ∃ p s' frees' r, p ≠ 0 ∧ slabAllocLocked P.geometry fuel s size = Except.ok (p, s') ∧
        RunInv P N ⟨s', ⟨p, size⟩ :: live⟩ frees' ((⟨p, size⟩, r) :: held) := by
  have hlist : FreeList P N s frees (held.map Prod.snd) := h.list
  have hcover {x : Block × Run} (hx : x ∈ held) : x.2 ∈ held.map Prod.snd :=
    List.mem_map_of_mem hx
  obtain ⟨hpages, hclass⟩ := hguard
  by_cases hsize : unit P < size
  · have hn := requestPages_of_lt (hpages hsize)
    have hle := le_pagesWanted P size
    have hpos : 0 < requestPages P.geometry size := by
      rw [hn]
      by_contra hzero
      rw [Nat.eq_zero_of_not_pos hzero] at hle
      omega
    rcases allocPages_cases hlist hsize hpos fuel with
      hcase | hcase | ⟨i, frees', s', hr, hcase, hfree, halloc⟩
    · exact Or.inl hcase
    · exact Or.inr (Or.inl hcase)
    · have hsame := halloc.taken.same
      have haddr : pageAddr P s' i = pageAddr P s i := by
        unfold pageAddr
        rw [hsame.start]
      refine Or.inr (Or.inr ⟨pageAddr P s i, s', frees', ⟨i, pagesWanted P size⟩,
        pageAddr_ne_zero hlist.layout i, hcase, ?_⟩)
      rw [hn] at hfree halloc
      refine h.cons hsame hfree ?_ ?_
      · rw [← haddr]
        exact within_pages hsize hle hsame.page halloc.tags
      · intro x hx j hj y hlow hhigh
        exact halloc.frame y (hlist.live_not_freeWord (hcover hx) hj hlow hhigh)
  · have hsize := Nat.not_lt.mp hsize
    obtain ⟨hk, hempty⟩ := hclass hsize
    dsimp only at hk hempty
    rw [hlist.layout.minShift] at hk hempty
    obtain ⟨hlow, -, -⟩ := classShift_spec hlist.layout.minShift hlist.layout.minSize hsize
    rw [slabAllocLocked_fresh hlist.layout hsize hk hempty]
    rcases newClass_cases hlist hlow hk fuel with
      hcase | ⟨-, hcase⟩ | ⟨i, frees', s', ⟨r, hr, rfl⟩, hcase, hfree, hnew⟩
    · exact Or.inl hcase
    · exact Or.inr (Or.inl hcase)
    · have hsame := hnew.linked.same
      have haddr : pageAddr P s' r.start = pageAddr P s r.start := by
        unfold pageAddr
        rw [hsame.start]
      have hshift : classShift s' size = classShift s size := by
        unfold classShift
        rw [hsame.minSize, hsame.minShift]
      have hne := pageAddr_ne_zero hlist.layout r.start
      refine Or.inr (Or.inr ⟨_, s', frees', ⟨r.start, 1⟩, by omega, hcase, ?_⟩)
      refine h.cons hsame hfree ?_ ?_
      · rw [← haddr]
        refine within_chunk hfree.layout hsize hshift.symm hk ?_ ?_
        · rw [hsame.page]
          exact hnew.linked.slab
        · rw [hsame.page, hnew.linked.prev]
          exact slot_tag hlist.layout _ _
      · intro x hx j hj y hlow' hhigh
        exact hnew.desc_kept hlist hk (hcover hx) hj hlow' hhigh

end

/-- One call keeps the blocks in runs of their own. -/
theorem step_inv {P : PageSize} {N : ℕ} {st st' : State} {c : Call} {frees : List Run}
    {held : List (Block × Run)} (h : RunInv P N st frees held) (hguard : Fresh P st c)
    (hstep : Step P st c st') : ∃ frees' held', RunInv P N st' frees' held' := by
  cases c with
  | alloc size =>
    refine Step.of_alloc (I := fun st => ∃ frees held, RunInv P N st frees held) ⟨_, _, h⟩ ?_ hstep
    intro fuel
    rcases fresh_cases h hguard fuel with ⟨hcase, -⟩ | hcase | ⟨p, s', frees', r, hp, hcase, hinv⟩
    · exact Or.inl hcase
    · exact Or.inr (Or.inl hcase)
    · exact Or.inr (Or.inr ⟨p, s', hp, hcase, _, _, hinv⟩)
  | free b => exact hguard.elim

/-- Along fresh calls the blocks do not overlap. -/
theorem no_overlap (P : PageSize) (M : Mapping P) (size : ℕ) (hfit : Fits P size) (st : State)
    (hrun : Reaches P M size (Fresh P) st) : NoOverlap P (pageCount P M size) st := by
  have hinv : ∃ frees held, RunInv P (pageCount P M size) st frees held := by
    refine hrun.invariant (I := fun st => ∃ frees held, RunInv P (pageCount P M size) st frees held)
      ?_ ?_
    · intro s hcreated
      exact ⟨_, [], created_freeList hcreated hfit, rfl, by simp⟩
    · rintro st st' c ⟨frees, held, ih⟩ hc hstep
      exact step_inv ih hc hstep
  obtain ⟨frees, held, hinv⟩ := hinv
  exact hinv.noOverlap

/-- A small, a big and a page-sized block. -/
theorem no_overlap_mixed :
    Fits smallPages 1 ∧ ∃ st, Reaches smallPages clearMapping 1 (Fresh smallPages) st ∧
      st.live = [⟨73728, 4096⟩, ⟨71680, 1024⟩, ⟨69696, 8⟩] ∧
      NoOverlap smallPages (pageCount smallPages clearMapping 1) st := by
  have hfit : Fits smallPages 1 := by decide
  have htrace : (do
      let s0 ← createShpool smallPages clearMapping 1
      let r1 ← slabAllocLocked smallPages.geometry 9 s0 8
      let r2 ← slabAllocLocked smallPages.geometry 9 r1.2 1024
      let r3 ← slabAllocLocked smallPages.geometry 9 r2.2 4096
      pure (decide (FreshClass smallPages s0 8), r1.1,
        decide (FreshClass smallPages r1.2 1024), r2.1, r3.1)) =
        (Except.ok (true, 69696, true, 71680, 73728) : Exec _) := by decide +kernel
  obtain ⟨s0, h0, htrace⟩ := bind_eq_ok.mp htrace
  obtain ⟨⟨p1, s1⟩, h1, htrace⟩ := bind_eq_ok.mp htrace
  obtain ⟨⟨p2, s2⟩, h2, htrace⟩ := bind_eq_ok.mp htrace
  obtain ⟨⟨p3, s3⟩, h3, htrace⟩ := bind_eq_ok.mp htrace
  simp only [pure_eq_ok, Except.ok.injEq, Prod.mk.injEq, decide_eq_true_eq] at htrace
  obtain ⟨hfresh1, rfl, hfresh2, rfl, rfl⟩ := htrace
  have hrun0 : Reaches smallPages clearMapping 1 (Fresh smallPages) ⟨s0, []⟩ := Reaches.init h0
  have hrun1 := hrun0.call (c := .alloc 8)
    ⟨fun h => absurd h (by decide), fun _ => hfresh1⟩
    (Step.allocBlock (by omega) h1 (by omega))
  have hrun2 := hrun1.call (c := .alloc 1024) ⟨fun h => absurd h (by decide), fun _ => hfresh2⟩
    (Step.allocBlock (by omega) h2 (by omega))
  have hrun3 := hrun2.call (c := .alloc 4096) ⟨fun _ => by decide, fun h => absurd h (by decide)⟩
    (Step.allocBlock (by omega) h3 (by omega))
  exact ⟨hfit, _, hrun3, rfl, no_overlap smallPages clearMapping 1 hfit _ hrun3⟩

/-- The second block of eight bytes is placed on the map of its page. -/
theorem second_block_overlaps :
    ∃ st, Reaches smallPages clearMapping 1 (fun _ _ => True) st ∧
      ¬ NoOverlap smallPages (pageCount smallPages clearMapping 1) st := by
  have htrace : (do
      let s0 ← createShpool smallPages clearMapping 1
      let r1 ← slabAllocLocked smallPages.geometry 9 s0 8
      let r2 ← slabAllocLocked smallPages.geometry 9 r1.2 8
      let s := r2.2
      pure (r1.1, r2.1, blockSize smallPages s 8, pageAddr smallPages s 0,
        s.word (prevOf (s.page 0)) &&& slabPageMask, bitmapSize smallPages s 0)) =
        (Except.ok (69696, 69632, 8, 69632, 3, 64) : Exec _) := by decide +kernel
  obtain ⟨s0, h0, htrace⟩ := bind_eq_ok.mp htrace
  obtain ⟨⟨p1, s1⟩, h1, htrace⟩ := bind_eq_ok.mp htrace
  obtain ⟨⟨p2, s2⟩, h2, htrace⟩ := bind_eq_ok.mp htrace
  simp only [pure_eq_ok, Except.ok.injEq, Prod.mk.injEq] at htrace
  obtain ⟨rfl, rfl, hsize, hpage, hsmall, hmap⟩ := htrace
  have hrun0 : Reaches smallPages clearMapping 1 (fun _ _ => True) ⟨s0, []⟩ := Reaches.init h0
  have hrun1 := hrun0.call (c := .alloc 8) trivial
    (Step.allocBlock (by omega) h1 (by omega))
  have hrun2 := hrun1.call (c := .alloc 8) trivial (Step.allocBlock (by omega) h2 (by omega))
  refine ⟨_, hrun2, ?_⟩
  intro h
  have hbitmap := h.bitmaps ⟨69632, 8⟩ (by simp) 0 (by decide) hsmall
  dsimp only at hbitmap
  omega

end HCore.SlabRuns
