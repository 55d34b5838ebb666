import HCore.SlabTermination
import HCore.SlabReclaim

/-!
A pool that a second handle maps. The header, the slot heads and the
descriptors keep the addresses of the creator's mapping, and only the slot
heads and the header of the free list are found from the handle itself. At
the creator's own base the handle is the creator's; where the two mappings
lie apart, no request gets past the first link it follows.
-/

namespace HCore.SlabAttach

open Words Machine Base SlabPool SlabPages SlabAlloc SlabLayout SlabFreeList SlabClasses SlabRuns
  SlabTermination SlabReclaim Runs

/-- `hcore_get_shpool` from the successful mapping on: the bytes of the pool
appear from `base` on, with the pointers in them as the creator stored them.
The field `addr` is where the handle finds the header; the copy of the
creator's address in the header is never read. -/
def getShpool (s : Pool) (base : ℕ) : Pool :=
  { s with
    mem := ⟨base, base + (s.mem.hi - s.mem.lo), fun a => s.mem.word (a + s.addr - base)⟩
    addr := base }

/-- A request whose page count is a 32-bit integer, or whose class has a slot
head and can be scanned; nothing is freed. -/
def Admitted (P : PageSize) (st : State) : Call → Prop
  | .alloc size => (unit P < size → pagesWanted P size < 2 ^ 32) ∧
      (size ≤ unit P → Scannable P st.pool size)
  | .free _ => False

/-- The states that calls through a handle mapped at `base` reach. The creator
has made calls before; the blocks are those that the handle has handed out. -/
inductive Attached (P : PageSize) (M : Mapping P) (size base : ℕ)
    (guard : State → Call → Prop) : State → Prop
  | get {st : State} (h : Reaches P M size guard st) :
      Attached P M size base guard ⟨getShpool st.pool base, []⟩
  | call {st st' : State} {c : Call} (h : Attached P M size base guard st) (hc : guard st c)
      (hstep : Step P st c st') : Attached P M size base guard st'

/-- A block lies inside the handle's mapping. -/
def Inside (P : PageSize) (size base : ℕ) (b : Block) : Prop :=
  base ≤ b.addr ∧ b.addr + b.size ≤ base + mapSize P size

instance (P : PageSize) (size base : ℕ) (b : Block) : Decidable (Inside P size base b) :=
  inferInstanceAs (Decidable (_ ∧ _))

/-- The request returns NULL or a block inside the handle's mapping. -/
def Serves (P : PageSize) (size base : ℕ) (st : State) (request : ℕ) : Prop :=
  ∃ fuel p s', slabAllocLocked P.geometry fuel st.pool request = Except.ok (p, s') ∧
    (p = 0 ∨ Inside P size base ⟨p, request⟩)

/-- The handle takes the block back. -/
def Accepts (P : PageSize) (st : State) (b : Block) : Prop :=
  ∃ s', slabFreeLocked P.geometry st.pool b.addr = Except.ok s'

/-- The two mappings share no address. -/
def Elsewhere (P : PageSize) (M : Mapping P) (size base : ℕ) : Prop :=
  base + mapSize P size ≤ M.base ∨ M.base + mapSize P size ≤ base

section

variable {P : PageSize} {M : Mapping P} {N size base : ℕ} {s s' : Pool} {st st' : State}
  {frees runs : List Run}

theorem getShpool_self (hlo : s.mem.lo = s.addr) (hhi : s.mem.lo ≤ s.mem.hi) :
    getShpool s s.addr = s := by
  have hmem : (⟨s.addr, s.addr + (s.mem.hi - s.mem.lo), fun a => s.mem.word (a + s.addr - s.addr)⟩ :
      Memory) = s.mem := by
    rw [← hlo, Nat.add_sub_of_le hhi]
    simp only [Nat.add_sub_cancel]
  unfold getShpool
  rw [hmem]

theorem getShpool_word (s : Pool) (base a : ℕ) :
    (getShpool s base).word (base + a) = s.word (s.addr + a) := by
  show s.mem.word (base + a + s.addr - base) = s.mem.word (s.addr + a)
  congr 1
  omega

theorem Admitted.returning {c : Call} (h : Admitted P st c) : Returning P st c := by
  cases c with
  | alloc request =>
    refine ⟨?_, h.2⟩
    intro hlarge hzero
    have hle := le_pagesWanted P request
    rw [← requestPages_of_lt (h.1 hlarge), hzero] at hle
    omega
  | free b => exact h

/-- The chunk address of a small page, which ignores the bit that was found,
stays within one and a half pages. -/
theorem scan_room {shift j : ℕ} (hlow : 3 ≤ shift) (hhigh : shift < P.log - 7)
    (hj : j < chunks P shift / 64) :
    (j * 8 * 8 + j) <<< shift + 2 ^ shift ≤ 3 * unit P := by
  obtain ⟨hmap, hle, -, hmod, hroom⟩ := bitmap_room P hlow hhigh
  have hbytes : chunks P shift * 2 ^ shift = 2 * unit P := by
    rw [chunks_eq P (by omega), Nat.pow_sub_mul_pow 2 (by omega), ← bytes_eq, PageSize.bytes]
  have hchunks : chunks P shift = chunks P shift / 64 * 64 := by omega
  have hmul : (j + 1) * 2 ^ shift ≤ chunks P shift / 64 * 2 ^ shift := Nat.mul_le_mul_right _ hj
  rw [hchunks, Nat.mul_right_comm] at hbytes
  rw [Nat.add_mul, Nat.one_mul] at hmul
  rw [Nat.shiftLeft_eq, show (j * 8 * 8 + j) * 2 ^ shift = 65 * (j * 2 ^ shift) by ring]
  have hpos : 0 < 2 ^ shift := Nat.two_pow_pos _
  generalize 2 ^ shift = y at *
  omega

/-- A block of pages keeps the header, and it lies in the pool. -/
theorem allocPages_placed (h : ListInv P N s frees runs) {request fuel p : ℕ}
    (hpages : requestPages P.geometry request = pagesWanted P request) (hsize : unit P < request)
    (hrun : slabAllocLocked P.geometry fuel s request = Except.ok (p, s')) :
    SameHeader s s' ∧ (p = 0 ∨ s.start ≤ p ∧ p + request ≤ s.endAddr) := by
  have hle := le_pagesWanted P request
  have hpos : 0 < requestPages P.geometry request := by
    by_contra hzero
    rw [← hpages, Nat.eq_zero_of_not_pos hzero] at hle
    omega
  rcases allocPages_cases h.list hsize hpos fuel with
    ⟨hcase, -⟩ | hcase | ⟨i, frees', s1, -, hcase, hfree, halloc⟩
  · rw [hcase] at hrun
    cases hrun
  · rw [hcase] at hrun
    cases hrun
    exact ⟨SameHeader.refl s, Or.inl rfl⟩
  · rw [hcase] at hrun
    cases hrun
    have hin : i + requestPages P.geometry request ≤ N :=
      hfree.tiles.stop_le (List.mem_append_right _ (List.mem_cons_self ..))
    obtain ⟨hlow, hhigh⟩ := pageAddr_room h.list.layout _ hin
    rw [hpages] at hhigh
    exact ⟨halloc.taken.same, Or.inr ⟨hlow, by omega⟩⟩

/-- The first block of a new page lies in the pool. -/
theorem newClass_placed (h : ListInv P N s frees runs) {shift fuel p : ℕ} (hlow : 3 ≤ shift)
    (hk : shift - 3 < slotCount P)
    (hrun : newClass P.geometry fuel s shift (shift - 3) = Except.ok (p, s')) :
    SameHeader s s' ∧ (p = 0 ∨ s.start ≤ p ∧ p + 2 ^ shift ≤ s.endAddr) := by
  rcases newClass_cases h.list hlow hk fuel with
    ⟨hcase, -⟩ | ⟨-, hcase⟩ | ⟨i, frees', s1, ⟨r, hr, rfl⟩, hcase, -, hnew⟩
  · rw [hcase] at hrun
    cases hrun
  · rw [hcase] at hrun
    cases hrun
    exact ⟨SameHeader.refl s, Or.inl rfl⟩
  · rw [hcase] at hrun
    cases hrun
    have hroom := firstOffset_room hlow hk
    have hstop := h.list.stop_le hr
    have hpos := h.list.len_pos hr
    obtain ⟨hstart, hend⟩ := pageAddr_room h.list.layout 1 (show r.start + 1 ≤ N by omega)
    exact ⟨hnew.linked.same, Or.inr ⟨by omega, by omega⟩⟩

/-- The block that a scan finds lies in the pool, even where the scan of a small page
ignores the bit. -/
theorem scanClass_placed (hl : Layout P N s) (hN : 2 ≤ N) {shift fuel i p : ℕ}
    (hlow : 3 ≤ shift) (hk : shift - 3 < slotCount P) (hin : i < N) (hsame : SameHeader s s')
    (hscan : scanClass P.geometry fuel s (s.page i) shift = Except.ok (some (p, s'))) :
    s.start ≤ p ∧ p + 2 ^ shift ≤ s.endAddr := by
  have hexact : P.geometry.slabExactShift = P.log - 7 := by rw [P.geometry_eq]
  unfold scanClass at hscan
  split at hscan
  · next hsmall =>
    rw [getPageAddr_page, ok_bind] at hscan
    obtain ⟨⟨j, hj, rfl⟩, -⟩ := scanSmall_some hscan
    rw [geometry_pagesize, Nat.zero_add] at hj
    have hroom := scan_room hlow (hexact ▸ hsmall) hj
    have hend := hl.room
    have hmul : (i + 1) * unit P ≤ N * unit P := Nat.mul_le_mul_right _ hin
    have hmul' : 2 * unit P ≤ N * unit P := Nat.mul_le_mul_right _ hN
    rw [bytes_eq, Nat.mul_left_comm] at hend
    rw [Nat.add_mul, Nat.one_mul] at hmul
    unfold pageAddr
    generalize (j * 8 * 8 + j) <<< shift = off at *
    generalize 2 ^ shift = y at *
    omega
  · split at hscan
    · obtain ⟨_, hexact', -⟩ := bind_eq_ok.mp hscan
      exact absurd hexact' scanExact_error
    · obtain ⟨haddr, -⟩ := scanBig_some hscan
      dsimp only at haddr
      rw [← hsame.page, getPageAddr_page] at haddr
      cases haddr
      have hroom := firstOffset_room hlow hk
      obtain ⟨hstart, hend⟩ := pageAddr_room hl 1 (show i + 1 ≤ N from hin)
      rw [pageAddr, hsame.start, ← pageAddr]
      omega

/-- A request that returns keeps the header, and its block lies in the pool. -/
theorem alloc_placed (h : ListInv P N s frees runs) (hN : 2 ≤ N) {request fuel p : ℕ}
    {live : List Block} (hguard : Admitted P ⟨s, live⟩ (.alloc request))
    (hrun : slabAllocLocked P.geometry fuel s request = Except.ok (p, s')) :
    SameHeader s s' ∧ (p = 0 ∨ s.start ≤ p ∧ p + request ≤ s.endAddr) := by
  have hl := h.list.layout
  obtain ⟨hpages, hclass⟩ := hguard
  by_cases hsize : unit P < request
  · exact allocPages_placed h (requestPages_of_lt (hpages hsize)) hsize hrun
  · have hsize := Nat.not_lt.mp hsize
    have hscannable := hclass hsize
    have hk := hscannable.1
    dsimp only at hk
    rw [hl.minShift] at hk
    obtain ⟨hlow, -, hblock⟩ := classShift_spec hl.minShift hl.minSize hsize
    rcases alloc_route h hsize hscannable fuel with
      ⟨hroute, -⟩ | ⟨i, p', t, hi, hscan, hgranted, hroute⟩
    · rw [hroute] at hrun
      obtain ⟨hsame, hplace⟩ := newClass_placed h hlow hk hrun
      exact ⟨hsame, hplace.imp_right fun hin => ⟨hin.1, by omega⟩⟩
    · rw [hroute] at hrun
      cases hrun
      have hcover : (⟨i, 1⟩ : Run).Covers i := Run.covers_start Nat.one_pos
      have hin := h.list.tiles.lt_of_covers (List.mem_append_right _ hi.run) hcover
      obtain ⟨hstart, hend⟩ := scanClass_placed hl hN hlow hk hin hgranted.same hscan
      exact ⟨hgranted.same, Or.inr ⟨hstart, by omega⟩⟩

/-- Where the creator's pool lies, and the blocks that a handle at the same
base has handed out. -/
structure Placed (P : PageSize) (M : Mapping P) (size : ℕ) (st : State) : Prop where
  lists : ∃ frees runs, ListInv P (pageCount P M size) st.pool frees runs
  addr : st.pool.addr = M.base
  start : st.pool.start = startAddr P M size
  endAddr : st.pool.endAddr = M.base + mapSize P size
  live : ∀ b ∈ st.live, st.pool.start ≤ b.addr ∧ b.addr + b.size ≤ st.pool.endAddr

theorem Placed.cons {live : List Block} (h : Placed P M size ⟨s, live⟩)
    (hfit : Fits P size) {request fuel p : ℕ}
    (hguard : Admitted P ⟨s, live⟩ (.alloc request))
    (hrun : slabAllocLocked P.geometry fuel s request = Except.ok (p, s')) :
    Placed P M size ⟨s', live⟩ ∧
      (p ≠ 0 → Placed P M size ⟨s', ⟨p, request⟩ :: live⟩) := by
  obtain ⟨frees, runs, hinv⟩ := h.lists
  have hcount := (pageCount_bounds P M hfit).1
  obtain ⟨hsame, hplace⟩ := alloc_placed hinv (by omega) hguard hrun
  have hlists : ∃ frees runs, ListInv P (pageCount P M size) s' frees runs := by
    rcases alloc_cases hinv hguard.returning fuel with ⟨hcase, -⟩ | ⟨_, _, frees', runs', hcase, hinv'⟩
    · rw [hcase] at hrun
      cases hrun
    · rw [hcase] at hrun
      cases hrun
      exact ⟨frees', runs', hinv'⟩
  have hlive : ∀ b ∈ live, s'.start ≤ b.addr ∧ b.addr + b.size ≤ s'.endAddr := by
    rw [hsame.start, hsame.endAddr]
    exact h.live
  refine ⟨⟨hlists, hsame.addr.trans h.addr, hsame.start.trans h.start,
    hsame.endAddr.trans h.endAddr, hlive⟩, fun hp => ?_⟩
  refine ⟨hlists, hsame.addr.trans h.addr, hsame.start.trans h.start,
    hsame.endAddr.trans h.endAddr, ?_⟩
  intro b hb
  rcases List.mem_cons.mp hb with rfl | hb
  · rcases hplace with hzero | hin
    · exact absurd hzero hp
    · dsimp only
      rw [hsame.start, hsame.endAddr]
      exact hin
  · exact hlive b hb

theorem Placed.step (h : Placed P M size st) (hfit : Fits P size) {c : Call}
    (hguard : Admitted P st c) (hstep : Step P st c st') : Placed P M size st' := by
  cases hstep with
  | @allocBlock s s' live request fuel p hsize hrun hp =>
    exact (Placed.cons h hfit hguard hrun).2 hp
  | @allocNone s s' live request fuel hsize hrun =>
    exact (Placed.cons h hfit hguard hrun).1
  | free hb hrun => exact hguard.elim

theorem reaches_placed (hfit : Fits P size) (h : Reaches P M size (Admitted P) st) :
    Placed P M size st := by
  refine h.invariant (I := Placed P M size) ?_ ?_
  · intro s hcreated
    exact ⟨⟨_, _, created_freeList hcreated hfit, fun k hk => Or.inl (hcreated.slot_next k hk)⟩,
      hcreated.addr, hcreated.start, hcreated.endAddr, by simp⟩
  · intro st st' c ih hc hstep
    exact ih.step hfit hc hstep

theorem Placed.bounds (h : Placed P M size st) : st.pool.mem.lo = M.base ∧
    st.pool.mem.hi = M.base + mapSize P size := by
  obtain ⟨_, _, hinv⟩ := h.lists
  exact ⟨hinv.list.layout.lo.trans h.addr, hinv.list.layout.hi.trans h.endAddr⟩

/-- The handle at the creator's base is the creator's. -/
theorem attached_placed (hfit : Fits P size) (hrun : Attached P M size M.base (Admitted P) st) :
    Placed P M size st := by
  induction hrun with
  | @get st h =>
    have hplaced := reaches_placed hfit h
    obtain ⟨hlo, hhi⟩ := hplaced.bounds
    have hself : getShpool st.pool M.base = st.pool := by
      rw [← hplaced.addr]
      exact getShpool_self (hlo.trans hplaced.addr.symm) (by omega)
    rw [hself]
    exact ⟨hplaced.lists, hplaced.addr, hplaced.start, hplaced.endAddr, by simp⟩
  | call _ hc hstep ih => exact ih.step hfit hc hstep

theorem Placed.inside (h : Placed P M size st) {b : Block} (hb : b ∈ st.live) :
    Inside P size M.base b := by
  obtain ⟨hlow, hhigh⟩ := h.live b hb
  have hge := le_alignPtr P (pagesAddr P M + roughCount P M size * 24)
  have hpages : pagesAddr P M = M.base + 96 + 24 * slotCount P := rfl
  rw [h.start, startAddr] at hlow
  rw [h.endAddr] at hhigh
  exact ⟨by omega, hhigh⟩

/-- Freeing a block that was handed out is undefined. -/
theorem Placed.not_accepts (h : Placed P M size st) {b : Block} (hb : b ∈ st.live) :
    ¬ Accepts P st b := by
  rintro ⟨s', hrun⟩
  obtain ⟨hlow, hhigh⟩ := h.live b hb
  rw [slabFreeLocked_inside hlow (by omega)] at hrun
  cases hrun

theorem Placed.serves (h : Placed P M size st) (hfit : Fits P size) {request : ℕ}
    (hguard : Admitted P st (.alloc request)) : Serves P size M.base st request := by
  obtain ⟨frees, runs, hinv⟩ := h.lists
  rcases alloc_cases hinv hguard.returning (frees.length + 1) with
    ⟨-, hle⟩ | ⟨p, s', frees', runs', hcase, -⟩
  · omega
  · refine ⟨_, p, s', hcase, ?_⟩
    by_cases hp : p = 0
    · exact Or.inl hp
    · have hpool : Placed P M size ⟨st.pool, st.live⟩ := h
      have hnext := (hpool.cons hfit hguard hcase).2 hp
      exact Or.inr (hnext.inside (List.mem_cons_self ..))

/-- An address of the creator's mapping is none of the handle's. -/
theorem elsewhere_not_valid (h : Placed P M size st) (hbase : Elsewhere P M size base) {a : ℕ}
    (hlow : M.base ≤ a) (hhigh : a < M.base + mapSize P size) :
    ¬ (getShpool st.pool base).Valid a := by
  obtain ⟨hlo, hhi⟩ := h.bounds
  intro hv
  have hge : base ≤ a := hv.1
  have hle : a + 8 ≤ base + (st.pool.mem.hi - st.pool.mem.lo) := hv.2.1
  rw [hlo, hhi] at hle
  unfold Elsewhere at hbase
  omega

/-- A page of the creator's mapping cannot be looked at. -/
theorem elsewhere_allocPages (h : Placed P M size st) (hbase : Elsewhere P M size base)
    {fuel n : ℕ} {r : ℕ × Pool} :
    slabAllocPages fuel (getShpool st.pool base) n ≠ Except.ok r := by
  intro hrun
  obtain ⟨frees, runs, hinv⟩ := h.lists
  have hl := hinv.list.layout
  have hend := h.endAddr
  have haddr := h.addr
  have hlast := hl.last_le
  have hroom := hl.room
  have hlow := hinv.list.runs.free_lt_pages
  have hpages := hl.pages_eq
  have hlast' := hl.last_eq
  have hsize := mapSize_ge P size
  have hbytes := bytes_ge P
  obtain ⟨page, hload, hrun⟩ := bind_eq_ok.mp hrun
  have hpage : page = nextWord st.pool st.pool.free := by
    rw [Pool.load_eq_ok hload]
    exact getShpool_word st.pool base (freeOffset + 16)
  have hrange : M.base ≤ page ∧ page < M.base + mapSize P size := by
    rw [hpage, hinv.list.chain.head]
    cases frees with
    | nil =>
      show M.base ≤ st.pool.free ∧ st.pool.free < M.base + mapSize P size
      rw [Pool.free, freeOffset]
      omega
    | cons r frees =>
      have hstop := hinv.list.stop_le (List.mem_cons_self ..)
      have hpos := hinv.list.len_pos (List.mem_cons_self ..)
      show M.base ≤ st.pool.page r.start ∧ st.pool.page r.start < M.base + mapSize P size
      rw [page_eq]
      omega
  cases fuel with
  | zero => cases hrun
  | succ fuel =>
    have hne : page ≠ (getShpool st.pool base).free := by
      show page ≠ base + 40
      unfold Elsewhere at hbase
      omega
    rw [allocPagesFrom, if_neg hne] at hrun
    obtain ⟨slab, hslab, -⟩ := bind_eq_ok.mp hrun
    rw [slabOf, Pool.load_undefined (elsewhere_not_valid h hbase hrange.1 hrange.2)] at hslab
    cases hslab

/-- At a base apart from the creator's no request returns. -/
theorem elsewhere_stuck (h : Placed P M size st) (hbase : Elsewhere P M size base)
    {live : List Block} {request fuel : ℕ} {r : ℕ × Pool}
    (hguard : Admitted P ⟨getShpool st.pool base, live⟩ (.alloc request)) :
    slabAllocLocked P.geometry fuel (getShpool st.pool base) request ≠ Except.ok r := by
  intro hrun
  have hmax : P.geometry.slabMaxSize = unit P := by
    rw [P.geometry_eq]
    rfl
  unfold slabAllocLocked at hrun
  rw [hmax] at hrun
  split at hrun
  · obtain ⟨_, hpages, -⟩ := bind_eq_ok.mp hrun
    exact elsewhere_allocPages h hbase hpages
  · next hsize =>
    obtain ⟨hk, -⟩ := hguard.2 (Nat.not_lt.mp hsize)
    obtain ⟨frees, runs, hinv⟩ := h.lists
    have hl := hinv.list.layout
    have hend := h.endAddr
    have haddr := h.addr
    dsimp only at hk hrun
    generalize classShift (getShpool st.pool base) request - (getShpool st.pool base).minShift = k
      at hk hrun
    obtain ⟨hslot, hslot'⟩ := slot_lt_pages hl hk
    have hlast := hl.last_le
    have hlast' := hl.last_eq
    have hroom := hl.room
    have hcount := Nat.mul_le_mul_right P.bytes hl.count_pos
    have hbytes := bytes_ge P
    obtain ⟨page, hload, hrun⟩ := bind_eq_ok.mp hrun
    have hpage : page = st.pool.word (nextOf (st.pool.slot k)) := by
      rw [Pool.load_eq_ok hload]
      have hword := getShpool_word st.pool base (poolSize + pageSize * k + 16)
      simp only [← Nat.add_assoc] at hword
      exact hword
    have hrange : M.base ≤ nextOf page ∧ nextOf page < M.base + mapSize P size := by
      rw [hpage]
      unfold Pool.free freeOffset at hslot
      rcases hinv.slot k hk with hempty | ⟨i, hi⟩
      · rw [hempty]
        unfold nextOf
        omega
      · have hcover : (⟨i, 1⟩ : Run).Covers i := Run.covers_start Nat.one_pos
        have hin := hinv.list.tiles.lt_of_covers (List.mem_append_right _ hi.run) hcover
        rw [hi.slot_next, page_eq]
        unfold nextOf
        omega
    obtain ⟨next, hnext, -⟩ := bind_eq_ok.mp hrun
    rw [Pool.load_undefined (elsewhere_not_valid h hbase hrange.1 hrange.2)] at hnext
    cases hnext

/-- A handle at a base apart from the creator's stays where it started. -/
theorem elsewhere_attached (hfit : Fits P size) (hbase : Elsewhere P M size base)
    (hrun : Attached P M size base (Admitted P) st) :
    ∃ st', Placed P M size st' ∧ st = ⟨getShpool st'.pool base, []⟩ := by
  induction hrun with
  | get h => exact ⟨_, reaches_placed hfit h, rfl⟩
  | call _ hc hstep ih =>
    obtain ⟨st', hplaced, rfl⟩ := ih
    cases hstep with
    | allocBlock hsize hrun hp => exact absurd hrun (elsewhere_stuck hplaced hbase hc)
    | allocNone hsize hrun => exact absurd hrun (elsewhere_stuck hplaced hbase hc)
    | free hb hrun => exact hc.elim

end

/-- Through a handle at the creator's base or apart from it: what was handed
out lies inside the handle's mapping and cannot be freed, and an admitted
request is served exactly at the creator's base. -/
theorem attached_served_iff (P : PageSize) (M : Mapping P) (size base : ℕ) (hfit : Fits P size)
    (hbase : base = M.base ∨ Elsewhere P M size base) (st : State)
    (hrun : Attached P M size base (Admitted P) st) :
    (∀ b ∈ st.live, Inside P size base b ∧ ¬ Accepts P st b) ∧
      ∀ request, Admitted P st (.alloc request) →
        (Serves P size base st request ↔ base = M.base) := by
  rcases hbase with rfl | hbase
  · have hplaced := attached_placed hfit hrun
    refine ⟨fun b hb => ⟨hplaced.inside hb, hplaced.not_accepts hb⟩, ?_⟩
    intro request hguard
    exact ⟨fun _ => rfl, fun _ => hplaced.serves hfit hguard⟩
  · obtain ⟨st', hplaced, rfl⟩ := elsewhere_attached hfit hbase hrun
    refine ⟨by simp, ?_⟩
    intro request hguard
    constructor
    · rintro ⟨fuel, p, s', hserved, -⟩
      exact absurd hserved (elsewhere_stuck hplaced hbase hguard)
    · intro heq
      have hsize := mapSize_ge P size
      have hbytes := bytes_ge P
      unfold Elsewhere at hbase
      omega

/-- A handle at the creator's base that holds a block of eight bytes. -/
theorem attached_served_block :
    Fits smallPages 1 ∧
      ∃ st, Attached smallPages clearMapping 1 65536 (Admitted smallPages) st ∧
        st.live = [⟨69696, 8⟩] ∧
        (∀ b ∈ st.live, Inside smallPages 1 65536 b ∧ ¬ Accepts smallPages st b) ∧
        ∀ request, Admitted smallPages st (.alloc request) →
          (Serves smallPages 1 65536 st request ↔ 65536 = clearMapping.base) := by
  have hfit : Fits smallPages 1 := by decide
  have htrace : (do
      let s0 ← createShpool smallPages clearMapping 1
      let r1 ← slabAllocLocked smallPages.geometry 9 (getShpool s0 65536) 8
      pure (decide (Scannable smallPages (getShpool s0 65536) 8), r1.1)) =
        (Except.ok (true, 69696) : Exec _) := by decide +kernel
  obtain ⟨s0, h0, htrace⟩ := bind_eq_ok.mp htrace
  obtain ⟨⟨p1, s1⟩, h1, htrace⟩ := bind_eq_ok.mp htrace
  simp only [pure_eq_ok, Except.ok.injEq, Prod.mk.injEq, decide_eq_true_eq] at htrace
  obtain ⟨hscannable, rfl⟩ := htrace
  have hget : Attached smallPages clearMapping 1 65536 (Admitted smallPages)
      ⟨getShpool s0 65536, []⟩ := Attached.get (Reaches.init h0)
  have hrun := hget.call (c := .alloc 8)
    ⟨fun h => absurd h (by decide), fun _ => hscannable⟩ (Step.allocBlock (by omega) h1 (by omega))
  exact ⟨hfit, _, hrun, rfl,
    attached_served_iff smallPages clearMapping 1 65536 hfit (Or.inl rfl) _ hrun⟩

/-- Mapped at another address, a new pool does not serve eight bytes. -/
theorem elsewhere_unserved :
    ∃ st, Attached smallPages clearMapping 1 1048576 (fun _ _ => True) st ∧
      ¬ Serves smallPages 1 1048576 st 8 := by
  have hfit : Fits smallPages 1 := by decide
  have htrace : (do
      let s0 ← createShpool smallPages clearMapping 1
      pure (decide (Scannable smallPages (getShpool s0 1048576) 8))) =
        (Except.ok true : Exec _) := by decide +kernel
  obtain ⟨s0, h0, htrace⟩ := bind_eq_ok.mp htrace
  simp only [pure_eq_ok, Except.ok.injEq, decide_eq_true_eq] at htrace
  refine ⟨⟨getShpool s0 1048576, []⟩, Attached.get (Reaches.init h0), ?_⟩
  rintro ⟨fuel, p, s', hserved, -⟩
  have hplaced : Placed smallPages clearMapping 1 ⟨s0, []⟩ := reaches_placed hfit (Reaches.init h0)
  have helsewhere : Elsewhere smallPages clearMapping 1 1048576 := by
    right
    decide
  have hguard : Admitted smallPages ⟨getShpool s0 1048576, []⟩ (.alloc 8) :=
    ⟨fun h => absurd h (by decide), fun _ => htrace⟩
  exact elsewhere_stuck hplaced helsewhere hguard hserved

end HCore.SlabAttach
