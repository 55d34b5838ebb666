import HCore.SlabPages

/-!
The layout of a created pool. The header, the slot heads, the descriptors
and the pages follow each other inside the mapping, and a fresh pool has one
free run that holds every page. The page count is a 32-bit integer, so the
layout is claimed for pools whose pages can be counted in one.
-/

namespace HCore.SlabLayout

open Words Machine Base SlabPool

/-- The number of slot heads. -/
def slotCount (P : PageSize) : ℕ := P.log - 4

/-- The scalar header of a pool with `N` pages. -/
structure Layout (P : PageSize) (N : ℕ) (s : Pool) : Prop where
  lo : s.mem.lo = s.addr
  hi : s.mem.hi = s.endAddr
  addr_pos : 4096 ≤ s.addr
  addr_mod : s.addr % 8 = 0
  minShift : s.minShift = 3
  minSize : s.minSize = 8
  pages_eq : s.pages = s.addr + 96 + 24 * slotCount P
  last_eq : s.last = s.pages + 24 * N
  last_le : s.last ≤ s.start
  start_dvd : P.bytes ∣ s.start
  room : s.start + N * P.bytes ≤ s.endAddr
  count_pos : 0 < N
  count_lt : N < 2 ^ 32

/-- The pools that differ only in the contents of memory and in `pfree`. -/
def SameHeader (s s' : Pool) : Prop :=
  s'.mem.lo = s.mem.lo ∧ s'.mem.hi = s.mem.hi ∧
    s' = { s with mem := s'.mem, pfree := s'.pfree }

theorem SameHeader.refl (s : Pool) : SameHeader s s := ⟨rfl, rfl, rfl⟩

theorem SameHeader.symm {s s' : Pool} (h : SameHeader s s') : SameHeader s' s :=
  ⟨h.1.symm, h.2.1.symm, by rw [h.2.2]⟩

theorem SameHeader.trans {s s' s'' : Pool} (h : SameHeader s s') (h' : SameHeader s' s'') :
    SameHeader s s'' := by
  obtain ⟨h1, h2, h3⟩ := h
  obtain ⟨h1', h2', h3'⟩ := h'
  refine ⟨h1'.trans h1, h2'.trans h2, ?_⟩
  rw [h3', h3]

theorem SameHeader.set (s : Pool) (a v : ℕ) : SameHeader s (s.set a v) := ⟨rfl, rfl, rfl⟩

theorem SameHeader.clear (s : Pool) (a n : ℕ) : SameHeader s (s.clear a n) := ⟨rfl, rfl, rfl⟩

/-- One store more. -/
theorem SameHeader.store {s s' : Pool} {a v : ℕ} (h : SameHeader s s') :
    SameHeader s (s'.set a v) := h.trans (SameHeader.set s' a v)

section

variable {s s' : Pool} (h : SameHeader s s')
include h

theorem SameHeader.addr : s'.addr = s.addr := by rw [h.2.2]

theorem SameHeader.pages : s'.pages = s.pages := by rw [h.2.2]

theorem SameHeader.start : s'.start = s.start := by rw [h.2.2]

theorem SameHeader.endAddr : s'.endAddr = s.endAddr := by rw [h.2.2]

theorem SameHeader.last : s'.last = s.last := by rw [h.2.2]

theorem SameHeader.minShift : s'.minShift = s.minShift := by rw [h.2.2]

theorem SameHeader.minSize : s'.minSize = s.minSize := by rw [h.2.2]

theorem SameHeader.free : s'.free = s.free := by rw [Pool.free, h.addr, Pool.free]

theorem SameHeader.slot : s'.slot = s.slot := by
  funext k
  rw [Pool.slot, Pool.getSlots, h.addr, Pool.slot, Pool.getSlots]

theorem SameHeader.page : s'.page = s.page := by
  funext i
  rw [Pool.page, h.pages, Pool.page]

theorem SameHeader.valid {a : ℕ} : s'.Valid a ↔ s.Valid a := by
  unfold Pool.Valid Memory.Valid
  rw [h.1, h.2.1]

end

namespace Layout

variable {P : PageSize} {N : ℕ} {s s' : Pool}

theorem congr (hl : Layout P N s) (h : SameHeader s s') : Layout P N s' where
  lo := by rw [h.1, h.addr, hl.lo]
  hi := by rw [h.2.1, h.endAddr, hl.hi]
  addr_pos := h.addr ▸ hl.addr_pos
  addr_mod := h.addr ▸ hl.addr_mod
  minShift := h.minShift ▸ hl.minShift
  minSize := h.minSize ▸ hl.minSize
  pages_eq := by rw [h.pages, h.addr, hl.pages_eq]
  last_eq := by rw [h.last, h.pages, hl.last_eq]
  last_le := by rw [h.last, h.start]; exact hl.last_le
  start_dvd := h.start ▸ hl.start_dvd
  room := by rw [h.start, h.endAddr]; exact hl.room
  count_pos := hl.count_pos
  count_lt := hl.count_lt

theorem valid (hl : Layout P N s) {a : ℕ} (hlow : s.addr ≤ a) (hhigh : a + 8 ≤ s.start)
    (hmod : a % 8 = 0) : s.Valid a := by
  have hroom := hl.room
  refine ⟨hl.lo ▸ hlow, ?_, hmod⟩
  rw [hl.hi]
  omega

/-- The three words of an entry between the header and the pages. -/
theorem valid_entry (hl : Layout P N s) {a : ℕ} (hlow : s.addr ≤ a) (hhigh : a + 24 ≤ s.start)
    (hmod : a % 8 = 0) : s.Valid (slabOf a) ∧ s.Valid (prevOf a) ∧ s.Valid (nextOf a) := by
  refine ⟨hl.valid ?_ ?_ ?_, hl.valid ?_ ?_ ?_, hl.valid ?_ ?_ ?_⟩
  all_goals simp only [slabOf, prevOf, nextOf]; omega

theorem valid_free (hl : Layout P N s) :
    s.Valid (slabOf s.free) ∧ s.Valid (prevOf s.free) ∧ s.Valid (nextOf s.free) := by
  have hpages := hl.pages_eq
  have hlast := hl.last_eq
  have hstart := hl.last_le
  have hmod := hl.addr_mod
  refine hl.valid_entry ?_ ?_ ?_
  all_goals simp only [Pool.free, freeOffset]; omega

theorem valid_slot (hl : Layout P N s) {k : ℕ} (hk : k < slotCount P) :
    s.Valid (slabOf (s.slot k)) ∧ s.Valid (prevOf (s.slot k)) ∧ s.Valid (nextOf (s.slot k)) := by
  have hpages := hl.pages_eq
  have hlast := hl.last_eq
  have hstart := hl.last_le
  have hmod := hl.addr_mod
  refine hl.valid_entry ?_ ?_ ?_
  all_goals simp only [Pool.slot, Pool.getSlots, poolSize, pageSize]; omega

theorem valid_page (hl : Layout P N s) {i : ℕ} (hi : i < N) :
    s.Valid (slabOf (s.page i)) ∧ s.Valid (prevOf (s.page i)) ∧ s.Valid (nextOf (s.page i)) := by
  have hpages := hl.pages_eq
  have hlast := hl.last_eq
  have hstart := hl.last_le
  have hmod := hl.addr_mod
  refine hl.valid_entry ?_ ?_ ?_
  all_goals simp only [Pool.page, pageSize]; omega

end Layout

/-- The slot heads that `initSlots` has written, and what it leaves alone. -/
theorem initSlots_spec (n slots : ℕ) (s : Pool)
    (hv : ∀ a, slots ≤ a → a < slots + 24 * n → a % 8 = 0 → s.Valid a) (hmod : slots % 8 = 0) :
    ∃ s', initSlots n slots s = Except.ok s' ∧ SameHeader s s' ∧ s'.pfree = s.pfree ∧
      (∀ k < n, s'.word (nextOf (slots + 24 * k)) = slots + 24 * k) ∧
      ∀ a, a < slots ∨ slots + 24 * n ≤ a → s'.word a = s.word a := by
  induction n generalizing slots s with
  | zero => exact ⟨s, rfl, SameHeader.refl s, rfl, by simp, fun _ _ => rfl⟩
  | succ n ih =>
    have h0 : s.Valid (slabOf slots) := hv _ (by simp [slabOf]) (by simp [slabOf]) hmod
    have h16 : s.Valid (nextOf slots) := hv _ (by simp [nextOf]) (by unfold nextOf; omega)
      (by unfold nextOf; omega)
    have h8 : s.Valid (prevOf slots) := hv _ (by simp [prevOf]) (by unfold prevOf; omega)
      (by unfold prevOf; omega)
    let s1 := ((s.set (slabOf slots) 0).set (nextOf slots) slots).set (prevOf slots) 0
    have hs1 : SameHeader s s1 := ⟨rfl, rfl, rfl⟩
    obtain ⟨s', hrun, hsame, hfree, hnext, hother⟩ := ih (slots + 24) s1
      (fun a h1 h2 h3 => hs1.valid.mpr (hv a (by omega) (by omega) h3)) (by omega)
    refine ⟨s', ?_, hs1.trans hsame, hfree, ?_, ?_⟩
    · simp only [initSlots, Pool.store_ok h0, ok_bind, Pool.store_ok (Pool.set_valid.mpr h16),
        Pool.store_ok (Pool.set_valid.mpr (Pool.set_valid.mpr h8)), pageSize]
      exact hrun
    · intro k hk
      cases k with
      | zero =>
        rw [hother _ (Or.inl (by unfold nextOf; omega))]
        simp only [Nat.mul_zero, Nat.add_zero, s1]
        rw [Pool.set_other (by unfold nextOf prevOf; omega), Pool.set_same]
      | succ k =>
        have hk' := hnext k (by omega)
        rwa [show slots + 24 + 24 * k = slots + 24 * (k + 1) by ring] at hk'
    · intro a ha
      rw [hother a (by omega)]
      simp only [s1]
      rw [Pool.set_other (by unfold prevOf; omega), Pool.set_other (by unfold nextOf; omega),
        Pool.set_other (by unfold slabOf; omega)]

/-- The bytes of the mapping, at least eight pages. -/
def mapSize (P : PageSize) (size : ℕ) : ℕ := shpoolSize P.geometry size

/-- The first page descriptor, behind the slot heads. -/
def pagesAddr (P : PageSize) (M : Mapping P) : ℕ := M.base + 96 + 24 * slotCount P

/-- The page count before the pages are aligned. -/
def roughCount (P : PageSize) (M : Mapping P) (size : ℕ) : ℕ :=
  toUInt32 (((M.base + mapSize P size - pagesAddr P M) / (P.bytes + 24) : ℕ) : ℤ)

def startAddr (P : PageSize) (M : Mapping P) (size : ℕ) : ℕ :=
  alignPtr (pagesAddr P M + roughCount P M size * 24) P.bytes

/-- The pages that are lost to the alignment. -/
def lostCount (P : PageSize) (M : Mapping P) (size : ℕ) : ℤ :=
  toInt32 (roughCount P M size -
    (((M.base + mapSize P size : ℕ) : ℤ) - startAddr P M size).tdiv P.bytes)

def pageCount (P : PageSize) (M : Mapping P) (size : ℕ) : ℕ :=
  if 0 < lostCount P M size then toUInt32 (roughCount P M size - lostCount P M size)
  else roughCount P M size

/-- The pool that `createShpool` returns. -/
structure Created (P : PageSize) (M : Mapping P) (size : ℕ) (s : Pool) : Prop where
  lo : s.mem.lo = M.base
  hi : s.mem.hi = M.base + mapSize P size
  addr : s.addr = M.base
  endAddr : s.endAddr = M.base + mapSize P size
  minShift : s.minShift = 3
  minSize : s.minSize = 8
  pages : s.pages = pagesAddr P M
  start : s.start = startAddr P M size
  last : s.last = s.pages + 24 * pageCount P M size
  pfree : s.pfree = pageCount P M size
  slot_next : ∀ k < slotCount P, s.word (nextOf (s.slot k)) = s.slot k
  free_next : s.word (nextOf s.free) = s.page 0
  head_slab : s.word (slabOf (s.page 0)) = pageCount P M size
  head_next : s.word (nextOf (s.page 0)) = s.free
  head_prev : s.word (prevOf (s.page 0)) = s.free
  zero : ∀ a, s.page 1 ≤ a → a < s.pages + 24 * roughCount P M size → s.word a = 0

theorem mapSize_ge (P : PageSize) (size : ℕ) : 8 * P.bytes ≤ mapSize P size := by
  unfold mapSize shpoolSize
  rw [P.geometry_eq]
  simp only [Nat.shiftLeft_eq, PageSize.bytes]
  split <;> omega

theorem bytes_ge (P : PageSize) : 4096 ≤ P.bytes := by
  have h : 2 ^ 12 ≤ 2 ^ P.log := Nat.pow_le_pow_right (by omega) P.log_ge
  exact h

theorem slotCount_le (P : PageSize) : slotCount P ≤ 23 := by
  have h := P.log_le
  unfold slotCount
  omega

theorem base_ge (P : PageSize) (M : Mapping P) : 4096 ≤ M.base :=
  le_trans (bytes_ge P) (Nat.le_of_dvd M.base_pos M.base_aligned)

theorem eight_dvd_bytes (P : PageSize) : 8 ∣ P.bytes := by
  have h := P.log_ge
  exact pow_dvd_pow 2 (show 3 ≤ P.log by omega)

/-- The descriptors and the pages of the rough count fit behind the slots. -/
theorem rough_room (P : PageSize) (M : Mapping P) (size : ℕ) :
    pagesAddr P M + roughCount P M size * (P.bytes + 24) ≤ M.base + mapSize P size := by
  have hsize := mapSize_ge P size
  have hbytes := bytes_ge P
  have hslots := slotCount_le P
  have hle : roughCount P M size ≤
      (M.base + mapSize P size - pagesAddr P M) / (P.bytes + 24) := toUInt32_le _
  have hmul := Nat.div_mul_le_self (M.base + mapSize P size - pagesAddr P M) (P.bytes + 24)
  have hroom := Nat.mul_le_mul_right (P.bytes + 24) hle
  unfold pagesAddr at *
  omega

theorem geometry_pagesize (P : PageSize) : P.geometry.pagesize = P.bytes := by
  rw [P.geometry_eq]
  rfl

theorem geometry_slots (P : PageSize) : P.geometry.pagesizeShift - 3 = slotCount P := by
  have h := P.log_ge
  rw [P.geometry_eq]
  simp only [slotCount]
  omega

theorem initFreeList_spec (s : Pool) (n : ℕ) (hlo : s.mem.lo ≤ s.free)
    (hfree : s.free + 24 ≤ s.pages) (hhi : s.pages + n * 24 ≤ s.mem.hi)
    (hhi' : s.pages + 24 ≤ s.mem.hi) (hf : s.free % 8 = 0) (hp : s.pages % 8 = 0) :
    ∃ s', initFreeList s n = Except.ok s' ∧ SameHeader s s' ∧ s'.pfree = s.pfree ∧
      s'.word (nextOf s.free) = s.pages ∧ s'.word (slabOf s.pages) = n ∧
      s'.word (nextOf s.pages) = s.free ∧ s'.word (prevOf s.pages) = s.free ∧
      (∀ a, s.free + 24 ≤ a → a < s.pages → s'.word a = s.word a) ∧
      ∀ a, s.pages + 24 ≤ a → a < s.pages + n * 24 → s'.word a = 0 := by
  have hzero : s.memzero s.pages (n * pageSize) = Except.ok (s.clear s.pages (n * 24)) :=
    Pool.memzero_ok (by omega) hhi
  have hv (a : ℕ) (hlow : s.free ≤ a) (hhigh : a + 8 ≤ s.pages + 24) (hmod : a % 8 = 0) :
      s.Valid a := ⟨by omega, by omega, hmod⟩
  have hv1 : s.Valid (slabOf s.free) := hv _ (by simp [slabOf]) (by unfold slabOf; omega) hf
  have hv2 : s.Valid (nextOf s.free) := by apply hv <;> unfold nextOf <;> omega
  have hv3 : s.Valid (prevOf s.free) := by apply hv <;> unfold prevOf <;> omega
  have hv4 : s.Valid (slabOf s.pages) := by apply hv <;> unfold slabOf <;> omega
  have hv5 : s.Valid (nextOf s.pages) := by apply hv <;> unfold nextOf <;> omega
  have hv6 : s.Valid (prevOf s.pages) := by apply hv <;> unfold prevOf <;> omega
  let s' := ((((((s.clear s.pages (n * 24)).set (slabOf s.free) 0).set (nextOf s.free) s.pages).set
    (prevOf s.free) 0).set (slabOf s.pages) n).set (nextOf s.pages) s.free).set
    (prevOf s.pages) s.free
  have hrun : initFreeList s n = Except.ok s' := by
    simp only [initFreeList, hzero, ok_bind, Pool.store_ok, Pool.set_valid, Pool.clear_valid,
      Pool.set_free, Pool.clear_free, Pool.clear_pages, hv1, hv2, hv3, hv4, hv5, hv6, s']
  have hsame : SameHeader s s' :=
    (SameHeader.clear s s.pages (n * 24)).store.store.store.store.store.store
  have hpfree : s'.pfree = s.pfree := by
    simp only [s', Pool.set_pfree]
    rfl
  refine ⟨s', hrun, hsame, hpfree, ?_, ?_, ?_, ?_, ?_, ?_⟩
  all_goals simp only [slabOf, nextOf, prevOf, s']
  · simp (disch := omega) only [Pool.set_other, Pool.set_same]
  · simp (disch := omega) only [Pool.set_other, Pool.set_same]
  · simp (disch := omega) only [Pool.set_other, Pool.set_same]
  · exact Pool.set_same
  · intro a hlow hhigh
    simp (disch := omega) only [Pool.set_other, Pool.clear_out]
  · intro a hlow hhigh
    simp (disch := omega) only [Pool.set_other, Pool.clear_in]

/-- Alignment sets `start` and the page count; the head learns a smaller one. -/
theorem alignPages_spec (g : Geometry) (s : Pool) (n N : ℕ) (hv : s.Valid (slabOf s.pages))
    (hn : s.word (slabOf s.pages) = n)
    (hN : N = if 0 < lostPages g { s with start := alignPtr (s.pages + n * pageSize) g.pagesize } n
      then toUInt32 (n - lostPages g { s with
        start := alignPtr (s.pages + n * pageSize) g.pagesize } n) else n) :
    ∃ m : Memory, alignPages g s n = Except.ok { s with
        mem := m, start := alignPtr (s.pages + n * pageSize) g.pagesize,
        last := s.pages + pageSize * N, pfree := N } ∧
      m.lo = s.mem.lo ∧ m.hi = s.mem.hi ∧ m.word (slabOf s.pages) = N ∧
      ∀ a, a ≠ slabOf s.pages → m.word a = s.word a := by
  have hv1 : ({ s with start := alignPtr (s.pages + n * pageSize) g.pagesize } : Pool).Valid
      (slabOf s.pages) := hv
  unfold alignPages
  dsimp only
  split at hN
  · next hm =>
    refine ⟨s.mem.set (slabOf s.pages) N, ?_, rfl, rfl, Memory.set_same .., ?_⟩
    · rw [if_pos hm, Pool.store_ok hv1, ok_bind, pure_eq_ok, hN]
      rfl
    · exact fun a ha => Memory.set_other _ _ ha
  · next hm =>
    refine ⟨s.mem, ?_, rfl, rfl, by rw [hN]; exact hn, fun a _ => rfl⟩
    rw [if_neg hm, pure_eq_ok, hN]

/-- The slot heads that `hcore_slab_init` lays out. -/
def headCount (g : Geometry) (s : Pool) : ℕ := g.pagesizeShift - s.minShift

def firstPage (g : Geometry) (s : Pool) : ℕ := s.getSlots + headCount g s * pageSize

/-- The first guess at the page count. -/
def guess (g : Geometry) (s : Pool) : ℕ :=
  toUInt32 (((s.endAddr - firstPage g s) / (g.pagesize + pageSize) : ℕ) : ℤ)

def firstStart (g : Geometry) (s : Pool) : ℕ :=
  alignPtr (firstPage g s + guess g s * pageSize) g.pagesize

/-- The pages of the guess that the alignment has pushed out. -/
def lost (g : Geometry) (s : Pool) : ℤ :=
  toInt32 (guess g s - ((s.endAddr : ℤ) - firstStart g s).tdiv g.pagesize)

def finalCount (g : Geometry) (s : Pool) : ℕ :=
  if 0 < lost g s then toUInt32 (guess g s - lost g s) else guess g s

/-- What `hcore_slab_init` makes of the header `s` of a mapping. -/
structure Initialised (g : Geometry) (s s' : Pool) : Prop where
  lo : s'.mem.lo = s.mem.lo
  hi : s'.mem.hi = s.mem.hi
  addr : s'.addr = s.addr
  endAddr : s'.endAddr = s.endAddr
  minShift : s'.minShift = s.minShift
  minSize : s'.minSize = 1 <<< s.minShift
  pages : s'.pages = firstPage g s
  start : s'.start = firstStart g s
  last : s'.last = s'.pages + pageSize * finalCount g s
  pfree : s'.pfree = finalCount g s
  slot_next : ∀ j < headCount g s, s'.word (nextOf (s'.slot j)) = s'.slot j
  free_next : s'.word (nextOf s'.free) = s'.page 0
  head_slab : s'.word (slabOf (s'.page 0)) = finalCount g s
  head_next : s'.word (nextOf (s'.page 0)) = s'.free
  head_prev : s'.word (prevOf (s'.page 0)) = s'.free
  zero : ∀ a, s'.page 1 ≤ a → a < s'.pages + 24 * guess g s → s'.word a = 0

/-- The calls of `hcore_slab_init`, with the addresses and the guess that they compute. -/
theorem slabInit_eq {g : Geometry} {s s1 s3 s4 : Pool}
    (hslots : initSlots (headCount g s) s.getSlots { s with minSize := 1 <<< s.minShift } =
      Except.ok s1)
    (haddr : s1.addr = s.addr) (hend : s1.endAddr = s.endAddr)
    (hfree : initFreeList { s1 with pages := firstPage g s } (guess g s) = Except.ok s3)
    (halign : alignPages g s3 (guess g s) = Except.ok s4) : slabInit g s = Except.ok s4 := by
  have hptr : s1.getSlots + headCount g s * pageSize = firstPage g s := by
    rw [Pool.getSlots, haddr]
    rfl
  have hguess : toUInt32 (((s1.endAddr - firstPage g s) / (g.pagesize + pageSize) : ℕ) : ℤ) =
      guess g s := by
    rw [hend]
    rfl
  unfold slabInit
  refine bind_of_ok hslots ?_
  change (initFreeList { s1 with pages := s1.getSlots + headCount g s * pageSize }
    (toUInt32 (((s1.endAddr - (s1.getSlots + headCount g s * pageSize)) /
      (g.pagesize + pageSize) : ℕ) : ℤ)) >>= _) = _
  rw [hptr, hguess]
  refine bind_of_ok hfree ?_
  change alignPages g s3 (toUInt32 (((s1.endAddr - (s1.getSlots + headCount g s * pageSize)) /
    (g.pagesize + pageSize) : ℕ) : ℤ)) = _
  rw [hptr, hguess]
  exact halign

/-- Initialisation succeeds where the descriptors of the guess fit. -/
theorem slabInit_spec (g : Geometry) (s : Pool) (hlo : s.mem.lo = s.addr)
    (hhi : s.mem.hi = s.endAddr) (hmod : s.addr % 8 = 0)
    (hroom : firstPage g s + 24 ≤ s.endAddr)
    (hroom' : firstPage g s + guess g s * 24 ≤ s.endAddr) :
    ∃ s', slabInit g s = Except.ok s' ∧ Initialised g s s' := by
  have hslots : s.getSlots = s.addr + 96 := rfl
  have hfirst : firstPage g s = s.addr + 96 + headCount g s * 24 := rfl
  let s0 : Pool := { s with minSize := 1 <<< s.minShift }
  obtain ⟨s1, hrun1, hsame1, -, hnext1, -⟩ := initSlots_spec (headCount g s) s.getSlots s0
    (fun a h1 h2 h3 => ⟨by simp only [s0]; omega, by simp only [s0]; omega, h3⟩) (by omega)
  let s2 : Pool := { s1 with pages := firstPage g s }
  have hlo2 : s2.mem.lo = s.addr := hsame1.1.trans hlo
  have hhi2 : s2.mem.hi = s.endAddr := hsame1.2.1.trans hhi
  have hfree2 : s2.free = s.addr + 40 := hsame1.free
  have hpages2 : s2.pages = firstPage g s := rfl
  obtain ⟨s3, hrun3, hsame3, -, hfn, hps, hpn, hpp, hkeep3, hzero3⟩ :=
    initFreeList_spec s2 (guess g s) (by omega) (by omega) (by omega) (by omega) (by omega)
      (by omega)
  have hpages3 : s3.pages = firstPage g s := hsame3.pages
  have hend3 : s3.endAddr = s.endAddr := hsame3.endAddr.trans hsame1.endAddr
  have hv3 : s3.Valid (slabOf s3.pages) := by
    rw [hsame3.valid, hpages3]
    exact ⟨by unfold slabOf; omega, by unfold slabOf; omega, by unfold slabOf; omega⟩
  have hstart : alignPtr (s3.pages + guess g s * pageSize) g.pagesize = firstStart g s := by
    rw [hpages3]
    rfl
  have hlost : lostPages g { s3 with start := firstStart g s } (guess g s) = lost g s := by
    simp only [lostPages, lost, hend3]
  obtain ⟨m, hrun4, hlo4, hhi4, hps4, hkeep4⟩ :=
    alignPages_spec g s3 (guess g s) (finalCount g s) hv3 (by rw [hpages3]; exact hps)
      (by rw [hstart, hlost]; rfl)
  rw [hstart] at hrun4
  let s4 : Pool := { s3 with
    mem := m, start := firstStart g s,
    last := s3.pages + pageSize * finalCount g s, pfree := finalCount g s }
  have hfree4 : s4.free = s2.free := hsame3.free
  have hpages4 : s4.pages = firstPage g s := hpages3
  have hpage4 (i : ℕ) : s4.page i = firstPage g s + 24 * i := by
    rw [Pool.page, hpages4, pageSize]
  have haddr4 : s4.addr = s.addr := hsame3.addr.trans hsame1.addr
  have hslot4 (j : ℕ) : s4.slot j = s.addr + 96 + 24 * j := by
    rw [Pool.slot, Pool.getSlots, haddr4, poolSize, pageSize]
  have hfar (a : ℕ) (ha : a ≠ firstPage g s) : s4.word a = s3.word a := by
    apply hkeep4
    rw [hpages3]
    exact ha
  refine ⟨s4, ?_, ?_⟩
  · exact slabInit_eq hrun1 hsame1.addr hsame1.endAddr hrun3 hrun4
  · constructor
    · exact hlo4.trans (hsame3.1.trans hsame1.1)
    · exact hhi4.trans (hsame3.2.1.trans hsame1.2.1)
    · exact haddr4
    · exact hend3
    · exact hsame3.minShift.trans hsame1.minShift
    · exact hsame3.minSize.trans hsame1.minSize
    · exact hpages4
    · rfl
    · rfl
    · rfl
    · intro j hj
      rw [hslot4, hfar _ (by unfold nextOf; omega), hkeep3 _ (by unfold nextOf; omega)
        (by unfold nextOf; omega)]
      have hj' := hnext1 j hj
      rwa [hslots] at hj'
    · rw [hfree4, hfar _ (by unfold nextOf; omega), hfn, hpage4, hpages2, Nat.mul_zero,
        Nat.add_zero]
    · rw [hpage4, Nat.mul_zero, Nat.add_zero, ← hpages3]
      exact hps4
    · rw [hpage4, Nat.mul_zero, Nat.add_zero, hfar _ (by unfold nextOf; omega), ← hpages2, hpn,
        hfree4]
    · rw [hpage4, Nat.mul_zero, Nat.add_zero, hfar _ (by unfold prevOf; omega), ← hpages2, hpp,
        hfree4]
    · intro a hlow hhigh
      rw [hpage4] at hlow
      rw [hpages4] at hhigh
      rw [hfar a (by omega)]
      exact hzero3 a (by omega) (by omega)

/-- Creation always succeeds on a mapping. -/
theorem createShpool_spec (P : PageSize) (M : Mapping P) (size : ℕ) :
    ∃ s, createShpool P M size = Except.ok s ∧ Created P M size s := by
  have hsize := mapSize_ge P size
  have hbytes := bytes_ge P
  have hslots := slotCount_le P
  have hmod : M.base % 8 = 0 :=
    Nat.mod_eq_zero_of_dvd ((eight_dvd_bytes P).trans M.base_aligned)
  have hroom := rough_room P M size
  have hcount : roughCount P M size * 24 ≤ roughCount P M size * (P.bytes + 24) :=
    Nat.mul_le_mul_left _ (by omega)
  have hpages : pagesAddr P M = M.base + 96 + 24 * slotCount P := rfl
  let s0 : Pool := ⟨⟨M.base, M.base + mapSize P size, M.content⟩, 3, 0, 0, 0, 0, M.base, 0,
    M.base + mapSize P size⟩
  have hheads : headCount P.geometry s0 = slotCount P := geometry_slots P
  have hfirst : firstPage P.geometry s0 = pagesAddr P M := by
    rw [firstPage, hheads, hpages, pageSize, Nat.mul_comm (slotCount P)]
    rfl
  have hguess : guess P.geometry s0 = roughCount P M size := by
    rw [guess, hfirst, geometry_pagesize]
    rfl
  have hstart : firstStart P.geometry s0 = startAddr P M size := by
    rw [firstStart, hfirst, hguess, geometry_pagesize]
    rfl
  have hlost : lost P.geometry s0 = lostCount P M size := by
    rw [lost, hguess, hstart, geometry_pagesize]
    rfl
  have hfinal : finalCount P.geometry s0 = pageCount P M size := by
    rw [finalCount, hlost, hguess]
    rfl
  obtain ⟨s, hrun, h⟩ := slabInit_spec P.geometry s0 rfl rfl hmod
    (by rw [hfirst]; show _ ≤ M.base + mapSize P size; omega)
    (by rw [hfirst, hguess]; show _ ≤ M.base + mapSize P size; omega)
  rw [Nat.mul_add] at hroom
  exact ⟨s, hrun, {
    lo := h.lo
    hi := h.hi
    addr := h.addr
    endAddr := h.endAddr
    minShift := h.minShift
    minSize := h.minSize
    pages := h.pages.trans hfirst
    start := h.start.trans hstart
    last := by rw [h.last, hfinal]; rfl
    pfree := h.pfree.trans hfinal
    slot_next := fun k hk => h.slot_next k (hheads ▸ hk)
    free_next := h.free_next
    head_slab := h.head_slab.trans hfinal
    head_next := h.head_next
    head_prev := h.head_prev
    zero := hguess ▸ h.zero }⟩

/-- The page count fits the 32-bit integer that keeps it. -/
def Fits (P : PageSize) (size : ℕ) : Prop := mapSize P size / (P.bytes + 24) < 2 ^ 32

instance (P : PageSize) (size : ℕ) : Decidable (Fits P size) := Nat.decLt _ _

theorem alignPtr_dvd (P : PageSize) (p : ℕ) : P.bytes ∣ alignPtr p P.bytes :=
  andNot_mask_dvd _ P.log

theorem le_alignPtr (P : PageSize) (p : ℕ) : p ≤ alignPtr p P.bytes := by
  have h := lt_andNot_mask_add (p + (P.bytes - 1)) P.log
  have hbytes := bytes_ge P
  unfold alignPtr
  unfold PageSize.bytes at *
  omega

theorem alignPtr_lt (P : PageSize) (p : ℕ) : alignPtr p P.bytes < p + P.bytes := by
  have h := andNot_mask_le (p + (P.bytes - 1)) P.log
  have hbytes := bytes_ge P
  unfold alignPtr
  unfold PageSize.bytes at *
  omega

theorem roughCount_bounds (P : PageSize) (M : Mapping P) {size : ℕ} (hfit : Fits P size) :
    7 ≤ roughCount P M size ∧ roughCount P M size < 2 ^ 32 ∧
      M.base + mapSize P size < pagesAddr P M + (roughCount P M size + 1) * (P.bytes + 24) := by
  have hsize := mapSize_ge P size
  have hbytes := bytes_ge P
  have hslots := slotCount_le P
  have hpages : pagesAddr P M = M.base + 96 + 24 * slotCount P := rfl
  have hle : (M.base + mapSize P size - pagesAddr P M) / (P.bytes + 24) ≤
      mapSize P size / (P.bytes + 24) := Nat.div_le_div_right (by omega)
  have hcount : roughCount P M size =
      (M.base + mapSize P size - pagesAddr P M) / (P.bytes + 24) :=
    toUInt32_of_lt (lt_of_le_of_lt hle hfit)
  have hlow : 7 ≤ (M.base + mapSize P size - pagesAddr P M) / (P.bytes + 24) := by
    rw [Nat.le_div_iff_mul_le (by omega)]
    omega
  have hhigh := Nat.lt_div_mul_add (a := M.base + mapSize P size - pagesAddr P M)
    (show 0 < P.bytes + 24 by omega)
  refine ⟨hcount ▸ hlow, toUInt32_lt _, ?_⟩
  rw [← hcount] at hhigh
  rw [Nat.add_mul, Nat.one_mul]
  omega

/-- At most one page is lost to the alignment. -/
theorem pageCount_bounds (P : PageSize) (M : Mapping P) {size : ℕ} (hfit : Fits P size) :
    6 ≤ pageCount P M size ∧ pageCount P M size ≤ roughCount P M size ∧
      startAddr P M size + pageCount P M size * P.bytes ≤ M.base + mapSize P size := by
  obtain ⟨hlow, hhigh, hnext⟩ := roughCount_bounds P M hfit
  have hroom := rough_room P M size
  have hbytes := bytes_ge P
  have hge := le_alignPtr P (pagesAddr P M + roughCount P M size * 24)
  have hlt := alignPtr_lt P (pagesAddr P M + roughCount P M size * 24)
  have hstart : startAddr P M size = alignPtr (pagesAddr P M + roughCount P M size * 24) P.bytes :=
    rfl
  rw [← hstart] at hge hlt
  rw [Nat.mul_add] at hroom
  rw [Nat.add_mul, Nat.mul_add] at hnext
  have hseven : 7 * P.bytes ≤ roughCount P M size * P.bytes := Nat.mul_le_mul_right _ hlow
  have hend : startAddr P M size ≤ M.base + mapSize P size := by omega
  obtain ⟨q, hq⟩ : ∃ q, q = (M.base + mapSize P size - startAddr P M size) / P.bytes := ⟨_, rfl⟩
  have hqmul : q * P.bytes ≤ M.base + mapSize P size - startAddr P M size :=
    hq ▸ Nat.div_mul_le_self _ _
  have hqlow : roughCount P M size - 1 ≤ q := by
    rw [hq, Nat.le_div_iff_mul_le (by omega), Nat.sub_mul]
    omega
  have hqhigh : q < roughCount P M size + 2 := by
    rw [hq, Nat.div_lt_iff_lt_mul (by omega), Nat.add_mul]
    omega
  have hlost : lostCount P M size = (roughCount P M size : ℤ) - q := by
    have hdiff : ((M.base + mapSize P size : ℕ) : ℤ) - startAddr P M size =
        ((M.base + mapSize P size - startAddr P M size : ℕ) : ℤ) := by omega
    rw [lostCount, hdiff, Int.tdiv_eq_ediv_of_nonneg (by omega), ← Int.natCast_ediv, ← hq]
    exact toInt32_of_range (by omega) (by omega)
  unfold pageCount
  rw [hlost]
  split
  · next hpos =>
    rw [show (roughCount P M size : ℤ) - ((roughCount P M size : ℤ) - q) = (q : ℤ) by ring,
      toUInt32_of_lt (by omega)]
    exact ⟨by omega, by omega, by omega⟩
  · next hneg =>
    have hle : roughCount P M size * P.bytes ≤ q * P.bytes := Nat.mul_le_mul_right _ (by omega)
    exact ⟨by omega, le_refl _, by omega⟩

/-- The layout of a created pool. -/
theorem Created.layout {P : PageSize} {M : Mapping P} {size : ℕ} {s : Pool}
    (h : Created P M size s) (hfit : Fits P size) : Layout P (pageCount P M size) s := by
  obtain ⟨-, hhigh, -⟩ := roughCount_bounds P M hfit
  obtain ⟨hcount, hle, hroom⟩ := pageCount_bounds P M hfit
  have hge := le_alignPtr P (pagesAddr P M + roughCount P M size * 24)
  exact {
    lo := by rw [h.lo, h.addr]
    hi := by rw [h.hi, h.endAddr]
    addr_pos := h.addr ▸ base_ge P M
    addr_mod := h.addr ▸ Nat.mod_eq_zero_of_dvd ((eight_dvd_bytes P).trans M.base_aligned)
    minShift := h.minShift
    minSize := h.minSize
    pages_eq := by rw [h.pages, h.addr, pagesAddr]
    last_eq := h.last
    last_le := by
      rw [h.last, h.start, h.pages, startAddr]
      omega
    start_dvd := by
      rw [h.start, startAddr]
      exact alignPtr_dvd P _
    room := by
      rw [h.start, h.endAddr]
      exact hroom
    count_pos := by omega
    count_lt := by omega }

end HCore.SlabLayout
