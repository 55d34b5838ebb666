import HCore.SlabClasses
import HCore.BaseCalls
import Mathlib.Order.Bounds.Basic

/-!
What `hcore_slab_init` lays out, for every page size that fits an `int` and
after any calls of the page-size getters. The slot heads end one class short
of half a page, since the shift of the page size is one too small; and the
page count is a guess that is corrected where it is too large, but not where
the descriptors leave room for one page more.
-/

namespace HCore.SlabInit

open Words Machine Base BaseCalls SlabPool SlabAlloc SlabLayout

/-- The header of a pool of `size` bytes as `hcore_create_shpool` leaves it. -/
def headerAt (base size : ℕ) : Pool where
  mem := ⟨base, base + size, fun _ => 0⟩
  minShift := 3
  minSize := 0
  pages := 0
  last := 0
  pfree := 0
  addr := base
  start := 0
  endAddr := base + size

/-- The power of two that a request gets is the smallest that holds it, and
its slot is one of the slot heads in front of the descriptors. -/
def ClassRight (s : Pool) (size : ℕ) : Prop :=
  IsLeast {c | (∃ e, c = 2 ^ e) ∧ max size s.minSize ≤ c} (2 ^ classShift s size) ∧
    classShift s size - s.minShift < (s.pages - s.getSlots) / pageSize

/-- The pools that differ only in the contents of memory. -/
def SameButMemory (s s' : Pool) : Prop := s' = s.setMem s'.mem

section

variable {s s' : Pool}

theorem SameButMemory.trans {s'' : Pool} (h : SameButMemory s s') (h' : SameButMemory s' s'') :
    SameButMemory s s'' := by
  unfold SameButMemory at *
  rw [h', h]
  rfl

theorem sameButMemory_store {a v : ℕ} (h : s.store a v = Except.ok s') : SameButMemory s s' := by
  obtain ⟨m, -, hm⟩ := bind_eq_ok.mp h
  cases hm
  rfl

theorem sameButMemory_memzero {a n : ℕ} (h : s.memzero a n = Except.ok s') :
    SameButMemory s s' := by
  obtain ⟨m, -, hm⟩ := bind_eq_ok.mp h
  cases hm
  rfl

theorem sameButMemory_initSlots {n slots : ℕ} (h : initSlots n slots s = Except.ok s') :
    SameButMemory s s' := by
  induction n generalizing slots s with
  | zero =>
    cases h
    rfl
  | succ n ih =>
    obtain ⟨s1, h1, h⟩ := bind_eq_ok.mp h
    obtain ⟨s2, h2, h⟩ := bind_eq_ok.mp h
    obtain ⟨s3, h3, h⟩ := bind_eq_ok.mp h
    exact (sameButMemory_store h1).trans ((sameButMemory_store h2).trans
      ((sameButMemory_store h3).trans (ih h)))

theorem sameButMemory_initFreeList {n : ℕ} (h : initFreeList s n = Except.ok s') :
    SameButMemory s s' := by
  obtain ⟨s1, h1, h⟩ := bind_eq_ok.mp h
  obtain ⟨s2, h2, h⟩ := bind_eq_ok.mp h
  obtain ⟨s3, h3, h⟩ := bind_eq_ok.mp h
  obtain ⟨s4, h4, h⟩ := bind_eq_ok.mp h
  obtain ⟨s5, h5, h⟩ := bind_eq_ok.mp h
  obtain ⟨s6, h6, h⟩ := bind_eq_ok.mp h
  exact (sameButMemory_memzero h1).trans ((sameButMemory_store h2).trans
    ((sameButMemory_store h3).trans ((sameButMemory_store h4).trans
      ((sameButMemory_store h5).trans ((sameButMemory_store h6).trans (sameButMemory_store h))))))

/-- The header that the classes of an initialised pool are read from. -/
theorem slabInit_header {g : Geometry} (h : slabInit g s = Except.ok s') :
    s'.minShift = s.minShift ∧ s'.minSize = 2 ^ s.minShift ∧
      s'.pages = s'.getSlots + headCount g s * pageSize := by
  obtain ⟨s1, h1, h⟩ := bind_eq_ok.mp h
  obtain ⟨s2, h2, h⟩ := bind_eq_ok.mp h
  have hslots := sameButMemory_initSlots h1
  have hlist := sameButMemory_initFreeList h2
  have hpages : s'.minShift = s2.minShift ∧ s'.minSize = s2.minSize ∧ s'.pages = s2.pages ∧
      s'.addr = s2.addr := by
    unfold alignPages at h
    dsimp only at h
    split at h
    · obtain ⟨s3, h3, h⟩ := bind_eq_ok.mp h
      have hstore := sameButMemory_store h3
      cases h
      dsimp only
      rw [hstore]
      exact ⟨rfl, rfl, rfl, rfl⟩
    · cases h
      exact ⟨rfl, rfl, rfl, rfl⟩
  obtain ⟨hshift, hsize, hfirst, haddr⟩ := hpages
  rw [Pool.getSlots, hshift, hsize, hfirst, haddr, hlist]
  dsimp only [Pool.setMem]
  rw [hslots]
  exact ⟨rfl, Nat.one_shiftLeft _, rfl⟩

/-- The chunk of a request is the smallest power of two that holds it. -/
theorem classShift_least (hmin : s.minSize = 2 ^ s.minShift) {size : ℕ} (hpos : 0 < size)
    (hsize : size < 2 ^ 64) (e : ℕ) :
    max size s.minSize ≤ 2 ^ e ↔ classShift s size ≤ e := by
  unfold classShift
  have hshift : s.minSize ≤ 2 ^ e ↔ s.minShift ≤ e := by
    rw [hmin]
    exact Nat.pow_le_pow_iff_right (by omega)
  by_cases hbig : s.minSize < size
  · have hone : 2 ^ s.minShift ≥ 1 := Nat.one_le_two_pow
    have hhalf : halvings 64 (size - 1) = Nat.log 2 (size - 1) :=
      halvings_eq_log _ _ (by omega)
    rw [if_pos hbig, hhalf, Nat.max_eq_left hbig.le, Nat.add_comm, Nat.add_one_le_iff,
      Nat.log_lt_iff_lt_pow (by omega) (by omega)]
    omega
  · rw [if_neg hbig, Nat.max_eq_right (Nat.not_lt.mp hbig)]
    exact hshift

/-- Classes end one short of half a page: a larger request gets the head that
lies on the first descriptor. -/
theorem class_right_iff (k : ℕ) (hk : 12 ≤ k) (hk' : k ≤ 30) (calls : List Call)
    (hinit : slabInit (geometryAfter k calls) s = Except.ok s') {size : ℕ} (hpos : 0 < size)
    (hsize : size ≤ 2 ^ (k - 1)) :
    ClassRight s' size ↔ max size s'.minSize ≤ 2 ^ (k - 2) := by
  obtain ⟨hshift, hminSize, hpages⟩ := slabInit_header hinit
  obtain ⟨-, hk1⟩ := geometryAfter_pagesize hk hk' calls
  have hbound : size < 2 ^ 64 :=
    lt_of_le_of_lt hsize (Nat.pow_lt_pow_right (by omega) (by omega))
  have hleast (e : ℕ) : max size s'.minSize ≤ 2 ^ e ↔ classShift s' size ≤ e :=
    classShift_least (by rw [hminSize, hshift]) hpos hbound e
  have hheads : (s'.pages - s'.getSlots) / pageSize = k - 1 - s'.minShift := by
    rw [hpages, headCount, hk1, hshift, Nat.add_sub_cancel_left,
      Nat.mul_div_cancel _ (by simp [pageSize])]
  have hlow : s'.minShift ≤ classShift s' size := by
    have hle : s'.minSize ≤ 2 ^ classShift s' size :=
      le_trans (le_max_right _ _) ((hleast _).mpr le_rfl)
    rw [hminSize, ← hshift] at hle
    exact (Nat.pow_le_pow_iff_right (by omega)).mp hle
  unfold ClassRight
  rw [hheads, hleast]
  constructor
  · rintro ⟨-, hslot⟩
    omega
  · intro hclass
    refine ⟨⟨⟨⟨_, rfl⟩, (hleast _).mpr le_rfl⟩, ?_⟩, by omega⟩
    rintro c ⟨⟨e, rfl⟩, he⟩
    exact Nat.pow_le_pow_right (by omega) ((hleast e).mp he)

end

theorem headerAt_initialised : ∃ s, slabInit (geometryAfter 12 []) (headerAt 65536 43008) =
    Except.ok s ∧ Initialised (geometryAfter 12 []) (headerAt 65536 43008) s :=
  slabInit_spec _ _ rfl rfl (by decide) (by decide) (by decide)

theorem class_right_iff_quarter : ∃ s, slabInit (geometryAfter 12 []) (headerAt 65536 43008) =
    Except.ok s ∧ (ClassRight s 1024 ↔ max 1024 s.minSize ≤ 1024) := by
  obtain ⟨s, hrun, -⟩ := headerAt_initialised
  exact ⟨s, hrun, class_right_iff 12 (by decide) (by decide) [] hrun (by decide) (by decide)⟩

/-- Half a page gets slot 8 of a pool with the slot heads 0 to 7. -/
theorem half_page_outside : ¬ ∀ k, 12 ≤ k → k ≤ 30 → ∀ calls s s' size,
    slabInit (geometryAfter k calls) s = Except.ok s' → 0 < size → size ≤ 2 ^ (k - 1) →
      ClassRight s' size := by
  intro h
  obtain ⟨s, hrun, hs⟩ := headerAt_initialised
  obtain ⟨-, hslot⟩ := h 12 (by decide) (by decide) [] _ _ 2048 hrun (by decide) (by decide)
  unfold classShift at hslot
  rw [hs.minSize, hs.minShift, hs.pages, firstPage, Pool.getSlots, Pool.getSlots, hs.addr] at hslot
  exact absurd hslot (by decide)

/-- The header `s` of a mapping of pages of `2 ^ k` bytes. The mapping need
not be a multiple of them, and its page count fits the integer that keeps it. -/
structure Mapped (k : ℕ) (s : Pool) : Prop where
  lo : s.mem.lo = s.addr
  hi : s.mem.hi = s.endAddr
  base_dvd : 2 ^ k ∣ s.addr
  room : s.addr + 8 * 2 ^ k ≤ s.endAddr
  shift : s.minShift ≤ k - 1
  count_lt : (s.endAddr - s.addr) / (2 ^ k + 24) < 2 ^ 32

/-- The slot heads, the descriptors and the pages follow each other, and one
free run holds every page that fits. -/
structure LaidOut (heads bytes : ℕ) (s : Pool) : Prop where
  pages : s.pages = s.getSlots + heads * pageSize
  slots : ∀ j < heads, s.word (nextOf (s.slot j)) = s.slot j
  last : s.last = s.pages + s.pfree * pageSize
  last_le : s.last ≤ s.start
  start_dvd : bytes ∣ s.start
  pfree_pos : 0 < s.pfree
  inside : ∀ i < s.pfree, s.start + (i + 1) * bytes ≤ s.endAddr
  run : s.word (slabOf (s.page 0)) = s.pfree
  run_only : s.word (nextOf s.free) = s.page 0 ∧ s.word (nextOf (s.page 0)) = s.free ∧
    s.word (prevOf (s.page 0)) = s.free
  whole : (s.endAddr - s.start) / bytes = s.pfree

/-- The bytes before the first descriptor. -/
def headBytes (k : ℕ) (s : Pool) : ℕ := poolSize + (k - 1 - s.minShift) * pageSize

/-- How many descriptors with their pages the rest of the mapping holds. -/
def fitting (k : ℕ) (s : Pool) : ℕ := (s.endAddr - s.addr - headBytes k s) / (2 ^ k + pageSize)

/-- The bytes that neither a descriptor nor its page takes. -/
def leftOver (k : ℕ) (s : Pool) : ℕ := (s.endAddr - s.addr - headBytes k s) % (2 ^ k + pageSize)

/-- The bytes from the last descriptor to the next page boundary. -/
def padding (k : ℕ) (s : Pool) : ℕ :=
  (2 ^ k - (headBytes k s + fitting k s * pageSize) % 2 ^ k) % 2 ^ k

/-- Rounding up from a page boundary. -/
theorem alignPtr_add (k base x : ℕ) (hbase : 2 ^ k ∣ base) :
    alignPtr (base + x) (2 ^ k) = base + x + (2 ^ k - x % 2 ^ k) % 2 ^ k := by
  obtain ⟨c, rfl⟩ := hbase
  have hpos : 0 < 2 ^ k := Nat.two_pow_pos k
  have hx := Nat.div_add_mod x (2 ^ k)
  have hlt := Nat.mod_lt x hpos
  unfold alignPtr
  rw [andNot_mask, show 2 ^ k * c + x + (2 ^ k - 1) = x + (2 ^ k - 1) + 2 ^ k * c by omega,
    Nat.add_mul_div_left _ _ hpos, Nat.mul_add]
  by_cases hzero : x % 2 ^ k = 0
  · have hdiv : (x + (2 ^ k - 1)) / 2 ^ k = x / 2 ^ k := by
      rw [Nat.div_eq_iff hpos, Nat.mul_comm]
      omega
    rw [hdiv, hzero, Nat.sub_zero, Nat.mod_self]
    omega
  · have hdiv : (x + (2 ^ k - 1)) / 2 ^ k = x / 2 ^ k + 1 := by
      rw [Nat.div_eq_iff hpos, Nat.add_mul, Nat.mul_comm (x / 2 ^ k)]
      omega
    rw [hdiv, Nat.mod_eq_of_lt (show 2 ^ k - x % 2 ^ k < 2 ^ k by omega), Nat.mul_add]
    omega

section

variable {k : ℕ} {s : Pool} (hk : 12 ≤ k) (hk' : k ≤ 30) (calls : List Call)
include hk hk'

theorem firstPage_eq : firstPage (geometryAfter k calls) s = s.addr + headBytes k s := by
  rw [firstPage, headCount, (geometryAfter_pagesize hk hk' calls).2, Pool.getSlots,
    headBytes, Nat.add_assoc]

theorem headBytes_le : headBytes k s ≤ 96 + 29 * 24 ∧ 4096 ≤ 2 ^ k := by
  have hbytes : 2 ^ 12 ≤ 2 ^ k := Nat.pow_le_pow_right (by omega) hk
  have hheads : (k - 1 - s.minShift) * 24 ≤ 29 * 24 := Nat.mul_le_mul_right _ (by omega)
  simp only [headBytes, poolSize, pageSize]
  omega

variable (h : Mapped k s)
include h

theorem Mapped.guess_eq : guess (geometryAfter k calls) s = fitting k s := by
  have hle : (s.endAddr - s.addr - headBytes k s) / (2 ^ k + 24) ≤
      (s.endAddr - s.addr) / (2 ^ k + 24) := Nat.div_le_div_right (Nat.sub_le _ _)
  rw [guess, firstPage_eq hk hk', (geometryAfter_pagesize hk hk' calls).1, fitting,
    ← Nat.sub_sub]
  exact toUInt32_of_lt (lt_of_le_of_lt hle h.count_lt)

theorem Mapped.firstStart_eq : firstStart (geometryAfter k calls) s =
    s.addr + headBytes k s + fitting k s * pageSize + padding k s := by
  rw [firstStart, firstPage_eq hk hk', h.guess_eq hk hk',
    (geometryAfter_pagesize hk hk' calls).1, Nat.add_assoc s.addr, alignPtr_add _ _ _ h.base_dvd]
  rfl

/-- The pages behind `start` and the bytes that remain. -/
theorem Mapped.room_eq : s.endAddr + padding k s =
    s.addr + headBytes k s + fitting k s * pageSize + padding k s + fitting k s * 2 ^ k +
      leftOver k s := by
  have hdiv := Nat.div_add_mod (s.endAddr - s.addr - headBytes k s) (2 ^ k + pageSize)
  have hroom := h.room
  have hhead := headBytes_le (s := s) hk hk'
  change (2 ^ k + pageSize) * fitting k s + leftOver k s = _ at hdiv
  rw [Nat.add_mul, Nat.mul_comm, Nat.mul_comm pageSize] at hdiv
  omega

theorem Mapped.fitting_bounds : 7 ≤ fitting k s ∧ fitting k s < 2 ^ 32 := by
  have hroom := h.room
  have hhead := headBytes_le (s := s) hk hk'
  have hle : fitting k s ≤ (s.endAddr - s.addr) / (2 ^ k + 24) :=
    Nat.div_le_div_right (Nat.sub_le _ _)
  refine ⟨?_, lt_of_le_of_lt hle h.count_lt⟩
  unfold fitting pageSize
  rw [Nat.le_div_iff_mul_le (by omega)]
  omega

/-- The guess is corrected down to the pages that fit, never up. -/
theorem Mapped.finalCount_eq : finalCount (geometryAfter k calls) s =
    min (fitting k s) ((s.endAddr - firstStart (geometryAfter k calls) s) / 2 ^ k) := by
  obtain ⟨hseven, hcount⟩ := h.fitting_bounds hk hk'
  have hstart := h.firstStart_eq hk hk' calls
  have hroom := h.room_eq hk hk'
  have hbytes := headBytes_le (s := s) hk hk'
  have hpad : padding k s < 2 ^ k := Nat.mod_lt _ (Nat.two_pow_pos k)
  have hleft : leftOver k s < 2 ^ k + pageSize := Nat.mod_lt _ (by unfold pageSize; omega)
  have hseven' : 7 * 2 ^ k ≤ fitting k s * 2 ^ k := Nat.mul_le_mul_right _ hseven
  obtain ⟨q, hq⟩ : ∃ q, q = (s.endAddr - firstStart (geometryAfter k calls) s) / 2 ^ k :=
    ⟨_, rfl⟩
  unfold pageSize at *
  have hend : firstStart (geometryAfter k calls) s ≤ s.endAddr := by omega
  have hqlow : fitting k s - 1 ≤ q := by
    rw [hq, Nat.le_div_iff_mul_le (by omega), Nat.sub_mul]
    omega
  have hqhigh : q < fitting k s + 2 := by
    rw [hq, Nat.div_lt_iff_lt_mul (by omega), Nat.add_mul]
    omega
  have hlost : lost (geometryAfter k calls) s = (fitting k s : ℤ) - q := by
    have hdiff : (s.endAddr : ℤ) - firstStart (geometryAfter k calls) s =
        ((s.endAddr - firstStart (geometryAfter k calls) s : ℕ) : ℤ) := by omega
    rw [lost, h.guess_eq hk hk', hdiff, (geometryAfter_pagesize hk hk' calls).1,
      Int.tdiv_eq_ediv_of_nonneg (by omega), ← Int.natCast_ediv, ← hq]
    exact toInt32_of_range (by omega) (by omega)
  rw [finalCount, hlost, h.guess_eq hk hk', ← hq]
  split
  · rw [show (fitting k s : ℤ) - ((fitting k s : ℤ) - q) = (q : ℤ) by ring,
      toUInt32_of_lt (by omega)]
    omega
  · omega

/-- The page that the guess misses. -/
theorem Mapped.whole_iff :
    (s.endAddr - firstStart (geometryAfter k calls) s) / 2 ^ k =
        finalCount (geometryAfter k calls) s ↔
      leftOver k s < 2 ^ k + padding k s := by
  obtain ⟨hseven, hcount⟩ := h.fitting_bounds hk hk'
  have hstart := h.firstStart_eq hk hk' calls
  have hroom := h.room_eq hk hk'
  have hbytes := headBytes_le (s := s) hk hk'
  have hseven' : 7 * 2 ^ k ≤ fitting k s * 2 ^ k := Nat.mul_le_mul_right _ hseven
  have hpad : padding k s < 2 ^ k := Nat.mod_lt _ (Nat.two_pow_pos k)
  have hlt : (s.endAddr - firstStart (geometryAfter k calls) s) / 2 ^ k <
      fitting k s + 1 ↔ leftOver k s < 2 ^ k + padding k s := by
    rw [Nat.div_lt_iff_lt_mul (by omega), Nat.add_mul]
    omega
  rw [h.finalCount_eq hk hk', ← hlt]
  omega

end

/-- Initialisation lays the pool out as described unless a page more than
the guess fits behind `start`. -/
theorem laid_out_iff (k : ℕ) (hk : 12 ≤ k) (hk' : k ≤ 30) (calls : List Call) (s : Pool)
    (h : Mapped k s) : ∃ s', slabInit (geometryAfter k calls) s = Except.ok s' ∧
      (LaidOut (k - 1 - s.minShift) (2 ^ k) s' ↔ leftOver k s < 2 ^ k + padding k s) := by
  obtain ⟨hpagesize, hshift⟩ := geometryAfter_pagesize hk hk' calls
  obtain ⟨hseven, hcount⟩ := h.fitting_bounds hk hk'
  have hfirst := firstPage_eq (s := s) hk hk' calls
  have hguess := h.guess_eq hk hk' calls
  have hstart := h.firstStart_eq hk hk' calls
  have hroom := h.room
  have hroom' := h.room_eq hk hk'
  have hbytes := headBytes_le (s := s) hk hk'
  have hpad : padding k s < 2 ^ k := Nat.mod_lt _ (Nat.two_pow_pos k)
  have hseven' : 7 * 2 ^ k ≤ fitting k s * 2 ^ k := Nat.mul_le_mul_right _ hseven
  have hheads : headCount (geometryAfter k calls) s = k - 1 - s.minShift := by
    rw [headCount, hshift]
  have hmod : s.addr % 8 = 0 :=
    Nat.mod_eq_zero_of_dvd ((pow_dvd_pow 2 (show 3 ≤ k by omega)).trans h.base_dvd)
  obtain ⟨s', hrun, hs'⟩ := slabInit_spec (geometryAfter k calls) s h.lo h.hi hmod
    (by omega) (by unfold pageSize at *; omega)
  have hfinal := h.finalCount_eq hk hk' calls
  have hwhole := h.whole_iff hk hk' calls
  refine ⟨s', hrun, ?_⟩
  rw [← hwhole, ← hs'.start, ← hs'.endAddr, ← hs'.pfree]
  refine ⟨LaidOut.whole, fun hw => ?_⟩
  have hle : s'.pfree ≤ fitting k s := by
    rw [hs'.pfree, hfinal]
    exact min_le_left _ _
  have hpos : 0 < s'.pfree := by
    have hone : 1 ≤ (s'.endAddr - s'.start) / 2 ^ k := by
      rw [Nat.le_div_iff_mul_le (by omega), hs'.endAddr, hs'.start]
      unfold pageSize at *
      omega
    omega
  exact {
    pages := by rw [hs'.pages, firstPage, hheads, Pool.getSlots, Pool.getSlots, hs'.addr]
    slots := hheads ▸ hs'.slot_next
    last := by rw [hs'.last, hs'.pfree, Nat.mul_comm]
    last_le := by
      have hmul := Nat.mul_le_mul_right pageSize hle
      rw [hs'.last, hs'.start, hs'.pages, ← hs'.pfree, Nat.mul_comm]
      omega
    start_dvd := by
      rw [hs'.start, firstStart, hpagesize]
      exact andNot_mask_dvd _ k
    pfree_pos := hpos
    inside := by
      intro i hi
      have hmul : (i + 1) * 2 ^ k ≤ (s'.endAddr - s'.start) / 2 ^ k * 2 ^ k :=
        Nat.mul_le_mul_right _ (by omega)
      have hdiv := Nat.div_mul_le_self (s'.endAddr - s'.start) (2 ^ k)
      have hsmall : 2 ^ k ≤ (i + 1) * 2 ^ k := Nat.le_mul_of_pos_left _ (by omega)
      omega
    run := hs'.head_slab.trans hs'.pfree.symm
    run_only := ⟨hs'.free_next, hs'.head_next, hs'.head_prev⟩
    whole := hw }

/-- Ten pages and a half: the half page stays unused, as it should. -/
theorem laid_out_iff_uneven : ∃ s, slabInit (geometryAfter 12 []) (headerAt 65536 43008) =
    Except.ok s ∧ (LaidOut 8 4096 s ↔ leftOver 12 (headerAt 65536 43008) <
      4096 + padding 12 (headerAt 65536 43008)) :=
  laid_out_iff 12 (by decide) (by decide) [] _ {
    lo := rfl
    hi := rfl
    base_dvd := ⟨16, rfl⟩
    room := by decide
    shift := by decide
    count_lt := by decide }

/-- A pool of 160 pages of 4096 bytes has room for 159 behind `start`, and
`hcore_slab_init` counts 158. -/
theorem last_page_lost : ¬ ∀ k, 12 ≤ k → k ≤ 30 → ∀ calls s, Mapped k s →
    ∃ s', slabInit (geometryAfter k calls) s = Except.ok s' ∧
      LaidOut (k - 1 - s.minShift) (2 ^ k) s' := by
  intro h
  obtain ⟨s, hrun, hs⟩ := h 12 (by decide) (by decide) [] (headerAt 65536 655360) {
    lo := rfl
    hi := rfl
    base_dvd := ⟨16, rfl⟩
    room := by decide
    shift := by decide
    count_lt := by decide }
  obtain ⟨s', hrun', hs'⟩ := slabInit_spec (geometryAfter 12 []) (headerAt 65536 655360) rfl rfl
    (by decide) (by decide) (by decide)
  have hsame : s' = s := Except.ok.inj (hrun'.symm.trans hrun)
  have hwhole := hs.whole
  rw [← hsame, hs'.endAddr, hs'.start, hs'.pfree] at hwhole
  exact absurd hwhole (by decide)

end HCore.SlabInit
