import HCore.Base

/-!
The shared slab pool: its header, its page descriptors and its creation. The
pool header, the slot heads, the descriptors and the pages share one mapping,
so a slot index past the last slot head denotes the first page descriptor,
as in the source. The header's `free` descriptor lives in memory because the
free list is linked through it; the scalar header fields are record fields.
-/

namespace HCore.SlabPool

open Words Machine Base

/-- `sizeof(hcore_slab_page_t)`: the words `slab`, `prev` and `next`. -/
def pageSize : ℕ := 24

def slabOf (page : ℕ) : ℕ := page

def prevOf (page : ℕ) : ℕ := page + 8

def nextOf (page : ℕ) : ℕ := page + 16

/-- `sizeof(hcore_slab_pool_t)` and the offset of its `free` descriptor. -/
def poolSize : ℕ := 96

def freeOffset : ℕ := 40

def slabPageFree : ℕ := 0
def slabPageBusy : ℕ := 0xffffffffffffffff
def slabPageStart : ℕ := 0x8000000000000000
def slabShiftMask : ℕ := 0xf
def slabMapShift : ℕ := 32
def slabMapMask : ℕ := 0xffffffff00000000
def slabBusy : ℕ := 0xffffffffffffffff
def slabPageMask : ℕ := 3

/-- The page types, kept in the two low bits of `prev`. -/
def slabPage : ℕ := 0
def slabBig : ℕ := 1
def slabExact : ℕ := 2
def slabSmall : ℕ := 3

/-- `hcore_slab_pool_t`, with the mapping it heads. -/
structure Pool where
  mem : Memory
  minShift : ℕ
  minSize : ℕ
  pages : ℕ
  last : ℕ
  pfree : ℕ
  addr : ℕ
  start : ℕ
  endAddr : ℕ

namespace Pool

/-- The address of the free list's header descriptor. -/
def free (s : Pool) : ℕ := s.addr + freeOffset

def getSlots (s : Pool) : ℕ := s.addr + poolSize

def slot (s : Pool) (k : ℕ) : ℕ := s.getSlots + pageSize * k

def page (s : Pool) (i : ℕ) : ℕ := s.pages + pageSize * i

def word (s : Pool) (a : ℕ) : ℕ := s.mem.word a

def load (s : Pool) (a : ℕ) : Exec ℕ := s.mem.load a

def setMem (s : Pool) (m : Memory) : Pool := { s with mem := m }

def store (s : Pool) (a v : ℕ) : Exec Pool := do
  let m ← s.mem.store a v
  pure (s.setMem m)

/-- `hcore_memzero(a, n)`. -/
def memzero (s : Pool) (a n : ℕ) : Exec Pool := do
  let m ← s.mem.zero a n
  pure (s.setMem m)

def getPageType (s : Pool) (page : ℕ) : Exec ℕ := do
  let prev ← s.load (prevOf page)
  pure (prev &&& slabPageMask)

def getPagePrev (s : Pool) (page : ℕ) : Exec ℕ := do
  let prev ← s.load (prevOf page)
  pure (andNot prev slabPageMask)

def setPagePrev (s : Pool) (page prevPage type : ℕ) : Exec Pool :=
  s.store (prevOf page) (prevPage ||| type)

/-- The pointer difference `page - pool->pages`; it is undefined unless the
pointers are a whole number of descriptors apart. The left shift that follows
it is undefined on a negative difference. -/
def pageIndex (s : Pool) (page : ℕ) : Exec ℕ :=
  if s.pages ≤ page ∧ (page - s.pages) % pageSize = 0 then pure ((page - s.pages) / pageSize)
  else undefined

def getPageAddr (s : Pool) (page pagesizeShift : ℕ) : Exec ℕ := do
  let i ← s.pageIndex page
  pure ((i <<< pagesizeShift) + s.start)

/-- `hcore_slab_remove_full_page`. -/
def removeFullPage (s : Pool) (page type : ℕ) : Exec Pool := do
  let prev ← s.getPagePrev page
  let next ← s.load (nextOf page)
  let s ← s.store (nextOf prev) next
  let next ← s.load (nextOf page)
  let prev ← s.load (prevOf page)
  let s ← s.store (prevOf next) prev
  let s ← s.store (nextOf page) 0
  s.setPagePrev page 0 type

/-- A word of the mapping is written; every header field is kept. -/
def set (s : Pool) (a v : ℕ) : Pool := s.setMem (s.mem.set a v)

/-- The `n` bytes from `a` on are cleared. -/
def clear (s : Pool) (a n : ℕ) : Pool :=
  s.setMem ⟨s.mem.lo, s.mem.hi, fun b => if a ≤ b ∧ b < a + n then 0 else s.mem.word b⟩

def Valid (s : Pool) (a : ℕ) : Prop := s.mem.Valid a

instance (s : Pool) (a : ℕ) : Decidable (s.Valid a) := inferInstanceAs (Decidable (s.mem.Valid a))

section

variable {s : Pool} {a b v : ℕ}

theorem load_ok (h : s.Valid a) : s.load a = Except.ok (s.word a) := Memory.load_of_valid h

theorem load_undefined (h : ¬ s.Valid a) : s.load a = undefined := Memory.load_of_not_valid h

theorem load_eq_ok (h : s.load a = Except.ok v) : v = s.word a := by
  by_cases hv : s.Valid a
  · rw [load_ok hv] at h
    cases h
    rfl
  · rw [load_undefined hv] at h
    cases h

theorem store_ok (h : s.Valid a) : s.store a v = Except.ok (s.set a v) := by
  simp only [store, Memory.store_of_valid h, ok_bind, pure_eq_ok, set]

theorem memzero_ok {n : ℕ} (hlo : s.mem.lo ≤ a) (hhi : a + n ≤ s.mem.hi) :
    s.memzero a n = Except.ok (s.clear a n) := by
  simp only [memzero, Memory.zero_of_valid hlo hhi, ok_bind, pure_eq_ok, clear]

theorem getPageType_ok (h : s.Valid (prevOf a)) :
    s.getPageType a = Except.ok (s.word (prevOf a) &&& slabPageMask) := by
  simp only [getPageType, load_ok h, ok_bind, pure_eq_ok]

theorem getPagePrev_ok (h : s.Valid (prevOf a)) :
    s.getPagePrev a = Except.ok (andNot (s.word (prevOf a)) slabPageMask) := by
  simp only [getPagePrev, load_ok h, ok_bind, pure_eq_ok]

theorem setPagePrev_ok {page prevPage type : ℕ} (h : s.Valid (prevOf page)) :
    s.setPagePrev page prevPage type = Except.ok (s.set (prevOf page) (prevPage ||| type)) :=
  store_ok h

@[simp] theorem set_valid : (s.set a v).Valid b ↔ s.Valid b := Iff.rfl

@[simp] theorem set_same : (s.set a v).word a = v := Memory.set_same ..

theorem set_other (h : b ≠ a) : (s.set a v).word b = s.word b := Memory.set_other _ _ h

@[simp] theorem clear_valid {n : ℕ} : (s.clear a n).Valid b ↔ s.Valid b := Iff.rfl

theorem clear_in {n : ℕ} (h : a ≤ b) (h' : b < a + n) : (s.clear a n).word b = 0 :=
  if_pos ⟨h, h'⟩

theorem clear_out {n : ℕ} (h : b < a ∨ a + n ≤ b) : (s.clear a n).word b = s.word b :=
  if_neg (by omega)

@[simp] theorem clear_free {n : ℕ} : (s.clear a n).free = s.free := rfl

@[simp] theorem clear_pages {n : ℕ} : (s.clear a n).pages = s.pages := rfl

@[simp] theorem set_free : (s.set a v).free = s.free := rfl

@[simp] theorem set_pages : (s.set a v).pages = s.pages := rfl

@[simp] theorem set_page : (s.set a v).page = s.page := rfl

@[simp] theorem set_slot : (s.set a v).slot = s.slot := rfl

@[simp] theorem set_pfree : (s.set a v).pfree = s.pfree := rfl

end

end Pool

/-- `hcore_align_ptr(p, a)`. -/
def alignPtr (p a : ℕ) : ℕ := andNot (p + (a - 1)) (a - 1)

/-- The slot heads from `slots` on: `next` points at the head itself. -/
def initSlots : ℕ → ℕ → Pool → Exec Pool
  | 0, _, s => pure s
  | n + 1, slots, s => do
    let s ← s.store (slabOf slots) 0
    let s ← s.store (nextOf slots) slots
    let s ← s.store (prevOf slots) 0
    initSlots n (slots + pageSize) s

/-- Clear the descriptors and make one free run of `pageN` pages of them. -/
def initFreeList (s : Pool) (pageN : ℕ) : Exec Pool := do
  let s ← s.memzero s.pages (pageN * pageSize)
  let page := s.pages
  let s ← s.store (slabOf s.free) 0
  let s ← s.store (nextOf s.free) page
  let s ← s.store (prevOf s.free) 0
  let s ← s.store (slabOf page) pageN
  let s ← s.store (nextOf page) s.free
  s.store (prevOf page) s.free

/-- The pages that the alignment of `start` has pushed out, as an `int`. -/
def lostPages (g : Geometry) (s : Pool) (pageN : ℕ) : ℤ :=
  toInt32 (pageN - ((s.endAddr : ℤ) - s.start).tdiv g.pagesize)

/-- Align the pages and drop from the count those that no longer fit. -/
def alignPages (g : Geometry) (s : Pool) (pageN : ℕ) : Exec Pool := do
  let s := { s with start := alignPtr (s.pages + pageN * pageSize) g.pagesize }
  let m := lostPages g s pageN
  if 0 < m then do
    let pageN := toUInt32 (pageN - m)
    let s ← s.store (slabOf s.pages) pageN
    pure { s with last := s.pages + pageSize * pageN, pfree := pageN }
  else pure { s with last := s.pages + pageSize * pageN, pfree := pageN }

def slabInit (g : Geometry) (s : Pool) : Exec Pool := do
  let s := { s with minSize := 1 <<< s.minShift }
  let n := g.pagesizeShift - s.minShift
  let s ← initSlots n s.getSlots s
  let p := s.getSlots + n * pageSize
  let size := s.endAddr - p
  let pageN := toUInt32 ((size / (g.pagesize + pageSize) : ℕ) : ℤ)
  let s := { s with pages := p }
  let s ← initFreeList s pageN
  alignPages g s pageN

/-- Where the system placed the mapping of a pool, and what it contained. -/
structure Mapping (P : PageSize) where
  base : ℕ
  content : ℕ → ℕ
  base_pos : 0 < base
  base_aligned : P.bytes ∣ base

/-- `hcore_max(size, HCORE_SLAB_MIN_SIZE(pagesize))`. -/
def shpoolSize (g : Geometry) (size : ℕ) : ℕ :=
  if size < g.pagesize <<< 3 then g.pagesize <<< 3 else size

/-- `hcore_create_shpool` from the successful mapping on. -/
def createShpool (P : PageSize) (M : Mapping P) (size : ℕ) : Exec Pool :=
  let size := shpoolSize P.geometry size
  slabInit P.geometry
    { mem := ⟨M.base, M.base + size, M.content⟩
      minShift := 3
      minSize := 0
      pages := 0
      last := 0
      pfree := 0
      addr := M.base
      start := 0
      endAddr := M.base + size }

/-- Pages of 4096 bytes, and a mapping that the system has cleared. -/
def smallPages : PageSize := ⟨12, by omega, by omega⟩

def clearMapping : Mapping smallPages := ⟨65536, fun _ => 0, by omega, Dvd.intro 16 rfl⟩

end HCore.SlabPool
