import HCore.SlabPages

/-!
Allocation and freeing in the slab pool. Requests above half a page take
whole pages; the others go to a size class, kept by power of two: small
chunks with the map in the page, exact chunks with the map in the descriptor
word, big chunks with the map in its upper half.
-/

namespace HCore.SlabAlloc

open Words Machine Base SlabPool SlabPages

/-- `for (m = 1, bit_n = 0; m; m <<= 1, bit_n++)` up to the first clear bit. -/
def firstClear : ℕ → ℕ → ℕ → ℕ → Option (ℕ × ℕ)
  | 0, _, _, _ => none
  | fuel + 1, w, m, bitN =>
    if m = 0 then none
    else if w &&& m ≠ 0 then firstClear fuel w ((m <<< 1) % 2 ^ 64) (bitN + 1)
    else some (m, bitN)

/-- Whether the maps from `bitmap + 8 * i` on are all busy. -/
def allBusy : ℕ → ℕ → ℕ → Pool → Exec Bool
  | 0, _, _, _ => pure true
  | n + 1, bitmap, i, s => do
    let w ← s.load (bitmap + 8 * i)
    if w ≠ slabBusy then pure false else allBusy n bitmap (i + 1) s

/-- The scan of a partly used page of small chunks, over the remaining `n`
maps. The offset is computed from the map index alone. -/
def scanSmall : ℕ → ℕ → ℕ → ℕ → ℕ → ℕ → Pool → Exec (Option (ℕ × Pool))
  | 0, _, _, _, _, _, _ => pure none
  | n + 1, page, bitmap, shift, mapN, i, s => do
    let w ← s.load (bitmap + 8 * i)
    match (if w ≠ slabBusy then firstClear 65 w 1 0 else none) with
    | none => scanSmall n page bitmap shift mapN (i + 1) s
    | some (m, _) => do
      let s ← s.store (bitmap + 8 * i) (w ||| m)
      let size := (i * 8 * 8 + i) <<< shift
      let p := bitmap + size
      if w ||| m = slabBusy then do
        let full ← allBusy (mapN - (i + 1)) bitmap (i + 1) s
        let s ← if full then s.removeFullPage page slabSmall else pure s
        pure (some (p, s))
      else pure (some (p, s))

/-- The scan of a partly used page of exact chunks. The step `m << 1` leaves
`m` as it is, and the result `p` is never assigned. -/
def scanExact : ℕ → ℕ → Pool → Exec (ℕ × Pool)
  | 0, _, _ => outOfFuel
  | fuel + 1, page, s => do
    let slab ← s.load (slabOf page)
    if slab &&& 1 ≠ 0 then scanExact fuel page s
    else do
      let s ← s.store (slabOf page) (slab ||| 1)
      let _ ← if slab ||| 1 = slabBusy then s.removeFullPage page slabExact else pure s
      undefined

/-- `for (m = 1 << 32; m & mask; m <<= 1)` up to the first clear bit. -/
def firstClearBig : ℕ → ℕ → ℕ → ℕ → Option ℕ
  | 0, _, _, _ => none
  | fuel + 1, w, mask, m =>
    if m &&& mask = 0 then none
    else if w &&& m ≠ 0 then firstClearBig fuel w mask ((m <<< 1) % 2 ^ 64)
    else some m

/-- The scan of a partly used page of big chunks. The comparison binds
tighter than the mask, and the address is that of the page. -/
def scanBig (g : Geometry) (s : Pool) (page shift : ℕ) : Exec (Option (ℕ × Pool)) := do
  let mask ← shiftLeft64 1 (g.pagesize >>> shift)
  let mask ← shiftLeft64 (mask - 1) slabMapShift
  let w ← s.load (slabOf page)
  match firstClearBig 64 w mask (1 <<< slabMapShift) with
  | none => pure none
  | some m => do
    let s ← s.store (slabOf page) (w ||| m)
    let s ← if (w ||| m) &&& (if slabMapMask = mask then 1 else 0) ≠ 0 then
        s.removeFullPage page slabBig
      else pure s
    let p ← s.getPageAddr page g.pagesizeShift
    pure (some (p, s))

/-- `bitmap[i] = v` for the `n` maps from `i` on. -/
def fillMaps : ℕ → ℕ → ℕ → ℕ → Pool → Exec Pool
  | 0, _, _, _, s => pure s
  | n + 1, bitmap, i, v, s => do
    let s ← s.store (bitmap + 8 * i) v
    fillMaps n bitmap (i + 1) v s

/-- The chunks of a small page that its own bitmap takes. -/
def bitmapChunks (g : Geometry) (shift : ℕ) : ℕ :=
  let n := (g.pagesize >>> shift) / ((1 <<< shift) * 8)
  if n = 0 then 1 else n

/-- A new page of a class becomes the only page of its slot list. -/
def linkNewPage (s : Pool) (page slot slab type : ℕ) : Exec Pool := do
  let s ← s.store (slabOf page) slab
  let s ← s.store (nextOf page) (s.slot slot)
  let s ← s.setPagePrev page (s.slot slot) type
  s.store (nextOf (s.slot slot)) page

/-- The first chunk of a new page of small chunks. -/
def newSmall (g : Geometry) (s : Pool) (page shift slot : ℕ) : Exec (ℕ × Pool) := do
  let bitmap ← s.getPageAddr page g.pagesizeShift
  let n := bitmapChunks g shift
  let i := (n + 1) / (8 * 8)
  let s ← fillMaps i bitmap 0 slabBusy s
  let s ← s.store (bitmap + 8 * i) (1 <<< ((n + 1) % (8 * 8)) - 1)
  let mapN := (g.pagesize >>> shift) / (8 * 8)
  let s ← fillMaps (mapN - (i + 1)) bitmap (i + 1) 0 s
  let s ← linkNewPage s page slot shift slabSmall
  let p ← s.getPageAddr page g.pagesizeShift
  pure (p + (n <<< shift), s)

def newExact (g : Geometry) (s : Pool) (page slot : ℕ) : Exec (ℕ × Pool) := do
  let s ← linkNewPage s page slot 1 slabExact
  let p ← s.getPageAddr page g.pagesizeShift
  pure (p, s)

def newBig (g : Geometry) (s : Pool) (page shift slot : ℕ) : Exec (ℕ × Pool) := do
  let s ← linkNewPage s page slot ((1 <<< slabMapShift) ||| shift) slabBig
  let p ← s.getPageAddr page g.pagesizeShift
  pure (p, s)

/-- The page count of a request above half a page, as a 32-bit argument. -/
def requestPages (g : Geometry) (size : ℕ) : ℕ :=
  toUInt32 (((size >>> g.pagesizeShift) + (if size % g.pagesize ≠ 0 then 1 else 0) : ℕ) : ℤ)

/-- The shift of the chunks that serve a request of at most half a page. -/
def classShift (s : Pool) (size : ℕ) : ℕ :=
  if s.minSize < size then 1 + halvings 64 (size - 1) else s.minShift

/-- A chunk of the class, from the first page of its slot list. -/
def scanClass (g : Geometry) (fuel : ℕ) (s : Pool) (page shift : ℕ) :
    Exec (Option (ℕ × Pool)) :=
  if shift < g.slabExactShift then do
    let bitmap ← s.getPageAddr page g.pagesizeShift
    let mapN := (g.pagesize >>> shift) / (8 * 8)
    scanSmall mapN page bitmap shift mapN 0 s
  else if shift = g.slabExactShift then do
    let r ← scanExact fuel page s
    pure (some r)
  else scanBig g s page shift

/-- A chunk of the class, from a new page. -/
def newClass (g : Geometry) (fuel : ℕ) (s : Pool) (shift slot : ℕ) : Exec (ℕ × Pool) := do
  let (page, s) ← slabAllocPages fuel s 1
  if page ≠ 0 then
    if shift < g.slabExactShift then newSmall g s page shift slot
    else if shift = g.slabExactShift then newExact g s page slot
    else newBig g s page shift slot
  else pure (0, s)

def slabAllocLocked (g : Geometry) (fuel : ℕ) (s : Pool) (size : ℕ) : Exec (ℕ × Pool) :=
  if g.slabMaxSize < size then do
    let (page, s) ← slabAllocPages fuel s (requestPages g size)
    if page ≠ 0 then do
      let p ← s.getPageAddr page g.pagesizeShift
      pure (p, s)
    else pure (0, s)
  else do
    let shift := classShift s size
    let slot := shift - s.minShift
    let page ← s.load (nextOf (s.slot slot))
    let next ← s.load (nextOf page)
    let found ← if next ≠ page then scanClass g fuel s page shift else pure none
    match found with
    | some r => pure r
    | none => newClass g fuel s shift slot

/-- A full page of a class goes back to the head of its slot list. -/
def relinkPage (s : Pool) (page slot type : ℕ) : Exec Pool := do
  let first ← s.load (nextOf (s.slot slot))
  let s ← s.store (nextOf page) first
  let s ← s.store (nextOf (s.slot slot)) page
  let s ← s.setPagePrev page (s.slot slot) type
  let next ← s.load (nextOf page)
  s.setPagePrev next page type

/-- Whether one of the maps from `bitmap + 8 * i` on is not zero. -/
def anyUsed : ℕ → ℕ → ℕ → Pool → Exec Bool
  | 0, _, _, _ => pure false
  | n + 1, bitmap, i, s => do
    let w ← s.load (bitmap + 8 * i)
    if w ≠ 0 then pure true else anyUsed n bitmap (i + 1) s

def freeSmall (g : Geometry) (s : Pool) (page p : ℕ) : Exec Pool := do
  let slab ← s.load (slabOf page)
  let shift := slab &&& slabShiftMask
  if p &&& (1 <<< shift - 1) ≠ 0 then pure s
  else do
    let chunk := (p &&& (g.pagesize - 1)) >>> shift
    let m := 1 <<< (chunk % (8 * 8))
    let i := chunk / (8 * 8)
    let bitmap := andNot p (g.pagesize - 1)
    let w ← s.load (bitmap + 8 * i)
    if w &&& m ≠ 0 then do
      let next ← s.load (nextOf page)
      let s ← if next = 0 then relinkPage s page (shift - s.minShift) slabSmall else pure s
      let s ← s.store (bitmap + 8 * i) (andNot w m)
      let n := bitmapChunks g shift
      let i := n / (8 * 8)
      let m := 1 <<< (n % (8 * 8)) - 1
      let w ← s.load (bitmap + 8 * i)
      if andNot w m ≠ 0 then pure s
      else do
        let mapN := (g.pagesize >>> shift) / (8 * 8)
        let used ← anyUsed (mapN - (i + 1)) bitmap (i + 1) s
        if used then pure s else slabFreePages s page 1
    else pure s

def freeExact (g : Geometry) (s : Pool) (page p : ℕ) : Exec Pool := do
  let slab ← s.load (slabOf page)
  let m ← shiftLeft64 1 ((p &&& (g.pagesize - 1)) >>> g.slabExactShift)
  if p &&& (g.slabExactSize - 1) ≠ 0 then pure s
  else if slab &&& m ≠ 0 then do
    let s ← if slab = slabBusy then relinkPage s page (g.slabExactShift - s.minShift) slabExact
      else pure s
    let s ← s.store (slabOf page) (andNot slab m)
    if andNot slab m ≠ 0 then pure s else slabFreePages s page 1
  else pure s

def freeBig (g : Geometry) (s : Pool) (page p : ℕ) : Exec Pool := do
  let slab ← s.load (slabOf page)
  let shift := slab &&& slabShiftMask
  if p &&& (1 <<< shift - 1) ≠ 0 then pure s
  else do
    let m ← shiftLeft64 1 (((p &&& (g.pagesize - 1)) >>> shift) + slabMapShift)
    if slab &&& m ≠ 0 then do
      let next ← s.load (nextOf page)
      let s ← if next = 0 then relinkPage s page (shift - s.minShift) slabBig else pure s
      let s ← s.store (slabOf page) (andNot slab m)
      if (andNot slab m) &&& slabMapMask ≠ 0 then pure s else slabFreePages s page 1
    else pure s

def freeRun (g : Geometry) (s : Pool) (page p : ℕ) : Exec Pool := do
  let slab ← s.load (slabOf page)
  if p &&& (g.pagesize - 1) ≠ 0 then pure s
  else if slab &&& slabPageStart = 0 then pure s
  else if slab = slabPageBusy then pure s
  else slabFreePages s page (toInt32 (andNot slab slabPageStart))

/-- The page index of `p` is a shift by the page size, not by its exponent. -/
def slabFreeLocked (g : Geometry) (s : Pool) (p : ℕ) : Exec Pool :=
  if p < s.start ∨ s.endAddr < p then pure s
  else do
    let i ← shiftRight64 (p - s.start) g.pagesize
    let page := s.page (toUInt32 i)
    let type ← s.getPageType page
    if type = slabSmall then freeSmall g s page p
    else if type = slabExact then freeExact g s page p
    else if type = slabBig then freeBig g s page p
    else freeRun g s page p

end HCore.SlabAlloc
