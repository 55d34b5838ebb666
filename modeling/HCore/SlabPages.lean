import HCore.SlabPool

/-!
Whole pages of the slab pool: first-fit allocation from the free list, and
freeing with its attempt to join the freed run with its neighbours.
-/

namespace HCore.SlabPages

open Words Machine SlabPool

/-- The descriptors after the head of an allocated run. The type of the head
is set again on every turn; the interior's own `prev` is left as it was. -/
def markBusy : ℕ → ℕ → ℕ → Pool → Exec Pool
  | 0, _, _, s => pure s
  | n + 1, page, p, s => do
    let s ← s.store (slabOf p) slabPageBusy
    let s ← s.store (nextOf p) 0
    let s ← s.setPagePrev page 0 slabPage
    markBusy n page (p + pageSize) s

/-- Take the first `n` pages of the run headed by `page`; the rest of the run
replaces it in the free list. -/
def takePages (s : Pool) (page n : ℕ) : Exec (ℕ × Pool) := do
  let slab ← s.load (slabOf page)
  let s ← if n < slab then do
      let rest := page + pageSize * n
      let s ← s.store (prevOf (page + pageSize * (slab - 1))) rest
      let slab ← s.load (slabOf page)
      let s ← s.store (slabOf rest) (slab - n)
      let next ← s.load (nextOf page)
      let s ← s.store (nextOf rest) next
      let prev ← s.load (prevOf page)
      let s ← s.store (prevOf rest) prev
      let p ← s.load (prevOf page)
      let s ← s.store (nextOf p) rest
      let next ← s.load (nextOf page)
      s.store (prevOf next) rest
    else do
      let p ← s.load (prevOf page)
      let next ← s.load (nextOf page)
      let s ← s.store (nextOf p) next
      let next ← s.load (nextOf page)
      let prev ← s.load (prevOf page)
      s.store (prevOf next) prev
  let s ← s.store (slabOf page) (n ||| slabPageStart)
  let s ← s.store (nextOf page) 0
  let s ← s.setPagePrev page 0 slabPage
  let s := { s with pfree := toUInt32 ((s.pfree : ℤ) - n) }
  let s ← markBusy (toUInt32 ((n : ℤ) - 1)) page (page + pageSize) s
  pure (page, s)

/-- The walk along the free list; it returns NULL at the header. -/
def allocPagesFrom : ℕ → Pool → ℕ → ℕ → Exec (ℕ × Pool)
  | 0, _, _, _ => outOfFuel
  | fuel + 1, s, page, n =>
    if page = s.free then pure (0, s)
    else do
      let slab ← s.load (slabOf page)
      if n ≤ slab then takePages s page n
      else do
        let next ← s.load (nextOf page)
        allocPagesFrom fuel s next n

def slabAllocPages (fuel : ℕ) (s : Pool) (n : ℕ) : Exec (ℕ × Pool) := do
  let page ← s.load (nextOf s.free)
  allocPagesFrom fuel s page n

/-- Unlink a descriptor through its neighbours. -/
def unlinkPage (s : Pool) (page : ℕ) : Exec Pool := do
  let prev ← s.getPagePrev page
  let next ← s.load (nextOf page)
  let s ← s.store (nextOf prev) next
  let next ← s.load (nextOf page)
  let prev ← s.load (prevOf page)
  s.store (prevOf next) prev

/-- The join with the run to the right. The joined head leaves the list, and
the source then clears the length of the freed run, not of the joined one. -/
def joinNext (s : Pool) (page : ℕ) (pageN : ℤ) : Exec (ℤ × Pool) := do
  let slab ← s.load (slabOf page)
  let join := page + pageSize * slab
  if join < s.last then do
    let type ← s.getPageType join
    let next ← s.load (nextOf join)
    if type = slabPage ∧ next ≠ 0 then do
      let joined ← s.load (slabOf join)
      let pageN := toInt32 (pageN + joined)
      let s ← s.store (slabOf page) (toUInt64 (slab + joined))
      let s ← unlinkPage s join
      let s ← s.removeFullPage join slabPage
      let s ← s.store (slabOf page) slabPageFree
      pure (pageN, s)
    else pure (pageN, s)
  else pure (pageN, s)

/-- The join with the run to the left; here too the head of the joined run
loses its length. -/
def joinPrev (s : Pool) (page : ℕ) (pageN : ℤ) : Exec (ℕ × ℤ × Pool) :=
  if s.pages < page then do
    let join := page - pageSize
    let type ← s.getPageType join
    if type = slabPage then do
      let slab ← s.load (slabOf join)
      let join ← if slab = slabPageFree then s.getPagePrev join else pure join
      let next ← s.load (nextOf join)
      if next ≠ 0 then do
        let joined ← s.load (slabOf join)
        let pageN := toInt32 (pageN + joined)
        let slab ← s.load (slabOf page)
        let s ← s.store (slabOf join) (toUInt64 (joined + slab))
        let s ← s.removeFullPage join slabPage
        let s ← s.store (slabOf join) slabPageFree
        pure (join, pageN, s)
      else pure (page, pageN, s)
    else pure (page, pageN, s)
  else pure (page, pageN, s)

/-- `page[n]` for a signed index. -/
def pageAt (page : ℕ) (n : ℤ) : ℕ := (page + pageSize * n).toNat

def slabFreePages (s : Pool) (page : ℕ) (pageN : ℤ) : Exec Pool := do
  let s := { s with pfree := toUInt32 (s.pfree + pageN) }
  let s ← s.store (slabOf page) (toUInt64 pageN)
  let pageN := pageN - 1
  let s ← if pageN ≠ 0 then s.memzero (page + pageSize) (toUInt64 (pageN * pageSize)) else pure s
  let next ← s.load (nextOf page)
  let s ← if next ≠ 0 then unlinkPage s page else pure s
  let (pageN, s) ← joinNext s page pageN
  let (page, pageN, s) ← joinPrev s page pageN
  let s ← if pageN ≠ 0 then s.store (prevOf (pageAt page pageN)) page else pure s
  let s ← s.store (prevOf page) s.free
  let next ← s.load (nextOf s.free)
  let s ← s.store (nextOf page) next
  let next ← s.load (nextOf page)
  let s ← s.store (prevOf next) page
  s.store (nextOf s.free) page

end HCore.SlabPages
