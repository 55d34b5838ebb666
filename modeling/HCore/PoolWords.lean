import HCore.PoolPlaces

/-!
What the memory of a pool with one block says: the fields of its header, the
records of large blocks from `large` on, and those of the cleanup handlers from
`cleanup` on, the one that was added last first. Memory that keeps these bytes
says the same, and each store of the pool changes one thing in it.
-/

namespace HCore.PoolModel

open Machine LittleEndian CHeap

/-- `hcore_pool_cleanup_t` -/
structure Cleanup where
  addr : ℕ
  handler : ℕ
  data : ℕ
  deriving DecidableEq, Repr

def Cleanup.range (c : Cleanup) : Range := ⟨c.addr, cleanupSize⟩

/-- Another handler in the record at `a`. -/
def Cleanup.setAt (a handler data : ℕ) (c : Cleanup) : Cleanup :=
  if c.addr = a then ⟨a, handler, data⟩ else c

structure Words (mem : ℕ → UInt8) (b : Block) (last max : ℕ) (records : List Record)
    (cleanups : List Cleanup) : Prop where
  last : wordAt mem (b.addr + lastOffset) = last
  bound : wordAt mem (b.addr + endOffset) = b.addr + b.size
  next : wordAt mem (b.addr + nextOffset) = 0
  max : wordAt mem (b.addr + maxOffset) = max
  current : wordAt mem (b.addr + currentOffset) = b.addr
  customed : wordAt mem (b.addr + customedOffset) % 2 = 0
  large : Chained mem 0 (wordAt mem (b.addr + largeOffset)) (records.map Record.addr)
  alloc : ∀ r ∈ records, wordAt mem (r.addr + 8) = r.alloc
  cleanup : Chained mem 16 (wordAt mem (b.addr + cleanupOffset)) (cleanups.map Cleanup.addr)
  set : ∀ c ∈ cleanups, wordAt mem c.addr = c.handler ∧ wordAt mem (c.addr + 8) = c.data

/-- The bytes of a range are the same. -/
def Range.Kept (mem mem' : ℕ → UInt8) (x : Range) : Prop := Keeps mem mem' x.addr x.size

theorem Range.Apart.kept {mem : ℕ → UInt8} {x : Range} {a : ℕ} {bytes : List UInt8}
    (h : x.Apart ⟨a, bytes.length⟩) : x.Kept mem (writeAt mem a bytes) := by
  exact Keeps.of_writeAt h

section

variable {mem mem' : ℕ → UInt8} {r : Record} {c : Cleanup}

theorem Record.next_kept (h : r.range.Kept mem mem') : wordAt mem' r.addr = wordAt mem r.addr :=
  Keeps.word h (by decide : 0 + 8 ≤ largeSize)

theorem Record.alloc_kept (h : r.range.Kept mem mem') :
    wordAt mem' (r.addr + 8) = wordAt mem (r.addr + 8) :=
  Keeps.word h (by decide : 8 + 8 ≤ largeSize)

theorem Cleanup.handler_kept (h : c.range.Kept mem mem') : wordAt mem' c.addr = wordAt mem c.addr :=
  Keeps.word h (by decide : 0 + 8 ≤ cleanupSize)

theorem Cleanup.data_kept (h : c.range.Kept mem mem') :
    wordAt mem' (c.addr + 8) = wordAt mem (c.addr + 8) :=
  Keeps.word h (by decide : 8 + 8 ≤ cleanupSize)

theorem Cleanup.next_kept (h : c.range.Kept mem mem') :
    wordAt mem' (c.addr + 16) = wordAt mem (c.addr + 16) :=
  Keeps.word h (by decide : 16 + 8 ≤ cleanupSize)

theorem Cleanup.setAt_addr {a handler data : ℕ} : (c.setAt a handler data).addr = c.addr := by
  unfold setAt
  split
  · next heq => exact heq.symm
  · rfl

theorem Cleanup.map_setAt (cleanups : List Cleanup) (a handler data : ℕ) :
    (cleanups.map (setAt a handler data)).map addr = cleanups.map addr := by
  rw [List.map_map]
  exact List.map_congr_left fun _ _ => setAt_addr

theorem Cleanup.map_setAt_range (cleanups : List Cleanup) (a handler data : ℕ) :
    (cleanups.map (setAt a handler data)).map range = cleanups.map range := by
  rw [List.map_map]
  refine List.map_congr_left fun c _ => ?_
  unfold range
  rw [Function.comp_apply, setAt_addr]

end

/-- Another word of the header. -/
theorem wordAt_header {mem : ℕ → UInt8} {p k j v : ℕ} (h : j + 8 ≤ k ∨ k + 8 ≤ j) :
    wordAt (writeAt mem (p + k) (encode64 v)) (p + j) = wordAt mem (p + j) := by
  apply wordAt_other
  rw [encode64_length]
  omega

namespace Words

variable {mem mem' : ℕ → UInt8} {b : Block} {last max a v : ℕ} {records pre post : List Record}
  {cleanups : List Cleanup}

theorem chained_records {head : ℕ} (h : Chained mem 0 head (records.map Record.addr))
    (hrecords : ∀ r ∈ records, r.range.Kept mem mem') :
    Chained mem' 0 head (records.map Record.addr) := by
  apply h.congr
  intro a ha
  obtain ⟨r, hr, rfl⟩ := List.mem_map.mp ha
  exact Record.next_kept (hrecords r hr)

theorem chained_cleanups {head : ℕ} (h : Chained mem 16 head (cleanups.map Cleanup.addr))
    (hcleanups : ∀ c ∈ cleanups, c.range.Kept mem mem') :
    Chained mem' 16 head (cleanups.map Cleanup.addr) := by
  apply h.congr
  intro a ha
  obtain ⟨c, hc, rfl⟩ := List.mem_map.mp ha
  exact Cleanup.next_kept (hcleanups c hc)

theorem alloc_kept (w : Words mem b last max records cleanups)
    (hrecords : ∀ r ∈ records, r.range.Kept mem mem') :
    ∀ r ∈ records, wordAt mem' (r.addr + 8) = r.alloc := by
  intro r hr
  exact (Record.alloc_kept (hrecords r hr)).trans (w.alloc r hr)

theorem set_kept (w : Words mem b last max records cleanups)
    (hcleanups : ∀ c ∈ cleanups, c.range.Kept mem mem') :
    ∀ c ∈ cleanups, wordAt mem' c.addr = c.handler ∧ wordAt mem' (c.addr + 8) = c.data := by
  intro c hc
  obtain ⟨hhandler, hdata⟩ := w.set c hc
  exact ⟨(Cleanup.handler_kept (hcleanups c hc)).trans hhandler,
    (Cleanup.data_kept (hcleanups c hc)).trans hdata⟩

theorem congr (w : Words mem b last max records cleanups)
    (hheader : Keeps mem mem' b.addr poolSize)
    (hrecords : ∀ r ∈ records, r.range.Kept mem mem')
    (hcleanups : ∀ c ∈ cleanups, c.range.Kept mem mem') :
    Words mem' b last max records cleanups where
  last := (hheader.word (by decide)).trans w.last
  bound := (hheader.word (by decide)).trans w.bound
  next := (hheader.word (by decide)).trans w.next
  max := (hheader.word (by decide)).trans w.max
  current := (hheader.word (by decide)).trans w.current
  customed := by
    rw [hheader.word (by decide)]
    exact w.customed
  large := by
    rw [hheader.word (by decide)]
    exact chained_records w.large hrecords
  alloc := w.alloc_kept hrecords
  cleanup := by
    rw [hheader.word (by decide)]
    exact chained_cleanups w.cleanup hcleanups
  set := w.set_kept hcleanups

/-- A store to a word of the header changes nothing behind it. -/
theorem kept_of_header {x : Range} (hx : x.Apart ⟨b.addr, poolSize⟩) {k : ℕ}
    (hk : k + 8 ≤ poolSize) : x.Kept mem (writeAt mem (b.addr + k) (encode64 v)) := by
  apply Range.Apart.kept
  refine (hx.symm.mono ?_ ?_).symm
  · exact Nat.le_add_right _ _
  · rw [encode64_length]
    dsimp only
    omega

section

variable (w : Words mem b last max records cleanups)
  (hrecords : ∀ r ∈ records, r.range.Apart ⟨b.addr, poolSize⟩)
  (hcleanups : ∀ c ∈ cleanups, c.range.Apart ⟨b.addr, poolSize⟩)

include w hrecords hcleanups

theorem setLast (hv : v < 2 ^ 64) :
    Words (writeAt mem (b.addr + lastOffset) (encode64 v)) b v max records cleanups where
  last := wordAt_same hv
  bound := (wordAt_header (by decide)).trans w.bound
  next := (wordAt_header (by decide)).trans w.next
  max := (wordAt_header (by decide)).trans w.max
  current := (wordAt_header (by decide)).trans w.current
  customed := by
    rw [wordAt_header (by decide)]
    exact w.customed
  large := by
    rw [wordAt_header (by decide)]
    exact chained_records w.large fun r hr => kept_of_header (hrecords r hr) (by decide)
  alloc := w.alloc_kept fun r hr => kept_of_header (hrecords r hr) (by decide)
  cleanup := by
    rw [wordAt_header (by decide)]
    exact chained_cleanups w.cleanup fun c hc => kept_of_header (hcleanups c hc) (by decide)
  set := w.set_kept fun c hc => kept_of_header (hcleanups c hc) (by decide)

/-- A record that links to the first one becomes the first. -/
theorem pushRecord {r : Record} (hr : r.range.Apart ⟨b.addr, poolSize⟩) (hpos : r.addr ≠ 0)
    (hlt : r.addr < 2 ^ 64) (hnext : wordAt mem r.addr = wordAt mem (b.addr + largeOffset))
    (halloc : wordAt mem (r.addr + 8) = r.alloc) :
    Words (writeAt mem (b.addr + largeOffset) (encode64 r.addr)) b last max (r :: records)
      cleanups := by
  have hall : ∀ t ∈ r :: records, t.range.Kept mem
      (writeAt mem (b.addr + largeOffset) (encode64 r.addr)) :=
    List.forall_mem_cons.mpr ⟨kept_of_header hr (by decide),
      fun t ht => kept_of_header (hrecords t ht) (by decide)⟩
  refine {
    last := (wordAt_header (by decide)).trans w.last
    bound := (wordAt_header (by decide)).trans w.bound
    next := (wordAt_header (by decide)).trans w.next
    max := (wordAt_header (by decide)).trans w.max
    current := (wordAt_header (by decide)).trans w.current
    customed := ?_
    large := ?_
    alloc := ?_
    cleanup := ?_
    set := w.set_kept fun c hc => kept_of_header (hcleanups c hc) (by decide) }
  · rw [wordAt_header (by decide)]
    exact w.customed
  · rw [wordAt_same hlt]
    exact chained_records (w.large.push hpos hnext) hall
  · refine List.forall_mem_cons.mpr
      ⟨?_, w.alloc_kept fun t ht => hall t (List.mem_cons_of_mem _ ht)⟩
    exact (Record.alloc_kept (hall r List.mem_cons_self)).trans halloc
  · rw [wordAt_header (by decide)]
    exact chained_cleanups w.cleanup fun c hc => kept_of_header (hcleanups c hc) (by decide)

/-- The same for a record of a cleanup handler. -/
theorem pushCleanup {c : Cleanup} (hc : c.range.Apart ⟨b.addr, poolSize⟩) (hpos : c.addr ≠ 0)
    (hlt : c.addr < 2 ^ 64) (hhandler : wordAt mem c.addr = c.handler)
    (hdata : wordAt mem (c.addr + 8) = c.data)
    (hnext : wordAt mem (c.addr + 16) = wordAt mem (b.addr + cleanupOffset)) :
    Words (writeAt mem (b.addr + cleanupOffset) (encode64 c.addr)) b last max records
      (c :: cleanups) := by
  have hkept : c.range.Kept mem (writeAt mem (b.addr + cleanupOffset) (encode64 c.addr)) :=
    kept_of_header hc (by decide)
  have hall : ∀ t ∈ c :: cleanups, t.range.Kept mem
      (writeAt mem (b.addr + cleanupOffset) (encode64 c.addr)) :=
    List.forall_mem_cons.mpr ⟨hkept, fun t ht => kept_of_header (hcleanups t ht) (by decide)⟩
  refine {
    last := (wordAt_header (by decide)).trans w.last
    bound := (wordAt_header (by decide)).trans w.bound
    next := (wordAt_header (by decide)).trans w.next
    max := (wordAt_header (by decide)).trans w.max
    current := (wordAt_header (by decide)).trans w.current
    customed := ?_
    large := ?_
    alloc := w.alloc_kept fun r hr => kept_of_header (hrecords r hr) (by decide)
    cleanup := ?_
    set := ?_ }
  · rw [wordAt_header (by decide)]
    exact w.customed
  · rw [wordAt_header (by decide)]
    exact chained_records w.large fun r hr => kept_of_header (hrecords r hr) (by decide)
  · rw [wordAt_same hlt]
    exact chained_cleanups (w.cleanup.push hpos hnext) hall
  · refine List.forall_mem_cons.mpr ⟨?_, w.set_kept fun t ht => hall t (List.mem_cons_of_mem _ ht)⟩
    exact ⟨(Cleanup.handler_kept hkept).trans hhandler, (Cleanup.data_kept hkept).trans hdata⟩

end

/-- Another block in a record. -/
theorem setAlloc {blk blk' : Option Block}
    (w : Words mem b last max (pre ++ ⟨a, blk⟩ :: post) cleanups)
    (hapart : (pre ++ (⟨a, blk⟩ : Record) :: post).Pairwise fun r t => r.range.Apart t.range)
    (hheader : (⟨a, largeSize⟩ : Range).Apart ⟨b.addr, poolSize⟩)
    (hcleanups : ∀ c ∈ cleanups, c.range.Apart ⟨a, largeSize⟩)
    (hv : (Record.alloc ⟨a, blk'⟩) < 2 ^ 64) :
    Words (writeAt mem (a + 8) (encode64 (Record.alloc ⟨a, blk'⟩))) b last max
      (pre ++ ⟨a, blk'⟩ :: post) cleanups := by
  set mem' := writeAt mem (a + 8) (encode64 (Record.alloc ⟨a, blk'⟩)) with hmem'
  have hkept : ∀ {x : Range}, x.Apart ⟨a, largeSize⟩ → x.Kept mem mem' := by
    intro x hx
    refine Range.Apart.kept (hx.symm.mono ?_ ?_).symm
    · exact Nat.le_add_right _ _
    · exact le_refl (a + 16)
  have hrest : Keeps mem mem' b.addr poolSize := hkept hheader.symm
  obtain ⟨-, hpost, hpre⟩ := List.pairwise_append.mp hapart
  obtain ⟨hpost, -⟩ := List.pairwise_cons.mp hpost
  have hothers : ∀ r ∈ pre ++ post, r.range.Kept mem mem' := by
    intro r hr
    rcases List.mem_append.mp hr with hr | hr
    · exact hkept (hpre r hr _ List.mem_cons_self)
    · exact hkept (hpost r hr).symm
  have hmap : ∀ blk : Option Block, (pre ++ (⟨a, blk⟩ : Record) :: post).map Record.addr =
      pre.map Record.addr ++ a :: post.map Record.addr := by
    intro blk
    rw [List.map_append, List.map_cons]
  refine {
    last := (hrest.word (by decide)).trans w.last
    bound := (hrest.word (by decide)).trans w.bound
    next := (hrest.word (by decide)).trans w.next
    max := (hrest.word (by decide)).trans w.max
    current := (hrest.word (by decide)).trans w.current
    customed := ?_
    large := ?_
    alloc := ?_
    cleanup := ?_
    set := w.set_kept fun c hc => hkept (hcleanups c hc) }
  · rw [hrest.word (by decide)]
    exact w.customed
  · rw [hrest.word (by decide), hmap, ← hmap blk]
    refine w.large.congr ?_
    intro d hd
    obtain ⟨r, hr, rfl⟩ := List.mem_map.mp hd
    rcases List.mem_append.mp hr with hr | hr
    · exact Record.next_kept (hothers r (List.mem_append_left _ hr))
    · rcases List.mem_cons.mp hr with rfl | hr
      · exact wordAt_header (Or.inl (by decide))
      · exact Record.next_kept (hothers r (List.mem_append_right _ hr))
  · have hsame : ∀ r ∈ pre ++ post, r ∈ pre ++ (⟨a, blk⟩ : Record) :: post →
        wordAt mem' (r.addr + 8) = r.alloc := fun r hr hr' =>
      (Record.alloc_kept (hothers r hr)).trans (w.alloc r hr')
    intro r hr
    rcases List.mem_append.mp hr with hr | hr
    · exact hsame r (List.mem_append_left _ hr) (List.mem_append_left _ hr)
    · rcases List.mem_cons.mp hr with rfl | hr
      · exact wordAt_same hv
      · exact hsame r (List.mem_append_right _ hr)
          (List.mem_append_right _ (List.mem_cons_of_mem _ hr))
  · rw [hrest.word (by decide)]
    exact chained_cleanups w.cleanup fun c hc => hkept (hcleanups c hc)

/-- Another handler in a record. -/
theorem setCleanup {a handler data : ℕ} (w : Words mem b last max records cleanups)
    (hheader : Keeps mem mem' b.addr poolSize)
    (hrecords : ∀ r ∈ records, r.range.Kept mem mem')
    (hothers : ∀ c ∈ cleanups, c.addr ≠ a → c.range.Kept mem mem')
    (hhandler : wordAt mem' a = handler) (hdata : wordAt mem' (a + 8) = data)
    (hnext : wordAt mem' (a + 16) = wordAt mem (a + 16)) :
    Words mem' b last max records (cleanups.map (Cleanup.setAt a handler data)) where
  last := (hheader.word (by decide)).trans w.last
  bound := (hheader.word (by decide)).trans w.bound
  next := (hheader.word (by decide)).trans w.next
  max := (hheader.word (by decide)).trans w.max
  current := (hheader.word (by decide)).trans w.current
  customed := by
    rw [hheader.word (by decide)]
    exact w.customed
  large := by
    rw [hheader.word (by decide)]
    exact chained_records w.large hrecords
  alloc := w.alloc_kept hrecords
  cleanup := by
    rw [hheader.word (by decide), Cleanup.map_setAt]
    refine w.cleanup.congr fun d hd => ?_
    obtain ⟨c, hc, rfl⟩ := List.mem_map.mp hd
    by_cases heq : c.addr = a
    · rw [heq]
      exact hnext
    · exact Cleanup.next_kept (hothers c hc heq)
  set := by
    intro k hk
    obtain ⟨c, hc, rfl⟩ := List.mem_map.mp hk
    unfold Cleanup.setAt
    split
    · exact ⟨hhandler, hdata⟩
    · next hne =>
      obtain ⟨hhandler, hdata⟩ := w.set c hc
      exact ⟨(Cleanup.handler_kept (hothers c hc hne)).trans hhandler,
        (Cleanup.data_kept (hothers c hc hne)).trans hdata⟩

end Words

end HCore.PoolModel
