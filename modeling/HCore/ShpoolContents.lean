import HCore.SlabRuns

/-!
What the blocks of the shared pool hold. A caller writes and reads the words of
its blocks between calls that allocate and that allocate and clear. As long as
every request takes a run of pages of its own, the pool is a set of separate
arrays to its callers: a word of a block changes by a write to this word of this
block only, whatever the pool writes into its descriptors, slots and maps.
-/

namespace HCore.ShpoolContents

open Words Machine Base SlabPool SlabPages SlabAlloc SlabLayout SlabFreeList SlabClasses Runs SlabRuns

/-- `hcore_shpool_calloc`, by itself. -/
def shpoolCalloc (P : PageSize) (fuel : ℕ) (s : Pool) (size : ℕ) : Exec (ℕ × Pool) := do
  let (p, s) ← slabAllocLocked P.geometry fuel s size
  if p ≠ 0 then do
    let s ← s.memzero p size
    pure (p, s)
  else pure (p, s)

/-- What happens to the pool, with the pointers that are returned and the words
that are read. -/
inductive Event
  | alloc (size p : ℕ)
  | calloc (size p : ℕ)
  | write (b : Block) (a v : ℕ)
  | read (b : Block) (a v : ℕ)

/-- The word at the address lies in the block. -/
def HasWord (b : Block) (a : ℕ) : Prop := b.addr ≤ a ∧ a + 8 ≤ b.addr + b.size ∧ a % 8 = 0

/-- The blocks that are held after a pointer was returned. -/
def grant (size p : ℕ) (live : List Block) : List Block :=
  if p = 0 then live else ⟨p, size⟩ :: live

/-- One event in the pool. -/
inductive Step (P : PageSize) : State → Event → State → Prop
  | alloc {s s' : Pool} {live : List Block} {size fuel p : ℕ} (hsize : 0 < size)
      (hrun : slabAllocLocked P.geometry fuel s size = Except.ok (p, s')) :
      Step P ⟨s, live⟩ (.alloc size p) ⟨s', grant size p live⟩
  | calloc {s s' : Pool} {live : List Block} {size fuel p : ℕ} (hsize : 0 < size)
      (hrun : shpoolCalloc P fuel s size = Except.ok (p, s')) :
      Step P ⟨s, live⟩ (.calloc size p) ⟨s', grant size p live⟩
  | write {s s' : Pool} {live : List Block} {b : Block} {a v : ℕ} (hb : b ∈ live)
      (ha : HasWord b a) (hrun : s.store a v = Except.ok s') :
      Step P ⟨s, live⟩ (.write b a v) ⟨s', live⟩
  | read {s : Pool} {live : List Block} {b : Block} {a v : ℕ} (hb : b ∈ live)
      (ha : HasWord b a) (hrun : s.load a = Except.ok v) :
      Step P ⟨s, live⟩ (.read b a v) ⟨s, live⟩

/-- A request takes a run of pages of its own. -/
def FreshEvent (P : PageSize) (st : State) : Event → Prop
  | .alloc size _ => Fresh P st (.alloc size)
  | .calloc size _ => Fresh P st (.alloc size)
  | .write _ _ _ => True
  | .read _ _ _ => True

/-- The runs from a new pool, with their events, the last one first. -/
inductive History (P : PageSize) (M : Mapping P) (size : ℕ) : List Event → State → Prop
  | init {s : Pool} (h : createShpool P M size = Except.ok s) : History P M size [] ⟨s, []⟩
  | step {events : List Event} {event : Event} {st st' : State} (h : History P M size events st)
      (hstep : Step P st event st') (hfresh : FreshEvent P st event) :
      History P M size (event :: events) st'

/-- The blocks as separate arrays: what each one holds at the addresses of its
words. -/
abbrev Arrays := List (Block × (ℕ → ℕ))

def Arrays.write (arrays : Arrays) (b : Block) (a v : ℕ) : Arrays :=
  arrays.map (fun x => (x.1, if x.1 = b then Function.update x.2 a v else x.2))

/-- One event with separate arrays: an array that was not cleared may hold
anything. -/
inductive Arrays.Step : Arrays → Event → Arrays → Prop
  | refuse {arrays : Arrays} {size : ℕ} : Arrays.Step arrays (.alloc size 0) arrays
  | refuseCleared {arrays : Arrays} {size : ℕ} : Arrays.Step arrays (.calloc size 0) arrays
  | alloc {arrays : Arrays} {size p : ℕ} (c : ℕ → ℕ) (hp : p ≠ 0) :
      Arrays.Step arrays (.alloc size p) ((⟨p, size⟩, c) :: arrays)
  | calloc {arrays : Arrays} {size p : ℕ} (hp : p ≠ 0) :
      Arrays.Step arrays (.calloc size p) ((⟨p, size⟩, fun _ => 0) :: arrays)
  | write {arrays : Arrays} {b : Block} {a v : ℕ} :
      Arrays.Step arrays (.write b a v) (arrays.write b a v)
  | read {arrays : Arrays} {b : Block} {c : ℕ → ℕ} {a : ℕ} (h : (b, c) ∈ arrays) :
      Arrays.Step arrays (.read b a (c a)) arrays

inductive Arrays.History : List Event → Arrays → Prop
  | init : Arrays.History [] []
  | step {events : List Event} {event : Event} {arrays arrays' : Arrays}
      (h : Arrays.History events arrays) (hstep : Arrays.Step arrays event arrays') :
      Arrays.History (event :: events) arrays'

/-- The pool holds the arrays: each one lies in a run of pages of its own. -/
structure Holds (P : PageSize) (N : ℕ) (st : State) (arrays : Arrays) : Prop where
  blocks : arrays.map Prod.fst = st.live
  runs : ∃ frees held, RunInv P N st frees held
  word : ∀ x ∈ arrays, ∀ a, HasWord x.1 a → st.pool.word a = x.2 a

section

variable {P : PageSize} {N : ℕ} {s s' : Pool} {st st' : State} {live : List Block}
  {frees : List Run} {held : List (Block × Run)} {arrays : Arrays}

/-- The blocks stay where they are when only words of the pages change. -/
theorem pages_changed (h : RunInv P N ⟨s, live⟩ frees held) (hsame : SameHeader s s')
    (hpfree : s'.pfree = s.pfree) (hkeep : ∀ x < s.start, s'.word x = s.word x) :
    RunInv P N ⟨s', live⟩ frees held := by
  have hlist : FreeList P N s frees (held.map Prod.snd) := h.list
  refine ⟨freeList_congr hlist hsame hpfree ?_, h.live, ?_⟩
  · intro x hx
    apply hkeep
    by_contra hge
    exact data_not_freeWord hlist (Nat.not_lt.mp hge) hx
  · intro x hx
    refine (h.within x hx).congr hsame ?_
    intro i hi y hlow hhigh
    apply hkeep
    have hlt := hlist.tiles.lt_of_covers
      (List.mem_append_right _ (List.mem_map_of_mem hx)) hi
    have hlast := hlist.layout.last_eq
    have hle := hlist.layout.last_le
    dsimp only at hhigh
    rw [page_eq] at hhigh
    omega

/-- A block of the pool begins in the pages. -/
theorem start_le (h : RunInv P N st frees held) {b : Block} (hb : b ∈ st.live) {a : ℕ}
    (ha : b.addr ≤ a) : st.pool.start ≤ a := le_trans (h.noOverlap.inside b hb).1 ha

/-- Two blocks have no word in common. -/
theorem words_apart (h : RunInv P N st frees held) {b b' : Block} (hb : b ∈ st.live)
    (hb' : b' ∈ st.live) (hne : b ≠ b') {a a' : ℕ} (ha : HasWord b a) (hlow : b'.addr ≤ a')
    (hhigh : a' < b'.addr + b'.size) : a ≠ a' := by
  have hdisjoint := h.noOverlap.disjoint
  have hsize := h.noOverlap.size_le b hb
  have hsize' := h.noOverlap.size_le b' hb'
  obtain ⟨hlow', hhigh', -⟩ := ha
  have hsymm : Std.Symm (fun b b' : Block => b.addr + blockSize P st.pool b.size ≤ b'.addr ∨
      b'.addr + blockSize P st.pool b'.size ≤ b.addr) := ⟨fun x y hxy => hxy.symm⟩
  rcases hdisjoint.forall hb hb' hne with hapart | hapart
  · omega
  · omega

/-- A word of a block lies apart from the pages that are free. -/
theorem word_not_free (h : RunInv P N ⟨s, live⟩ frees held) {b : Block} (hb : b ∈ live) {a : ℕ}
    (ha : HasWord b a) {r : Run} (hr : r ∈ frees) :
    a < pageAddr P s r.start ∨ pageAddr P s r.start + unit P ≤ a := by
  have hlist : FreeList P N s frees (held.map Prod.snd) := h.list
  have hlive : live = held.map Prod.fst := h.live
  rw [hlive] at hb
  obtain ⟨⟨b, r'⟩, hheld, rfl⟩ := List.mem_map.mp hb
  have hw : Within P s b r' := h.within _ hheld
  have hlower := hw.lower
  have hupper := hw.upper
  have hsize := hw.size_le
  have hr' : r' ∈ held.map Prod.snd := List.mem_map_of_mem hheld
  have hpos := hlist.len_pos hr
  have hapart : ¬ r'.Covers r.start := by
    intro hcover
    have heq := hlist.tiles.eq_of_covers (List.mem_append_left _ hr) (List.mem_append_right _ hr')
      (Run.covers_start hpos) hcover
    subst heq
    exact List.disjoint_of_nodup_append hlist.tiles.nodup hr hr'
  obtain ⟨hlow, hhigh, -⟩ := ha
  dsimp only at hlow hhigh
  unfold Run.Covers Run.stop at hapart
  rcases Nat.lt_or_ge r.start r'.start with hlt | hge
  · have hmono := pageAddr_mono P s (show r.start + 1 ≤ r'.start from hlt)
    exact Or.inr (by omega)
  · have hmono := pageAddr_mono P s (show r'.start + r'.len ≤ r.start by omega)
    exact Or.inl (by omega)

/-- A fresh request leaves the words of the blocks in use. -/
theorem fresh_words (h : RunInv P N ⟨s, live⟩ frees held) {size fuel p : ℕ}
    (hfresh : Fresh P ⟨s, live⟩ (.alloc size))
    (hrun : slabAllocLocked P.geometry fuel s size = Except.ok (p, s')) {b : Block} (hb : b ∈ live)
    {a : ℕ} (ha : HasWord b a) : s'.word a = s.word a := by
  have hlist : FreeList P N s frees (held.map Prod.snd) := h.list
  obtain ⟨hpages, hclass⟩ := hfresh
  have hout : ¬ FreeWord s frees a := data_not_freeWord hlist (start_le h hb ha.1)
  by_cases hsize : unit P < size
  · have hn := requestPages_of_lt (hpages hsize)
    have hle := le_pagesWanted P size
    have hpos : 0 < requestPages P.geometry size := by
      rw [hn]
      by_contra hzero
      rw [Nat.eq_zero_of_not_pos hzero] at hle
      omega
    rcases allocPages_cases hlist hsize hpos fuel with
      ⟨hcase, -⟩ | hcase | ⟨i, frees', t, -, hcase, -, halloc⟩
    · rw [hcase] at hrun
      cases hrun
    · rw [hcase] at hrun
      cases hrun
      rfl
    · rw [hcase] at hrun
      cases hrun
      exact halloc.frame a hout
  · have hsize := Nat.not_lt.mp hsize
    obtain ⟨hk, hempty⟩ := hclass hsize
    dsimp only at hk hempty
    rw [hlist.layout.minShift] at hk hempty
    obtain ⟨hlow, -, -⟩ := classShift_spec hlist.layout.minShift hlist.layout.minSize hsize
    rw [slabAllocLocked_fresh hlist.layout hsize hk hempty] at hrun
    rcases newClass_cases hlist hlow hk fuel with
      ⟨hcase, -⟩ | ⟨-, hcase⟩ | ⟨i, frees', t, ⟨r, hr, rfl⟩, hcase, -, hnew⟩
    · rw [hcase] at hrun
      cases hrun
    · rw [hcase] at hrun
      cases hrun
      rfl
    · rw [hcase] at hrun
      cases hrun
      obtain ⟨hslot, hslot'⟩ := slot_lt_pages hlist.layout hk
      have hlast := hlist.layout.last_le
      have hlast' := hlist.layout.last_eq
      have hstart : s.start ≤ a := start_le h hb ha.1
      exact hnew.frame a hout (by unfold nextOf; omega) (word_not_free h hb ha hr)

/-- The blocks after a fresh request. -/
theorem fresh_grant (h : RunInv P N ⟨s, live⟩ frees held) {size fuel p : ℕ}
    (hfresh : Fresh P ⟨s, live⟩ (.alloc size))
    (hrun : slabAllocLocked P.geometry fuel s size = Except.ok (p, s')) :
    ∃ frees' held', RunInv P N ⟨s', grant size p live⟩ frees' held' := by
  unfold grant
  rcases fresh_cases h hfresh fuel with ⟨hcase, -⟩ | hcase | ⟨p', s'', frees', r, hp, hcase, hinv⟩
  · rw [hcase] at hrun
    cases hrun
  · rw [hcase] at hrun
    cases hrun
    exact ⟨frees, held, h⟩
  · rw [hcase] at hrun
    cases hrun
    rw [if_neg hp]
    exact ⟨frees', _, hinv⟩

/-- A fresh request leaves the arrays in place. -/
theorem Holds.alloc (h : Holds P N ⟨s, live⟩ arrays) {size fuel p : ℕ}
    (hfresh : Fresh P ⟨s, live⟩ (.alloc size))
    (hrun : slabAllocLocked P.geometry fuel s size = Except.ok (p, s')) :
    (∃ frees held, RunInv P N ⟨s', grant size p live⟩ frees held) ∧
      ∀ x ∈ arrays, ∀ a, HasWord x.1 a → s'.word a = x.2 a := by
  obtain ⟨frees, held, hinv⟩ := h.runs
  refine ⟨fresh_grant hinv hfresh hrun, ?_⟩
  intro x hx a ha
  have hblocks : arrays.map Prod.fst = live := h.blocks
  have hb : x.1 ∈ live := hblocks ▸ List.mem_map_of_mem hx
  rw [fresh_words hinv hfresh hrun hb ha]
  exact h.word x hx a ha

/-- A pointer that is returned is a new array. -/
theorem Holds.grant (hblocks : arrays.map Prod.fst = live) {size p : ℕ} (hp : p ≠ 0) {c : ℕ → ℕ}
    (hruns : ∃ frees held, RunInv P N ⟨s', ShpoolContents.grant size p live⟩ frees held)
    (hold : ∀ x ∈ arrays, ∀ a, HasWord x.1 a → s'.word a = x.2 a)
    (hnew : ∀ a, HasWord ⟨p, size⟩ a → s'.word a = c a) :
    Holds P N ⟨s', ShpoolContents.grant size p live⟩ ((⟨p, size⟩, c) :: arrays) := by
  refine ⟨?_, hruns, ?_⟩
  · dsimp only
    rw [ShpoolContents.grant, if_neg hp, List.map_cons, hblocks]
  · intro x hx a ha
    rcases List.mem_cons.mp hx with rfl | hx
    · exact hnew a ha
    · exact hold x hx a ha

/-- A write to a word of a block leaves the other blocks in place. -/
theorem set_kept (h : RunInv P N ⟨s, live⟩ frees held) {b : Block} (hb : b ∈ live) {a v : ℕ}
    (ha : HasWord b a) :
    RunInv P N ⟨s.set a v, live⟩ frees held ∧
      ∀ b' ∈ live, b' ≠ b → ∀ a', HasWord b' a' → (s.set a v).word a' = s.word a' := by
  obtain ⟨hlow, hhigh, -⟩ := ha
  refine ⟨pages_changed h (SameHeader.set ..) rfl ?_, ?_⟩
  · intro x hx
    have hstart : s.start ≤ a := start_le h hb hlow
    exact Pool.set_other (by omega)
  · intro b' hb' hne a' ha'
    exact Pool.set_other (words_apart h hb' hb hne ha' hlow (by omega))

end

end HCore.ShpoolContents
