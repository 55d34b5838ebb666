import HCore.DebugHeap

/-!
Runs of the heap functions of a debug build. Every block that a caller holds
lies behind its node in a live block, and nothing that a caller writes reaches
a node. A call that asks for at least one byte and leaves room for the node is
then answered as by the C library; the others fail an assertion, or wrap round
and make a block that is too small.
-/

namespace HCore.DebugHeap

open Machine LittleEndian CHeap ListBackends

/-- A block that a caller holds. -/
structure Grant where
  node : ℕ
  size : ℕ
  deriving DecidableEq, Repr

def Grant.ptr (g : Grant) : ℕ := g.node + mnodeSize

/-- The node of a block that is held lies in a live block of its own. -/
structure Held (h : Heap) (g : Grant) : Prop where
  block : ∃ id, (⟨id, g.node, mnodeSize + g.size⟩ : Block) ∈ h.live
  words : IsMnode h.mem g.node g.size

/-- There is no debug object, and every block that is held has its node. -/
structure Sound (s : State) (user : List Grant) : Prop where
  db : s.db = none
  held : ∀ g ∈ user, Held s.heap g

section

variable {env : Env} {s s' : State} {user : List Grant} {g : Grant} {node size : ℕ}

theorem Held.owns {h : Heap} (hg : Held h g) : h.Owns g.node (mnodeSize + g.size) := by
  obtain ⟨id, hb⟩ := hg.block
  exact ⟨_, hb, le_refl _, le_refl _⟩

theorem Held.owns_ptr {h : Heap} (hg : Held h g) : h.Owns g.ptr g.size := by
  unfold Grant.ptr
  exact hg.owns.mono (by omega) (by omega)

/-- A new node lies apart from everything that is held. -/
theorem Made.apart {h h' : Heap} (hmade : Made h h' node size) (hg : Held h g) :
    g.node + (mnodeSize + g.size) < node ∨ node + (mnodeSize + size) < g.node := by
  obtain ⟨id, hb⟩ := hg.block
  exact hmade.fits.apart _ hb

theorem Made.held {h h' : Heap} (hmade : Made h h' node size) (hg : Held h g) : Held h' g := by
  have hapart := hmade.apart hg
  obtain ⟨id, hb⟩ := hg.block
  refine ⟨⟨id, ?_⟩, hg.words.congr fun i hi => hmade.keep _ (by omega)⟩
  rw [hmade.live]
  exact List.mem_cons_of_mem _ hb

theorem Made.held_new {h h' : Heap} (hmade : Made h h' node size) : Held h' ⟨node, size⟩ := by
  refine ⟨⟨h.calls, ?_⟩, hmade.words⟩
  rw [hmade.live]
  exact List.mem_cons_self

theorem Sound.made (hs : Sound s user) (hdb : s'.db = none)
    (hmade : Made s.heap s'.heap node size) : Sound s' (⟨node, size⟩ :: user) := by
  refine ⟨hdb, List.forall_mem_cons.mpr ⟨hmade.held_new, ?_⟩⟩
  intro g hg
  exact hmade.held (hs.held g hg)

/-- Different blocks that are held lie apart. -/
theorem Held.apart {h : Heap} {k : Grant} (hg : Held h g) (hk : Held h k) (hne : g.node ≠ k.node) :
    g.node + (mnodeSize + g.size) < k.node ∨ k.node + (mnodeSize + k.size) < g.node := by
  obtain ⟨id, hb⟩ := hg.block
  obtain ⟨id', hb'⟩ := hk.block
  exact Heap.apart_of_ne hb hb' fun heq => hne (congrArg Block.addr heq)

/-- Writing into a block that is held changes no node. -/
theorem Sound.write (hs : Sound s user) (hg : g ∈ user) {a : ℕ} {bytes : List UInt8}
    (hle : g.ptr ≤ a) (hend : a + bytes.length ≤ g.ptr + g.size) :
    Sound { s with heap := s.heap.withMem (writeAt s.heap.mem a bytes) } user := by
  refine ⟨hs.db, fun k hk => ⟨(hs.held k hk).block, ?_⟩⟩
  refine (hs.held k hk).words.congr fun i hi => writeAt_other ?_
  unfold Grant.ptr at hle hend
  by_cases hne : g.node = k.node
  · omega
  · have hapart := (hs.held g hg).apart (hs.held k hk) hne
    omega

/-- The blocks that are not freed stay as they are. -/
theorem Sound.destroy (hs : Sound s user) (hg : g ∈ user) :
    ∃ s', destroyMnode s g.node = Except.ok s' ∧ s'.heap.mem = s.heap.mem ∧
      Sound s' (user.filter (·.ptr ≠ g.ptr)) := by
  obtain ⟨id, hb⟩ := (hs.held g hg).block
  obtain ⟨s', hrun, hdb, hmem, hlive⟩ := destroyMnode_frees hs.db hb (hs.held g hg).words
  refine ⟨s', hrun, hmem, hdb, fun k hk => ?_⟩
  obtain ⟨hk, hne⟩ := List.mem_filter.mp hk
  have hne : k.ptr ≠ g.ptr := of_decide_eq_true hne
  obtain ⟨id', hb'⟩ := (hs.held k hk).block
  refine ⟨⟨id', (hlive _).mpr ⟨hb', fun heq => hne ?_⟩⟩, ?_⟩
  · exact congrArg (· + mnodeSize) (congrArg Block.addr heq)
  · rw [hmem]
    exact (hs.held k hk).words

theorem getMnodeOfAddr_ptr (hs : Sound s user) (hg : g ∈ user) :
    getMnodeOfAddr g.ptr = Except.ok g.node := by
  obtain ⟨id, hb⟩ := (hs.held g hg).block
  obtain ⟨hpos, htop⟩ := s.heap.inRange _ hb
  have hnode : toUInt64 ((g.ptr : ℤ) - mnodeSize) = g.node := by
    unfold Grant.ptr toUInt64
    dsimp only at htop
    omega
  have hne : g.ptr ≠ 0 := by
    unfold Grant.ptr
    dsimp only at hpos
    omega
  unfold getMnodeOfAddr
  rw [assertion_of hne, ok_bind, hnode]
  rfl

theorem Held.size_unique {h : Heap} {k : Grant} (hg : Held h g) (hk : Held h k)
    (hptr : k.ptr = g.ptr) : k.size = g.size := by
  obtain ⟨id, hb⟩ := hg.block
  obtain ⟨id', hb'⟩ := hk.block
  have hnode : k.node = g.node := by
    unfold Grant.ptr at hptr
    omega
  have hsize := congrArg Block.size (h.block_unique hb' hb hnode)
  dsimp only at hsize
  omega

theorem Sound.sub {user' : List Grant} (hs : Sound s user) (hsub : ∀ g ∈ user', g ∈ user) :
    Sound s user' := ⟨hs.db, fun g hg => hs.held g (hsub g hg)⟩

end

/-- The size of the block that a call asks for. -/
def Call.size : Call → Option ℕ
  | malloc size => some size
  | calloc count size => some (count * size)
  | realloc _ size => some size
  | free _ => none
  | write .. => none

/-- The call takes the block back from its caller; one that is moved is only
taken when there is a new one. -/
def Call.Frees (r : ℕ) (g : Grant) : Call → Prop
  | free ptr => g.ptr = ptr
  | realloc ptr _ => r ≠ 0 ∧ g.ptr = ptr
  | _ => False

instance (r : ℕ) (g : Grant) (call : Call) : Decidable (call.Frees r g) := by
  cases call <;> unfold Call.Frees <;> infer_instance

/-- What the caller holds after a call that has returned `r`. -/
def Call.held (call : Call) (user : List Grant) (r : ℕ) : List Grant :=
  (call.size.toList.filter fun _ => r ≠ 0).map (fun n => ⟨r - mnodeSize, n⟩) ++
    user.filter fun g => ¬ call.Frees r g

/-- The call is one that the C library allows: sizes are `size_t`, and a
pointer is NULL or a block that its caller holds. -/
def Call.Valid (user : List Grant) : Call → Prop
  | malloc size => size < 2 ^ 64
  | calloc count size => count < 2 ^ 64 ∧ size < 2 ^ 64
  | realloc ptr size => (ptr = 0 ∨ ∃ g ∈ user, g.ptr = ptr) ∧ size < 2 ^ 64
  | free ptr => ptr = 0 ∨ ∃ g ∈ user, g.ptr = ptr
  | write ptr i _ => ∃ g ∈ user, g.ptr = ptr ∧ i < g.size

/-- The size is not zero and leaves room for a node, and no NULL is freed. -/
def Call.Plain : Call → Prop
  | malloc size => 0 < size ∧ mnodeSize + size < 2 ^ 64
  | calloc count size => 0 < count * size ∧ mnodeSize + count * size < 2 ^ 64
  | realloc _ size => 0 < size ∧ mnodeSize + size < 2 ^ 64
  | free ptr => ptr ≠ 0
  | write .. => True

/-- The call does what the C library does: a block that is returned is large
enough and apart from the others, it is filled with zeros or with what was
moved, and blocks that are not freed keep what is not written. -/
structure Answers (s s' : State) (user : List Grant) (call : Call) (r : ℕ) : Prop where
  block : ∀ n, call.size = some n → r ≠ 0 → s'.heap.Owns r n ∧
    ∀ g ∈ user, ¬ call.Frees r g → r + n ≤ g.ptr ∨ g.ptr + g.size ≤ r
  zeroed : ∀ count size, call = .calloc count size → r ≠ 0 →
    ∀ i < count * size, s'.heap.mem (r + i) = 0
  moved : ∀ n, ∀ g ∈ user, call = .realloc g.ptr n → r ≠ 0 →
    ∀ i < min g.size n, s'.heap.mem (r + i) = s.heap.mem (g.ptr + i)
  kept : ∀ g ∈ user, ¬ call.Frees r g → ∀ i < g.size,
    (∀ ptr k byte, call = .write ptr k byte → g.ptr + i ≠ ptr + k) →
      s'.heap.mem (g.ptr + i) = s.heap.mem (g.ptr + i)

section

variable {s s' : State} {user : List Grant} {g : Grant} {node n r : ℕ} {call : Call}

theorem Call.mem_held : g ∈ call.held user r ↔
    (∃ n, call.size = some n ∧ r ≠ 0 ∧ g = ⟨r - mnodeSize, n⟩) ∨ (g ∈ user ∧ ¬ call.Frees r g) := by
  unfold Call.held
  rw [List.mem_append, List.mem_map, List.mem_filter]
  simp only [List.mem_filter, Option.mem_toList, decide_not, Bool.not_eq_true',
    decide_eq_false_iff_not]
  refine or_congr_left ⟨?_, ?_⟩
  · rintro ⟨n, ⟨hn, hr⟩, rfl⟩
    exact ⟨n, hn, hr, rfl⟩
  · rintro ⟨n, hn, hr, rfl⟩
    exact ⟨n, ⟨hn, hr⟩, rfl⟩

/-- Without memory nothing happens. -/
theorem Answers.refused (hmem : s'.heap.mem = s.heap.mem) : Answers s s' user call 0 :=
  ⟨fun _ _ hr => absurd rfl hr, fun _ _ _ hr => absurd rfl hr, fun _ _ _ _ hr => absurd rfl hr,
    fun _ _ _ _ _ _ => by rw [hmem]⟩

/-- A new block, its size and that of the call. -/
theorem Sound.grown (hs : Sound s user) (hdb : s'.db = none) {size : ℕ}
    (hmade : Made s.heap s'.heap node size) (hsize : call.size = some size) :
    Sound s' (call.held user (node + mnodeSize)) := by
  refine (hs.made hdb hmade).sub fun g hg => ?_
  rcases Call.mem_held.mp hg with ⟨n, hn, -, rfl⟩ | ⟨hmem, -⟩
  · obtain rfl : size = n := Option.some.inj (hsize.symm.trans hn)
    rw [Nat.add_sub_cancel]
    exact List.mem_cons_self
  · exact List.mem_cons_of_mem _ hmem

theorem Sound.refused (hs : Sound s user) (hdb : s'.db = none)
    (hlive : s'.heap.live = s.heap.live) (hmem : s'.heap.mem = s.heap.mem) :
    Sound s' (call.held user 0) := by
  refine ⟨hdb, fun g hg => ?_⟩
  rcases Call.mem_held.mp hg with ⟨n, -, hr, -⟩ | ⟨hg, -⟩
  · exact absurd rfl hr
  · obtain ⟨hblock, hwords⟩ := hs.held g hg
    exact ⟨by rwa [hlive], by rwa [hmem]⟩

/-- A new block that holds what it did, or what was written into it. -/
theorem Made.answers_block {heap : Heap} {size : ℕ} (hs : Sound s user)
    (hmade : Made s.heap heap node size) :
    heap.Owns (node + mnodeSize) size ∧ ∀ g ∈ user,
      node + mnodeSize + size ≤ g.ptr ∨ g.ptr + g.size ≤ node + mnodeSize := by
  refine ⟨hmade.held_new.owns_ptr, fun g hg => ?_⟩
  have hapart := hmade.apart (hs.held g hg)
  unfold Grant.ptr
  omega

theorem Made.answers_kept {heap : Heap} {size : ℕ} (hs : Sound s user)
    (hmade : Made s.heap heap node size) {g : Grant} (hg : g ∈ user) {i : ℕ} (hi : i < g.size) :
    heap.mem (g.ptr + i) = s.heap.mem (g.ptr + i) := by
  have hapart := hmade.apart (hs.held g hg)
  apply hmade.keep
  unfold Grant.ptr
  omega

theorem load64_addr {size : ℕ} (hmade : Made s.heap s'.heap node size) :
    load64 s'.heap (node + addrOffset) = Except.ok (node + mnodeSize) := by
  rw [load64_field hmade.held_new.owns (by decide), hmade.words.addr]

/-- What a caller gets of `hcore_malloc`. -/
theorem malloc_answers (env : Env) (hs : Sound s user) (hplain : (Call.malloc n).Plain) :
    ∃ r s', heapCall env s (.malloc n) = Except.ok (r, s') ∧
      Answers s s' user (.malloc n) r ∧ Sound s' ((Call.malloc n).held user r) := by
  obtain ⟨hpos, hfit⟩ := hplain
  obtain ⟨node, s1, hcreate, hdb, ⟨rfl, hlive, hmem⟩ | ⟨hnode, hmade⟩⟩ :=
    createMnode_makes env .malloc hs.db hpos.ne' hfit
  · refine ⟨0, s1, ?_, .refused hmem, hs.refused hdb hlive hmem⟩
    exact bind_of_ok hcreate (if_pos rfl)
  · refine ⟨node + mnodeSize, s1, ?_, ?_, hs.grown hdb hmade rfl⟩
    · refine bind_of_ok hcreate ((if_neg hnode).trans ?_)
      exact bind_of_ok (load64_addr hmade) rfl
    · obtain ⟨hown, hapart⟩ := hmade.answers_block hs
      refine ⟨?_, by simp, by simp, fun g hg _ i hi _ => hmade.answers_kept hs hg hi⟩
      rintro _ ⟨⟩ -
      exact ⟨hown, fun g hg _ => hapart g hg⟩

/-- What a caller gets of `hcore_calloc`. -/
theorem calloc_answers (env : Env) {count size : ℕ} (hs : Sound s user)
    (hplain : (Call.calloc count size).Plain) :
    ∃ r s', heapCall env s (.calloc count size) = Except.ok (r, s') ∧
      Answers s s' user (.calloc count size) r ∧
      Sound s' ((Call.calloc count size).held user r) := by
  obtain ⟨hpos, hfit⟩ := hplain
  have hexact : toUInt64 (count * size : ℕ) = count * size := toUInt64_of_lt (by omega)
  obtain ⟨node, s1, hcreate, hdb, ⟨rfl, hlive, hmem⟩ | ⟨hnode, hmade⟩⟩ :=
    createMnode_makes env .calloc hs.db hpos.ne' hfit
  · refine ⟨0, s1, ?_, .refused hmem, hs.refused hdb hlive hmem⟩
    show hcoreCalloc env s count size = _
    unfold hcoreCalloc
    rw [hexact]
    exact bind_of_ok hcreate (if_pos rfl)
  · obtain ⟨hown, hapart⟩ := hmade.answers_block hs
    have hlength : (List.replicate (count * size) (0 : UInt8)).length = count * size :=
      List.length_replicate
    refine ⟨node + mnodeSize, { s1 with heap := s1.heap.withMem (writeAt s1.heap.mem
      (node + mnodeSize) (List.replicate (count * size) 0)) }, ?_, ⟨?_, ?_, by simp, ?_⟩, ?_⟩
    · show hcoreCalloc env s count size = _
      unfold hcoreCalloc
      rw [hexact]
      refine bind_of_ok hcreate ((if_neg hnode).trans ?_)
      refine bind_of_ok (load64_addr hmade) ?_
      exact bind_of_ok (memzero_of_owns hown) rfl
    · rintro _ ⟨⟩ -
      exact ⟨hown, fun g hg _ => hapart g hg⟩
    · rintro _ _ ⟨⟩ - i hi
      have hi' : i < (List.replicate (count * size) (0 : UInt8)).length := by rwa [hlength]
      dsimp only [Heap.withMem_mem]
      rw [writeAt_same hi', List.getElem_replicate]
    · intro g hg _ i hi _
      have hside := hapart g hg
      dsimp only [Heap.withMem_mem]
      rw [writeAt_other (by rw [hlength]; omega)]
      exact hmade.answers_kept hs hg hi
    · have hnew : Sound s1 (⟨node, count * size⟩ :: user) := hs.made hdb hmade
      have hwrite := hnew.write List.mem_cons_self (le_refl _)
        (show _ ≤ Grant.ptr ⟨node, count * size⟩ + count * size by rw [hlength])
      refine hwrite.sub fun g hg => ?_
      rcases Call.mem_held.mp hg with ⟨n, hn, -, rfl⟩ | ⟨hmem, -⟩
      · obtain rfl : count * size = n := Option.some.inj hn
        rw [Nat.add_sub_cancel]
        exact List.mem_cons_self
      · exact List.mem_cons_of_mem _ hmem

/-- What a caller gets of `hcore_free`. -/
theorem free_answers (env : Env) {ptr : ℕ} (hs : Sound s user)
    (hvalid : (Call.free ptr).Valid user) (hplain : (Call.free ptr).Plain) :
    ∃ r s', heapCall env s (.free ptr) = Except.ok (r, s') ∧
      Answers s s' user (.free ptr) r ∧ Sound s' ((Call.free ptr).held user r) := by
  obtain ⟨g, hg, rfl⟩ := hvalid.resolve_left hplain
  obtain ⟨s1, hdestroy, hmem, hsound⟩ := hs.destroy hg
  refine ⟨0, s1, ?_, .refused hmem, hsound.sub fun k hk => ?_⟩
  · exact bind_of_ok (bind_of_ok (getMnodeOfAddr_ptr hs hg) hdestroy) rfl
  · rcases Call.mem_held.mp hk with ⟨n, hn, -⟩ | ⟨hmem, hne⟩
    · cases hn
    · exact List.mem_filter.mpr ⟨hmem, decide_eq_true hne⟩

/-- A byte that a caller writes into its block. -/
theorem write_answers (env : Env) {ptr k : ℕ} {byte : UInt8} (hs : Sound s user)
    (hvalid : (Call.write ptr k byte).Valid user) :
    ∃ r s', heapCall env s (.write ptr k byte) = Except.ok (r, s') ∧
      Answers s s' user (.write ptr k byte) r ∧
      Sound s' ((Call.write ptr k byte).held user r) := by
  obtain ⟨g, hg, rfl, hk⟩ := hvalid
  have hown : s.heap.Owns (g.ptr + k) [byte].length :=
    (hs.held g hg).owns_ptr.mono (by omega) (by rw [List.length_singleton]; omega)
  have hend : g.ptr + k + [byte].length ≤ g.ptr + g.size := by
    rw [List.length_singleton]
    omega
  have hwrite := hs.write hg (Nat.le_add_right g.ptr k) hend
  refine ⟨0, _, bind_of_ok (store_of_owns hown) rfl, ⟨?_, by simp, by simp, ?_⟩, ?_⟩
  · rintro n ⟨⟩
  · intro h hh _ i hi hother
    have hne := hother _ _ _ rfl
    apply writeAt_other
    rw [List.length_singleton]
    omega
  · refine hwrite.sub fun h hh => ?_
    rcases Call.mem_held.mp hh with ⟨n, hn, -⟩ | ⟨hmem, -⟩
    · cases hn
    · exact hmem

/-- What is moved into a new node, and what stays. -/
structure Moves (s s' : State) (user : List Grant) (g : Grant) (node n : ℕ) : Prop where
  sound : Sound s' ((⟨node, n⟩ :: user).filter (·.ptr ≠ g.ptr))
  moved : ∀ i < min n g.size, s'.heap.mem (node + mnodeSize + i) = s.heap.mem (g.ptr + i)
  kept : ∀ x, x < node + mnodeSize ∨ node + mnodeSize + n ≤ x → s'.heap.mem x = s.heap.mem x

/-- The old block goes when its contents are in the new one. -/
theorem moveMnode_moves (hs : Sound s (⟨node, n⟩ :: user)) (hg : g ∈ user)
    (hapart : g.node + (mnodeSize + g.size) < node ∨ node + (mnodeSize + n) < g.node) :
    ∃ s', moveMnode s g.ptr node = Except.ok s' ∧ Moves s s' user g node n := by
  have hnew := hs.held _ List.mem_cons_self
  have hold := hs.held g (List.mem_cons_of_mem _ hg)
  have hptr : g.ptr ≠ 0 := Nat.succ_ne_zero _
  have hdst : s.heap.Owns (node + mnodeSize) (min n g.size) :=
    hnew.owns_ptr.mono (le_refl _) (by dsimp only [Grant.ptr]; omega)
  have hsrc : s.heap.Owns (g.node + mnodeSize) (min n g.size) :=
    hold.owns_ptr.mono (le_refl _) (by dsimp only [Grant.ptr]; omega)
  have hcopy := memcpy_of_owns hdst hsrc (by omega)
  have hlength : (readAt s.heap.mem (g.node + mnodeSize) (min n g.size)).length = min n g.size :=
    readAt_length ..
  have hwritten := hs.write List.mem_cons_self (le_refl _)
    (show _ ≤ Grant.ptr ⟨node, n⟩ + n by rw [hlength]; omega)
  obtain ⟨s', hdestroy, hmem, hsound⟩ := hwritten.destroy (List.mem_cons_of_mem _ hg)
  refine ⟨s', ?_, hsound, ?_, ?_⟩
  · unfold moveMnode
    rw [if_neg hptr]
    refine bind_of_ok (getMnodeOfAddr_ptr hs (List.mem_cons_of_mem _ hg)) ?_
    refine bind_of_ok (load64_field hnew.owns (by decide)) ?_
    refine bind_of_ok (load64_field hold.owns (by decide)) ?_
    rw [hnew.words.size, hold.words.size]
    exact bind_of_ok hcopy hdestroy
  · intro i hi
    have hi' : i < (readAt s.heap.mem (g.node + mnodeSize) (min n g.size)).length := by rwa [hlength]
    rw [hmem, Heap.withMem_mem]
    refine (writeAt_same hi').trans ?_
    simp only [readAt, List.getElem_map, List.getElem_range]
    rfl
  · intro x hx
    rw [hmem, Heap.withMem_mem]
    apply writeAt_other
    rw [hlength]
    unfold Grant.ptr
    dsimp only
    omega

/-- What a caller gets of `hcore_realloc`. -/
theorem realloc_answers (env : Env) {ptr : ℕ} (hs : Sound s user)
    (hvalid : (Call.realloc ptr n).Valid user) (hplain : (Call.realloc ptr n).Plain) :
    ∃ r s', heapCall env s (.realloc ptr n) = Except.ok (r, s') ∧
      Answers s s' user (.realloc ptr n) r ∧ Sound s' ((Call.realloc ptr n).held user r) := by
  obtain ⟨hpos, hfit⟩ := hplain
  obtain ⟨node, s1, hcreate, hdb, ⟨rfl, hlive, hmem⟩ | ⟨hnode, hmade⟩⟩ :=
    createMnode_makes env .realloc hs.db hpos.ne' hfit
  · refine ⟨0, s1, ?_, .refused hmem, hs.refused hdb hlive hmem⟩
    exact bind_of_ok hcreate (if_pos rfl)
  · obtain ⟨hown, hapart⟩ := hmade.answers_block hs
    rcases hvalid.1 with rfl | ⟨g, hg, rfl⟩
    · refine ⟨node + mnodeSize, s1, ?_, ⟨?_, by simp, ?_, ?_⟩, hs.grown hdb hmade rfl⟩
      · refine bind_of_ok hcreate ((if_neg hnode).trans ?_)
        refine bind_of_ok (if_pos rfl) ?_
        exact bind_of_ok (load64_addr hmade) rfl
      · rintro _ ⟨⟩ -
        exact ⟨hown, fun g hg _ => hapart g hg⟩
      · intro m g hg hcall
        cases (Call.realloc.inj hcall).1
      · exact fun g hg _ i hi _ => hmade.answers_kept hs hg hi
    · obtain ⟨s2, hmove, hmoves⟩ := moveMnode_moves (hs.made hdb hmade) hg (hmade.apart (hs.held g hg))
      have hother : Grant.ptr ⟨node, n⟩ ≠ g.ptr := by
        have hside := hmade.apart (hs.held g hg)
        unfold Grant.ptr
        dsimp only
        omega
      have hheld : Held s2.heap ⟨node, n⟩ := hmoves.sound.held _
        (List.mem_filter.mpr ⟨List.mem_cons_self, decide_eq_true hother⟩)
      refine ⟨node + mnodeSize, s2, ?_, ⟨?_, by simp, ?_, ?_⟩, hmoves.sound.sub fun k hk => ?_⟩
      · refine bind_of_ok hcreate ((if_neg hnode).trans ?_)
        refine bind_of_ok hmove ?_
        refine bind_of_ok (load64_field hheld.owns (by decide)) ?_
        rw [hheld.words.addr]
        rfl
      · rintro _ ⟨⟩ -
        exact ⟨hheld.owns_ptr, fun k hk _ => hapart k hk⟩
      · intro m k hk hcall _ i hi
        obtain ⟨hptr, rfl⟩ := Call.realloc.inj hcall
        have hsize := (hs.held g hg).size_unique (hs.held k hk) hptr.symm
        rw [hmoves.moved i (by omega), ← hptr]
        exact hmade.answers_kept hs hg (by omega)
      · intro k hk _ i hi _
        have hside := hapart k hk
        rw [hmoves.kept _ (by omega)]
        exact hmade.answers_kept hs hk hi
      · rcases Call.mem_held.mp hk with ⟨m, hm, -, rfl⟩ | ⟨hmem, hne⟩
        · obtain rfl : n = m := Option.some.inj hm
          rw [Nat.add_sub_cancel]
          exact List.mem_filter.mpr ⟨List.mem_cons_self, decide_eq_true hother⟩
        · refine List.mem_filter.mpr ⟨List.mem_cons_of_mem _ hmem, decide_eq_true ?_⟩
          exact fun heq => hne ⟨Nat.succ_ne_zero _, heq⟩

theorem call_answers (env : Env) (hs : Sound s user) (hvalid : call.Valid user)
    (hplain : call.Plain) :
    ∃ r s', heapCall env s call = Except.ok (r, s') ∧
      Answers s s' user call r ∧ Sound s' (call.held user r) := by
  cases call with
  | malloc size => exact malloc_answers env hs hplain
  | calloc count size => exact calloc_answers env hs hplain
  | realloc ptr size => exact realloc_answers env hs hvalid hplain
  | free ptr => exact free_answers env hs hvalid hplain
  | write ptr k byte => exact write_answers env hs hvalid

/-- What plain calls of a process without a debug object lead to, and the
blocks that their caller holds. -/
inductive Served (env : Env) : State → List Grant → Prop
  | start {s : State} (hdb : s.db = none) : Served env s []
  | call {s s' : State} {user : List Grant} {call : Call} {r : ℕ} (h : Served env s user)
      (hvalid : call.Valid user) (hplain : call.Plain)
      (hcall : heapCall env s call = Except.ok (r, s')) : Served env s' (call.held user r)

theorem Served.sound {env : Env} (h : Served env s user) : Sound s user := by
  induction h with
  | start hdb => exact ⟨hdb, by simp⟩
  | call _ hvalid hplain hcall ih =>
    obtain ⟨r, s1, hrun, -, hsound⟩ := call_answers _ ih hvalid hplain
    obtain ⟨rfl, rfl⟩ := Prod.mk.inj (Except.ok.inj (hcall.symm.trans hrun))
    exact hsound

/-- After any sequence of plain calls a valid plain call completes, and does
what the C library does. -/
theorem debug_heap_answers {env : Env} (h : Served env s user) (hvalid : call.Valid user)
    (hplain : call.Plain) :
    ∃ r s', heapCall env s call = Except.ok (r, s') ∧ Answers s s' user call r := by
  obtain ⟨r, s', hrun, hanswers, -⟩ := call_answers env h.sound hvalid hplain
  exact ⟨r, s', hrun, hanswers⟩

end

/-- A process that has not allocated anything. -/
def idle : State := ⟨emptyHeap, ampleBackends, none⟩

/-- An environment with memory. -/
def ampleEnv : Env :=
  ⟨bumpAllocator, SortedList.stdlib, fun _ => 2, fun _ => 16,
    ⟨false, 0, 0, none, none, false⟩⟩

theorem debug_heap_answers_byte : ∃ r s', heapCall ampleEnv idle (.malloc 1) = Except.ok (r, s') ∧
    Answers idle s' [] (.malloc 1) r :=
  debug_heap_answers (.start rfl) (by decide : 1 < 2 ^ 64) (by decide : 0 < 1 ∧ mnodeSize + 1 < 2 ^ 64)

/-- `free(NULL)` does nothing, and `hcore_free(NULL)` fails an assertion. -/
theorem free_null_fails : ¬ ∀ (env : Env) (s : State) (call : Call), s.db = none → call.Valid [] →
    ∃ r s', heapCall env s call = Except.ok (r, s') ∧ Answers s s' [] call r := by
  intro hall
  obtain ⟨r, s', hrun, -⟩ := hall ampleEnv idle (.free 0) rfl (Or.inl rfl)
  cases hrun

/-- `hcore_init_debug` returns. -/
theorem init_returns : ∃ s, initDebug ampleEnv idle = Except.ok s := by
  obtain ⟨r, s1, hcreate, -, -⟩ :=
    createMnode_makes ampleEnv .memalign (rfl : idle.db = none) (by decide : poolSizeDefault ≠ 0)
      (by decide)
  unfold initDebug createDebug
  rw [hcreate, ok_bind]
  dsimp only
  split
  · exact ⟨_, rfl⟩
  · split
    · exact ⟨_, rfl⟩
    · split
      · exact ⟨_, rfl⟩
      · split <;> exact ⟨_, rfl⟩

theorem never_accounts_start : ∃ s, AfterInit ampleEnv s ∧ ¬ Accounts s [] := by
  obtain ⟨s, hinit⟩ := init_returns
  exact ⟨s, .init hinit, never_accounts (.init hinit) []⟩

/-- Nothing has been allocated since `hcore_init_debug`, and there is no debug
object that says so. -/
theorem init_accounts_nothing : ¬ ∀ (env : Env) (s s' : State), initDebug env s = Except.ok s' →
    Accounts s' [] := by
  intro hall
  obtain ⟨s, hinit⟩ := init_returns
  obtain ⟨db, items, hdb, -⟩ := hall ampleEnv idle s hinit
  rw [(AfterInit.init hinit).db] at hdb
  cases hdb

end HCore.DebugHeap
