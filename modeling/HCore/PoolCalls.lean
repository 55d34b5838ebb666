import HCore.PoolLedger
import HCore.PoolWords

/-!
The requests to a pool with one block. A request finds room in it, or an unused
record, or is refused, and then the pool keeps its structure, what it has
handed out stays apart and keeps its contents, and what the pool has obtained
is what it has released together with what it holds.
-/

namespace HCore.PoolModel

open Machine LittleEndian CHeap

/-- What the callers of a pool hold: blocks, and the records of their handlers. -/
structure Client where
  user : List Range
  cleanups : List Cleanup

def Client.items (cl : Client) : List Range := cl.user ++ cl.cleanups.map Cleanup.range

/-- The answer to a request of `n` bytes. -/
def Client.grant (cl : Client) (p n : ℕ) : Client :=
  if p = 0 then cl else ⟨⟨p, n⟩ :: cl.user, cl.cleanups⟩

/-- The pool and its callers, in the heap and in memory. -/
structure Structured (s : Proc) (b : Block) (last max : ℕ) (cl : Client) (records : List Record) :
    Prop where
  layout : Layout s.heap.live b last cl.items records
  words : Words s.heap.mem b last max records cl.cleanups

structure Holds (s : Proc) (b : Block) (last max : ℕ) (cl : Client) (records : List Record) :
    Prop extends Structured s b last max cl records where
  ledger : Ledger s.log s.heap.calls b records

/-- A word is stored. -/
def Proc.put (s : Proc) (a v : ℕ) : Proc :=
  ⟨s.heap.withMem (writeAt s.heap.mem a (encode64 v)), s.log⟩

/-- What is handed out keeps its contents. -/
def ItemsKept (s s' : Proc) (items : List Range) : Prop :=
  ∀ x ∈ items, x.Kept s.heap.mem s'.heap.mem

theorem ItemsKept.trans {s s' s'' : Proc} {items : List Range} (h : ItemsKept s s' items)
    (h' : ItemsKept s' s'' items) : ItemsKept s s'' items :=
  fun x hx => Keeps.trans (h x hx) (h' x hx)

section

variable {s s' : Proc} {a v : ℕ}

@[simp] theorem put_live (s : Proc) (a v : ℕ) : (s.put a v).heap.live = s.heap.live := rfl

@[simp] theorem put_calls (s : Proc) (a v : ℕ) : (s.put a v).heap.calls = s.heap.calls := rfl

@[simp] theorem put_log (s : Proc) (a v : ℕ) : (s.put a v).log = s.log := rfl

theorem put_mem (s : Proc) (a v : ℕ) :
    (s.put a v).heap.mem = writeAt s.heap.mem a (encode64 v) := rfl

theorem Proc.store_of_owns (hown : s.heap.Owns a 8) : s.store a v = Except.ok (s.put a v) := by
  rw [Proc.store, CHeap.store64_of_owns hown]
  rfl

theorem Proc.load_of_owns (hown : s.heap.Owns a 8) :
    s.load a = Except.ok (wordAt s.heap.mem a) := CHeap.load64_of_owns hown

theorem Proc.eq_put (hrun : s.store a v = Except.ok s') : s' = s.put a v := by
  unfold Proc.store store64 CHeap.store at hrun
  split at hrun
  · exact (Except.ok.inj hrun).symm
  · cases hrun

theorem Proc.store_same (hrun : s.store a v = Except.ok s') (hv : v < 2 ^ 64) :
    wordAt s'.heap.mem a = v := by
  rw [Proc.eq_put hrun, put_mem]
  exact wordAt_same hv

theorem Proc.store_other {x : ℕ} (hrun : s.store a v = Except.ok s')
    (h : x + 8 ≤ a ∨ a + 8 ≤ x) : wordAt s'.heap.mem x = wordAt s.heap.mem x := by
  rw [Proc.eq_put hrun, put_mem]
  exact wordAt_other (by rwa [encode64_length])

/-- A store in a place apart. -/
theorem Range.Apart.kept_put {x y : Range} (h : x.Apart y) (hstart : y.addr ≤ a)
    (hend : a + 8 ≤ y.addr + y.size) : x.Kept s.heap.mem (s.put a v).heap.mem :=
  Range.Apart.kept (h.symm.mono hstart hend).symm

/-- A block that the pool obtains. -/
structure Obtained (s s' : Proc) (c : Block) : Prop where
  fits : Fits s.heap.live c.addr c.size
  id : c.id = s.heap.calls
  live : s'.heap.live = c :: s.heap.live
  calls : s'.heap.calls = s.heap.calls + 1
  keep : ∀ x, x < c.addr ∨ c.addr + c.size ≤ x → s'.heap.mem x = s.heap.mem x
  log : s'.log = s.log ++ [.obtained c.id]

theorem hcoreMalloc_cases (env : Env) (s : Proc) (n : ℕ) :
    hcoreMalloc env s n = (0, ⟨{ s.heap with calls := s.heap.calls + 1 }, s.log⟩) ∨
      ∃ c s', hcoreMalloc env s n = (c.addr, s') ∧ c.size = n ∧ Obtained s s' c := by
  unfold hcoreMalloc
  cases hrun : malloc env.alloc s.heap n with
  | mk p heap =>
    rcases malloc_cases hrun with ⟨rfl, rfl⟩ | ⟨hfits, hlive, hcalls, hkeep⟩
    · exact Or.inl rfl
    · have hpos : p ≠ 0 := hfits.pos.ne'
      refine Or.inr ⟨⟨s.heap.calls, p, n⟩, ⟨heap, s.log ++ [.obtained s.heap.calls]⟩, ?_, rfl,
        hfits, rfl, hlive, hcalls, hkeep, rfl⟩
      dsimp only
      rw [if_neg hpos]

theorem Obtained.kept {c : Block} (ho : Obtained s s' c) {x : Range}
    (hx : x.Apart ⟨c.addr, c.size⟩) : x.Kept s.heap.mem s'.heap.mem := by
  intro i hi hi'
  unfold Range.Apart at hx
  dsimp only at hx
  exact ho.keep i (by omega)

theorem hcoreFree_zero (s : Proc) : hcoreFree s 0 = Except.ok s := by
  have hnone : s.heap.live.filter (·.addr = 0) = [] := by
    apply List.filter_eq_nil_iff.mpr
    intro b hb
    rw [decide_eq_true_eq]
    exact (s.heap.inRange b hb).1.ne'
  unfold hcoreFree CHeap.free
  rw [if_pos rfl, pure_eq_ok, ok_bind, hnone, List.map_nil, List.append_nil]
  rfl

/-- The release of a live block is logged once. -/
theorem hcoreFree_live {c : Block} (hc : c ∈ s.heap.live) :
    ∃ s', hcoreFree s c.addr = Except.ok s' ∧ s'.heap.mem = s.heap.mem ∧
      s'.heap.calls = s.heap.calls ∧ (∀ d, d ∈ s'.heap.live ↔ d ∈ s.heap.live ∧ d ≠ c) ∧
      s'.log = s.log ++ [.released c.id] := by
  obtain ⟨heap, hfree, hmem, hcalls, hlive⟩ := CHeap.free_live hc
  refine ⟨⟨heap, _⟩, bind_of_ok hfree rfl, hmem, hcalls, hlive, ?_⟩
  rw [s.heap.filter_addr hc]
  rfl

end

theorem addresses_succ : ∃ fuel, addresses = fuel + 1 := ⟨2 ^ 64 - 1, rfl⟩

namespace Structured

variable {env : Env} {s : Proc} {b : Block} {last max n : ℕ} {cl : Client} {records : List Record}

theorem owns_word (h : Structured s b last max cl records) {k : ℕ} (hk : k + 8 ≤ poolSize) :
    s.heap.Owns (b.addr + k) 8 :=
  h.layout.owns_header.mono (Nat.le_add_right _ _) (by omega)

theorem load_header (h : Structured s b last max cl records) {k : ℕ} (hk : k + 8 ≤ poolSize) :
    s.load (b.addr + k) = Except.ok (wordAt s.heap.mem (b.addr + k)) :=
  Proc.load_of_owns (h.owns_word hk)

theorem load_last (h : Structured s b last max cl records) :
    s.load (b.addr + lastOffset) = Except.ok last := by
  rw [h.load_header (by decide), h.words.last]

theorem load_end (h : Structured s b last max cl records) :
    s.load (b.addr + endOffset) = Except.ok (b.addr + b.size) := by
  rw [h.load_header (by decide), h.words.bound]

theorem load_next (h : Structured s b last max cl records) :
    s.load (b.addr + nextOffset) = Except.ok 0 := by
  rw [h.load_header (by decide), h.words.next]

theorem load_max (h : Structured s b last max cl records) :
    s.load (b.addr + maxOffset) = Except.ok max := by
  rw [h.load_header (by decide), h.words.max]

theorem load_current (h : Structured s b last max cl records) :
    s.load (b.addr + currentOffset) = Except.ok b.addr := by
  rw [h.load_header (by decide), h.words.current]

theorem not_customed (h : Structured s b last max cl records) :
    customed s b.addr = Except.ok false := by
  unfold customed
  rw [h.load_header (by decide), ok_bind, h.words.customed]
  rfl

theorem cleanup_mem {c : Cleanup} (hc : c ∈ cl.cleanups) : c.range ∈ cl.items :=
  List.mem_append_right _ (List.mem_map_of_mem hc)

/-- `last` is stored. -/
theorem setLast (h : Structured s b last max cl records) {last' : ℕ}
    (layout : Layout s.heap.live b last' cl.items records) :
    Structured (s.put (b.addr + lastOffset) last') b last' max cl records := by
  have htop := layout.top_lt
  have hfits := layout.fits
  refine ⟨layout, h.words.setLast ?_ ?_ (by omega)⟩
  · exact fun r hr => h.layout.record_apart_header hr
  · exact fun c hc => h.layout.apart_header (cleanup_mem hc)

theorem kept_last (h : Structured s b last max cl records) {v : ℕ} :
    ItemsKept s (s.put (b.addr + lastOffset) v) cl.items :=
  fun _ hx => Words.kept_of_header (h.layout.apart_header hx) (by decide)

theorem pallocSmall_of_room (h : Structured s b last max cl records) {align : Bool} {m : ℕ}
    (hm : (if align then alignPtr last else last) = m) (hroom : m + n ≤ b.addr + b.size) :
    pallocSmall env s b.addr n align = Except.ok (m, s.put (b.addr + lastOffset) (m + n)) := by
  obtain ⟨fuel, hfuel⟩ := addresses_succ
  have htop := h.layout.top_lt
  have hspace : toUInt64 (((b.addr + b.size : ℕ) : ℤ) - (m : ℕ)) = b.addr + b.size - m := by
    unfold toUInt64
    omega
  have hfind : findRoom s n align addresses b.addr =
      Except.ok (some (m, s.put (b.addr + lastOffset) (m + n))) := by
    rw [hfuel, findRoom, h.load_last, ok_bind]
    dsimp only
    rw [hm, h.load_end, ok_bind, hspace, if_pos (by omega),
      Proc.store_of_owns (h.owns_word (by decide))]
    rfl
  unfold pallocSmall
  rw [h.load_current, ok_bind, hfind]
  rfl

end Structured

/-- The first of the next `n` records that holds no block. -/
def firstUnused : ℕ → List Record → ℕ
  | 0, _ => 0
  | _ + 1, [] => 0
  | n + 1, r :: records => if r.block = none then r.addr else firstUnused n records

theorem firstUnused_split {n a : ℕ} {records : List Record} (h : firstUnused n records = a)
    (hne : a ≠ 0) : ∃ pre post, records = pre ++ ⟨a, none⟩ :: post := by
  induction n generalizing records with
  | zero => exact absurd h.symm hne
  | succ n ih =>
    cases records with
    | nil => exact absurd h.symm hne
    | cons r records =>
      unfold firstUnused at h
      split at h
      · next hnone =>
        refine ⟨[], records, ?_⟩
        rw [← h, ← hnone]
        rfl
      · obtain ⟨pre, post, hsplit⟩ := ih h
        exact ⟨r :: pre, post, by rw [hsplit, List.cons_append]⟩

namespace Structured

variable {env : Env} {s : Proc} {b : Block} {last max : ℕ} {cl : Client} {records : List Record}

theorem alloc_ne_zero (h : Structured s b last max cl records) {r : Record} {c : Block}
    (hr : r ∈ records) (hc : r.block = some c) :
    r.alloc = c.addr ∧ c ∈ s.heap.live ∧ c.addr ≠ 0 := by
  obtain ⟨hlive, -⟩ := h.layout.held c (mem_heldBlocks hr hc)
  refine ⟨?_, hlive, (s.heap.inRange c hlive).1.ne'⟩
  rw [Record.alloc, hc]

theorem alloc_eq_zero (h : Structured s b last max cl records) {r : Record} (hr : r ∈ records) :
    r.alloc = 0 ↔ r.block = none := by
  constructor
  · intro hzero
    cases hblock : r.block with
    | none => rfl
    | some c =>
      obtain ⟨halloc, -, hne⟩ := h.alloc_ne_zero hr hblock
      exact absurd (halloc.symm.trans hzero) hne
  · intro hnone
    rw [Record.alloc, hnone]

/-- The two words of a record. -/
theorem load_record (h : Structured s b last max cl records) {r : Record} (hr : r ∈ records) :
    s.load r.addr = Except.ok (wordAt s.heap.mem r.addr) ∧
      s.load (r.addr + 8) = Except.ok r.alloc := by
  have hown := h.layout.owns_record hr
  refine ⟨Proc.load_of_owns (hown.mono (le_refl _) ?_), ?_⟩
  · exact Nat.add_le_add_left (by decide) _
  · rw [← h.words.alloc r hr]
    exact Proc.load_of_owns (hown.mono (Nat.le_add_right _ _) (le_refl _))

theorem freeRecord_eq (h : Structured s b last max cl records) {n head : ℕ} {rest : List Record}
    (hsub : ∀ r ∈ rest, r ∈ records)
    (hchain : Chained s.heap.mem 0 head (rest.map Record.addr)) :
    freeRecord s n head = Except.ok (firstUnused n rest) := by
  induction n generalizing head rest with
  | zero => rfl
  | succ n ih =>
    cases rest with
    | nil =>
      have hzero : head = 0 := hchain
      rw [freeRecord, if_pos hzero]
      rfl
    | cons r rest =>
      obtain ⟨rfl, hne, hchain⟩ := hchain
      have hr := hsub r List.mem_cons_self
      obtain ⟨hnext, halloc⟩ := h.load_record hr
      rw [freeRecord, if_neg hne, halloc, ok_bind, firstUnused]
      by_cases hblock : r.block = none
      · rw [if_pos ((h.alloc_eq_zero hr).mpr hblock), if_pos hblock]
        rfl
      · rw [if_neg fun hzero => hblock ((h.alloc_eq_zero hr).mp hzero), if_neg hblock, hnext,
          ok_bind]
        exact ih (fun t ht => hsub t (List.mem_cons_of_mem _ ht)) hchain

theorem freeRecord_head (h : Structured s b last max cl records) {n : ℕ} :
    freeRecord s n (wordAt s.heap.mem (b.addr + largeOffset)) = Except.ok (firstUnused n records) :=
  h.freeRecord_eq (fun _ hr => hr) h.words.large

end Structured

/-- A new block leaves the pool and its callers as they are. -/
theorem Obtained.structured {s s' : Proc} {b c : Block} {last max : ℕ} {cl : Client}
    {records : List Record} (ho : Obtained s s' c) (h : Structured s b last max cl records) :
    Structured s' b last max cl records ∧ ItemsKept s s' cl.items ∧
      (∀ x ∈ cl.items, x.Apart ⟨c.addr, c.size⟩) ∧
      (∀ r ∈ records, r.range.Apart ⟨c.addr, c.size⟩) ∧
      c ∈ s'.heap.live ∧ c ≠ b ∧ c ∉ heldBlocks records := by
  obtain ⟨hitems, hrecords, hheader⟩ := h.layout.fresh ho.fits
  have hnew : c ∉ s.heap.live := by
    intro hc
    have hself := ho.fits.apart c hc
    omega
  have hkept : ItemsKept s s' cl.items := fun x hx => ho.kept (hitems x hx)
  refine ⟨⟨h.layout.mono ?_, h.words.congr (ho.kept hheader) ?_ ?_⟩, hkept, hitems, hrecords, ?_⟩
  · intro d hd
    rw [ho.live]
    exact List.mem_cons_of_mem _ hd
  · exact fun r hr => ho.kept (hrecords r hr)
  · exact fun k hk => hkept _ (Structured.cleanup_mem hk)
  · rw [ho.live]
    refine ⟨List.mem_cons_self, ?_, fun hc => hnew (h.layout.held c hc).1⟩
    rintro rfl
    exact hnew h.layout.block

/-- A request is served without another block for the pool: from room behind
`last`, or, if it is for a large block, from an unused record or room for one. -/
def FindsRoom (env : Env) (s : Proc) (pool n : ℕ) : Prop :=
  let word (k : ℕ) := wordAt s.heap.mem (pool + k)
  if n ≤ word maxOffset then word lastOffset + n ≤ word endOffset
  else (hcoreMalloc env s n).1 = 0 ∨ freeRecord s 5 (word largeOffset) ≠ Except.ok 0 ∨
    (word lastOffset + 7) / 8 * 8 + largeSize ≤ word endOffset

instance (env : Env) (s : Proc) (pool n : ℕ) : Decidable (FindsRoom env s pool n) :=
  inferInstanceAs (Decidable (if n ≤ wordAt s.heap.mem (pool + maxOffset) then _ else _ ∨ _ ∨ _))

namespace Client

variable {cl : Client} {p n : ℕ}

@[simp] theorem grant_zero (cl : Client) (n : ℕ) : cl.grant 0 n = cl := if_pos rfl

theorem grant_of_ne (h : p ≠ 0) : cl.grant p n = ⟨⟨p, n⟩ :: cl.user, cl.cleanups⟩ := if_neg h

theorem grant_items (h : p ≠ 0) : (cl.grant p n).items = ⟨p, n⟩ :: cl.items := by
  rw [grant_of_ne h]
  rfl

theorem grant_cleanups : (cl.grant p n).cleanups = cl.cleanups := by
  unfold grant
  split <;> rfl

end Client

namespace Structured

variable {env : Env} {s : Proc} {b : Block} {last max a v : ℕ} {cl : Client} {records : List Record}

/-- A store where the pool keeps nothing. -/
theorem put_apart (h : Structured s b last max cl records) {y : Range}
    (hitems : ∀ x ∈ cl.items, x.Apart y) (hrecords : ∀ r ∈ records, r.range.Apart y)
    (hheader : (⟨b.addr, poolSize⟩ : Range).Apart y) (hstart : y.addr ≤ a)
    (hend : a + 8 ≤ y.addr + y.size) :
    Structured (s.put a v) b last max cl records ∧ ItemsKept s (s.put a v) cl.items := by
  have hkept : ItemsKept s (s.put a v) cl.items := fun x hx =>
    (hitems x hx).kept_put hstart hend
  refine ⟨⟨h.layout, h.words.congr (hheader.kept_put hstart hend) ?_ ?_⟩, hkept⟩
  · exact fun r hr => (hrecords r hr).kept_put hstart hend
  · exact fun c hc => hkept _ (cleanup_mem hc)

/-- The block is stored in the record, and no item lies there. -/
theorem setAlloc {pre post : List Record} {blk blk' : Option Block}
    (h : Structured s b last max cl (pre ++ ⟨a, blk⟩ :: post))
    (hv : Record.alloc ⟨a, blk'⟩ < 2 ^ 64) :
    Words (s.put (a + 8) (Record.alloc ⟨a, blk'⟩)).heap.mem b last max (pre ++ ⟨a, blk'⟩ :: post)
        cl.cleanups ∧
      ItemsKept s (s.put (a + 8) (Record.alloc ⟨a, blk'⟩)) cl.items := by
  have hr : (⟨a, blk⟩ : Record) ∈ pre ++ ⟨a, blk⟩ :: post :=
    List.mem_append_right _ List.mem_cons_self
  refine ⟨h.words.setAlloc h.layout.recordsApart (h.layout.record_apart_header hr) ?_ hv, ?_⟩
  · exact fun c hc => h.layout.recordApart _ (cleanup_mem hc) _ hr
  · intro x hx
    exact (h.layout.recordApart x hx _ hr).kept_put (Nat.le_add_right _ _) (le_refl (a + 16))

end Structured

theorem alignPtr_of_room {p n : ℕ} (h : (p + 7) / 8 * 8 + n < 2 ^ 64) :
    alignPtr p = (p + 7) / 8 * 8 := by
  unfold alignPtr
  rw [Nat.mod_eq_of_lt (by omega)]

namespace Holds

variable {env : Env} {s s' : Proc} {b c : Block} {last max n : ℕ} {cl : Client}
  {records : List Record}

/-- The block goes into an unused record. -/
theorem reuse {pre post : List Record} {a : ℕ}
    (h : Holds s b last max cl (pre ++ ⟨a, none⟩ :: post))
    (ho : Obtained s s' c) (hpos : 0 < c.size) :
    s'.store (a + 8) c.addr = Except.ok (s'.put (a + 8) c.addr) ∧
      Holds (s'.put (a + 8) c.addr) b last max (cl.grant c.addr c.size)
        (pre ++ ⟨a, some c⟩ :: post) ∧
      ItemsKept s (s'.put (a + 8) c.addr) cl.items := by
  obtain ⟨h', hkept, hitems, hrecords, hlive, hne, hnew⟩ := ho.structured h.toStructured
  have hr : (⟨a, none⟩ : Record) ∈ pre ++ ⟨a, none⟩ :: post :=
    List.mem_append_right _ List.mem_cons_self
  have hown := h'.layout.owns_record hr
  have hrange := s'.heap.inRange c hlive
  have hset := h'.setAlloc (by show c.addr < _; omega : Record.alloc ⟨a, some c⟩ < 2 ^ 64)
  refine ⟨?_, ⟨⟨?_, ?_⟩, ?_⟩, hkept.trans hset.2⟩
  · exact Proc.store_of_owns (hown.mono (Nat.le_add_right _ _) (le_refl (a + 16)))
  · rw [Client.grant_items hrange.1.ne']
    refine (h'.layout.reuse hlive hne hnew).addItem (Or.inr ⟨hpos, c, ?_, rfl, le_refl _⟩) hitems ?_
    · exact mem_heldBlocks (List.mem_append_right _ List.mem_cons_self) rfl
    · intro r hr
      obtain ⟨t, ht, haddr⟩ := mem_middle hr
      rw [Record.range, ← haddr]
      exact (hrecords t ht).symm
  · rw [Client.grant_cleanups]
    exact hset.1
  · rw [put_log, ho.log, put_calls, ho.calls]
    exact h.ledger.obtain ho.id (heldBlocks_middle pre post a c)

/-- The block goes into a new record, for which the pool has room. -/
theorem push (h : Holds s b last max cl records) (ho : Obtained s s' c) (hpos : 0 < c.size)
    (hroom : (last + 7) / 8 * 8 + largeSize ≤ b.addr + b.size) :
    ∃ m s2 s3 head s4 s5, pallocSmall env s' b.addr largeSize true = Except.ok (m, s2) ∧ m ≠ 0 ∧
      s2.store (m + 8) c.addr = Except.ok s3 ∧
      s3.load (b.addr + largeOffset) = Except.ok head ∧ s3.store m head = Except.ok s4 ∧
      s4.store (b.addr + largeOffset) m = Except.ok s5 ∧
      Holds s5 b (m + largeSize) max (cl.grant c.addr c.size) (⟨m, some c⟩ :: records) ∧
      ItemsKept s s5 cl.items := by
  obtain ⟨h', hkept, hitems, hrecords, hlive, hne, hnew⟩ := ho.structured h.toStructured
  have htop := h.layout.top_lt
  have hheader := h.layout.header
  have hrange := s'.heap.inRange c hlive
  set m := (last + 7) / 8 * 8 with hm
  have hle : last ≤ m := by omega
  have hbound : m + largeSize < 2 ^ 64 := by omega
  have halign : (if true then alignPtr last else last) = m := alignPtr_of_room hbound
  obtain ⟨hlayout, hsmall, hitems', hrecords'⟩ := h'.layout.carve hle hroom
  have hstart : b.addr + poolSize ≤ m := hsmall.start
  have hapart : (⟨b.addr, poolSize⟩ : Range).Apart ⟨m, largeSize⟩ := Or.inr (Or.inr (Or.inl hstart))
  have hown : s'.heap.Owns m largeSize :=
    ⟨b, h'.layout.block, by omega, hroom⟩
  have hown' : s'.heap.Owns (m + 8) 8 := hown.mono (Nat.le_add_right _ _) (le_refl (m + 16))
  have hown'' : s'.heap.Owns m 8 := hown.mono (le_refl _) (Nat.add_le_add_left (by decide) _)
  have hmne : m ≠ 0 := by
    unfold poolSize at hstart
    omega
  have hlt : m < 2 ^ 64 := by omega
  -- the room is taken, and the record written before the pool links to it
  set s2 := s'.put (b.addr + lastOffset) (m + largeSize) with hs2
  have h2 : Structured s2 b (m + largeSize) max cl records := h'.setLast hlayout
  set s3 := s2.put (m + 8) c.addr with hs3
  obtain ⟨h3, hkept3⟩ : Structured s3 b (m + largeSize) max cl records ∧ ItemsKept s2 s3 cl.items :=
    h2.put_apart hitems' hrecords' hapart (Nat.le_add_right _ _) (le_refl (m + 16))
  set head := wordAt s3.heap.mem (b.addr + largeOffset) with hhead
  set s4 := s3.put m head with hs4
  obtain ⟨h4, hkept4⟩ : Structured s4 b (m + largeSize) max cl records ∧ ItemsKept s3 s4 cl.items :=
    h3.put_apart hitems' hrecords' hapart (le_refl _)
      (Nat.add_le_add_left (by decide : 8 ≤ largeSize) _)
  set s5 := s4.put (b.addr + largeOffset) m with hs5
  have hnext : wordAt s4.heap.mem m = head := wordAt_same (wordAt_lt _ _)
  have hlink : wordAt s4.heap.mem (b.addr + largeOffset) = head := by
    rw [hs4, put_mem]
    refine wordAt_other (Or.inl ?_)
    have hoffset : largeOffset + 8 ≤ poolSize := by decide
    omega
  have halloc : wordAt s4.heap.mem (m + 8) = c.addr := by
    rw [hs4, put_mem, wordAt_other (Or.inr (le_refl (m + 8))), hs3, put_mem]
    exact wordAt_same (by omega)
  have hwords : Words s5.heap.mem b (m + largeSize) max (⟨m, some c⟩ :: records) cl.cleanups := by
    refine h4.words.pushRecord (r := ⟨m, some c⟩) ?_ ?_ hapart.symm hmne hlt
      (hnext.trans hlink.symm) halloc
    · exact fun r hr => h.layout.record_apart_header hr
    · exact fun k hk => h.layout.apart_header (Structured.cleanup_mem hk)
  have hkept5 : ItemsKept s4 s5 cl.items := fun x hx =>
    Words.kept_of_header (h.layout.apart_header hx) (by decide)
  refine ⟨m, s2, s3, head, s4, s5, h'.pallocSmall_of_room halign hroom, hmne,
    Proc.store_of_owns hown', h3.load_header (by decide), Proc.store_of_owns hown'',
    Proc.store_of_owns (h4.owns_word (by decide)), ⟨⟨?_, ?_⟩, ?_⟩, ?_⟩
  · rw [Client.grant_items hrange.1.ne']
    refine (h4.layout.addRecord hlive hne hnew ⟨hstart, le_refl _⟩ hitems' hrecords').addItem
      (Or.inr ⟨hpos, c, List.mem_cons_self, rfl, le_refl _⟩) hitems ?_
    refine List.forall_mem_cons.mpr ⟨?_, fun r hr => (hrecords r hr).symm⟩
    -- the new block is apart from the block of the pool
    have hblocks := ho.fits.apart b h.layout.block
    unfold Range.Apart Record.range
    dsimp only
    omega
  · rw [Client.grant_cleanups]
    exact hwords
  · rw [hs5, put_log, put_calls]
    show Ledger s'.log s'.heap.calls b _
    rw [ho.log, ho.calls]
    exact h.ledger.obtain ho.id (List.Perm.refl _)
  · exact hkept.trans ((h'.kept_last).trans (hkept3.trans (hkept4.trans hkept5)))

/-- A request of a large block finds a record, or room for one, or is refused. -/
theorem pallocLarge_holds (h : Holds s b last max cl records) (hpos : 0 < n)
    (hroom : (hcoreMalloc env s n).1 = 0 ∨ firstUnused 5 records ≠ 0 ∨
      (last + 7) / 8 * 8 + largeSize ≤ b.addr + b.size) :
    ∃ p s' last' records', pallocLarge env s b.addr n = Except.ok (p, s') ∧
      Holds s' b last' max (cl.grant p n) records' ∧ ItemsKept s s' cl.items := by
  unfold pallocLarge
  rcases hcoreMalloc_cases env s n with hfail | ⟨c, s1, hrun, rfl, ho⟩
  · rw [hfail]
    refine ⟨0, _, last, records, rfl, ?_, fun _ _ _ _ _ => rfl⟩
    rw [Client.grant_zero]
    exact ⟨⟨h.layout, h.words⟩, h.ledger.mono (Nat.le_succ _)⟩
  · obtain ⟨h1, -⟩ := ho.structured h.toStructured
    have hne : c.addr ≠ 0 := ho.fits.pos.ne'
    rw [hrun] at hroom ⊢
    dsimp only at hroom ⊢
    rw [if_neg hne, h1.load_header (by decide), ok_bind, h1.freeRecord_head, ok_bind]
    by_cases hunused : firstUnused 5 records = 0
    · rw [if_neg (not_not_intro hunused)]
      have hroom' : (last + 7) / 8 * 8 + largeSize ≤ b.addr + b.size := by
        rcases hroom with hzero | hfirst | hroom
        · exact absurd hzero hne
        · exact absurd hunused hfirst
        · exact hroom
      obtain ⟨m, s2, s3, head, s4, s5, hsmall, hm, hstore, hload, hstore', hstore'', h5, hkept⟩ :=
        h.push ho hpos hroom'
      refine ⟨c.addr, s5, _, _, ?_, h5, hkept⟩
      rw [hsmall, ok_bind]
      dsimp only
      rw [if_neg hm, hstore, ok_bind, hload, ok_bind, hstore', ok_bind, hstore'']
      rfl
    · obtain ⟨pre, post, hsplit⟩ := firstUnused_split rfl hunused
      rw [if_pos hunused]
      rw [hsplit] at h
      obtain ⟨hstore, h2, hkept⟩ := h.reuse ho hpos
      exact ⟨c.addr, _, _, _, bind_of_ok hstore rfl, h2, hkept⟩

/-- A request finds room in the block of the pool, or an unused record, or is refused. -/
theorem pnalloc_holds (h : Holds s b last max cl records) (hroom : FindsRoom env s b.addr n) :
    ∃ p s' last' records', pnalloc env s b.addr n = Except.ok (p, s') ∧
      Holds s' b last' max (cl.grant p n) records' ∧ ItemsKept s s' cl.items := by
  simp only [FindsRoom, h.words.max, h.words.last, h.words.bound, h.freeRecord_head] at hroom
  unfold pnalloc
  rw [h.not_customed, ok_bind, if_neg Bool.false_ne_true, h.load_max, ok_bind]
  split at hroom
  · next hle =>
    obtain ⟨hlayout, hsmall, hitems, hrecords⟩ := h.layout.carve (le_refl last) hroom
    have hne : last ≠ 0 := by
      have hheader := h.layout.header
      unfold poolSize at hheader
      omega
    have h2 := h.setLast hlayout
    rw [if_pos hle]
    refine ⟨last, _, last + n, records, h.pallocSmall_of_room rfl hroom, ⟨⟨?_, ?_⟩, h.ledger⟩,
      h.kept_last⟩
    · rw [Client.grant_items hne]
      exact h2.layout.addItem (Or.inl hsmall) hitems fun r hr => (hrecords r hr).symm
    · rw [Client.grant_cleanups]
      exact h2.words
  · next hlarge =>
    rw [if_neg hlarge]
    refine h.pallocLarge_holds (by omega) (hroom.imp_right (Or.imp_left fun hfree hzero => ?_))
    exact hfree (by rw [hzero])

/-- The callers write into what they hold. -/
theorem write (h : Holds s b last max cl records) {x : Range} (hx : x ∈ cl.user) {a : ℕ}
    {bytes : List UInt8} (hstart : x.addr ≤ a) (hend : a + bytes.length ≤ x.addr + x.size) :
    store s.heap a bytes = Except.ok (s.heap.withMem (writeAt s.heap.mem a bytes)) ∧
      Holds ⟨s.heap.withMem (writeAt s.heap.mem a bytes), s.log⟩ b last max cl records ∧
      ∀ y : Range, y.Apart x → y.Kept s.heap.mem (writeAt s.heap.mem a bytes) := by
  have hitem : x ∈ cl.items := List.mem_append_left _ hx
  have hkept : ∀ y : Range, y.Apart x → y.Kept s.heap.mem (writeAt s.heap.mem a bytes) :=
    fun y hy => Range.Apart.kept (hy.symm.mono hstart hend).symm
  refine ⟨store_of_owns ((h.layout.owns hitem).mono hstart hend),
    ⟨⟨h.layout, h.words.congr ?_ ?_ ?_⟩, h.ledger⟩, hkept⟩
  · exact hkept _ (h.layout.apart_header hitem).symm
  · exact fun r hr => hkept _ (h.layout.recordApart x hitem r hr).symm
  · obtain ⟨-, -, hcross⟩ := List.pairwise_append.mp h.layout.apart
    exact fun c hc => hkept _ (hcross x hx _ (List.mem_map_of_mem hc)).symm

end Holds

/-- The walk of `hcore_pfree` ends at the record of `p`, or finds none. -/
theorem Structured.freeLarge_cases {s : Proc} {b : Block} {last max p fuel head : ℕ} {cl : Client}
    {records rest : List Record} (h : Structured s b last max cl records)
    (hsub : ∀ r ∈ rest, r ∈ records) (hfuel : rest.length < fuel)
    (hchain : Chained s.heap.mem 0 head (rest.map Record.addr)) :
    (∃ pre r post, rest = pre ++ r :: post ∧ r.alloc = p ∧ freeLarge s p fuel head = (do
        let s ← hcoreFree s p
        let s ← s.store (r.addr + 8) 0
        pure (true, s))) ∨
      (∀ r ∈ rest, r.alloc ≠ p) ∧ freeLarge s p fuel head = Except.ok (false, s) := by
  induction rest generalizing fuel head with
  | nil =>
    obtain ⟨fuel, rfl⟩ := Nat.exists_eq_add_of_lt hfuel
    have hzero : head = 0 := hchain
    refine Or.inr ⟨fun r hr => absurd hr List.not_mem_nil, ?_⟩
    rw [freeLarge, if_pos hzero]
    rfl
  | cons r rest ih =>
    obtain ⟨fuel, rfl⟩ : ∃ k, fuel = k + 1 := ⟨fuel - 1, by omega⟩
    obtain ⟨rfl, hne, hchain⟩ := hchain
    obtain ⟨hnext, halloc⟩ := h.load_record (hsub r List.mem_cons_self)
    rw [freeLarge, if_neg hne, halloc, ok_bind]
    by_cases hp : p = r.alloc
    · rw [if_pos hp, ← hp]
      exact Or.inl ⟨[], r, rest, rfl, hp.symm, rfl⟩
    · rw [if_neg hp, hnext, ok_bind]
      rw [List.length_cons] at hfuel
      have hless : rest.length < fuel := by omega
      rcases ih (fun t ht => hsub t (List.mem_cons_of_mem _ ht)) hless hchain with
        ⟨pre, t, post, rfl, ht, hrun⟩ | ⟨hnone, hrun⟩
      · exact Or.inl ⟨r :: pre, t, post, rfl, ht, hrun⟩
      · exact Or.inr ⟨List.forall_mem_cons.mpr ⟨fun heq => hp heq.symm, hnone⟩, hrun⟩

/-- There are fewer records than addresses. -/
theorem Structured.records_lt {s : Proc} {b : Block} {last max : ℕ} {cl : Client}
    {records : List Record} (h : Structured s b last max cl records) :
    records.length < addresses := by
  have hnodup : (records.map Record.addr).Nodup := by
    refine List.pairwise_map.mpr (h.layout.recordsApart.imp ?_)
    intro r t hapart heq
    unfold Range.Apart Record.range largeSize at hapart
    dsimp only at hapart
    omega
  have hlt := length_lt_of_nodup (by decide : 0 < addresses) hnodup fun a ha => by
    obtain ⟨r, hr, rfl⟩ := List.mem_map.mp ha
    have hin := h.layout.inside r hr
    have htop := h.layout.top_lt
    have hfits := h.layout.fits
    unfold poolSize at hin
    unfold addresses
    exact ⟨by omega, by omega⟩
  rwa [List.length_map] at hlt

/-- A release ends what lay at the start of a large block, or changes nothing. -/
theorem Holds.pfree_holds {env : Env} {s : Proc} {b : Block} {last max p : ℕ} {cl : Client}
    {records : List Record} (h : Holds s b last max cl records)
    (halone : ∀ c ∈ heldBlocks records, c.addr = p → ∀ x ∈ cl.items, x.addr ≠ c.addr) :
    ∃ ok s' records', pfree env s b.addr p = Except.ok (ok, s') ∧
      Holds s' b last max cl records' ∧ ItemsKept s s' cl.items := by
  have hrun : pfree env s b.addr p =
      freeLarge s p addresses (wordAt s.heap.mem (b.addr + largeOffset)) := by
    unfold pfree
    rw [h.not_customed, ok_bind, if_neg Bool.false_ne_true, h.load_header (by decide), ok_bind]
  rcases h.freeLarge_cases (fun _ hr => hr) h.records_lt h.words.large with
    ⟨pre, ⟨a, blk⟩, post, rfl, hp, hfree⟩ | ⟨-, hnone⟩
  · have hr : (⟨a, blk⟩ : Record) ∈ pre ++ ⟨a, blk⟩ :: post :=
      List.mem_append_right _ List.mem_cons_self
    have hnull : Record.alloc ⟨a, none⟩ < 2 ^ 64 := Nat.two_pow_pos 64
    obtain ⟨hwords, hkept⟩ : Words (s.put (a + 8) 0).heap.mem b last max (pre ++ ⟨a, none⟩ :: post)
        cl.cleanups ∧ ItemsKept s (s.put (a + 8) 0) cl.items := h.setAlloc hnull
    rw [hrun, hfree]
    cases blk with
    | none =>
      have hzero : p = 0 := hp.symm
      have hown : s.heap.Owns (a + 8) 8 :=
        (h.layout.owns_record hr).mono (Nat.le_add_right a 8) (le_refl (a + 16))
      rw [hzero, hcoreFree_zero, ok_bind, Proc.store_of_owns hown]
      exact ⟨true, _, _, rfl, ⟨⟨h.layout, hwords⟩, h.ledger⟩, hkept⟩
    | some c =>
      have hc := mem_heldBlocks hr rfl
      have haddr : c.addr = p := hp
      obtain ⟨s1, hfree1, hmem, hcalls, hlive, hlog⟩ := hcoreFree_live (h.layout.held c hc).1
      have hlayout := h.layout.release hlive (halone c hc haddr)
      have hput : (s1.put (a + 8) 0).heap.mem = (s.put (a + 8) 0).heap.mem := by
        rw [put_mem, put_mem, hmem]
      have hown : s1.heap.Owns (a + 8) 8 := by
        have hr' : (⟨a, none⟩ : Record) ∈ pre ++ ⟨a, none⟩ :: post :=
          List.mem_append_right _ List.mem_cons_self
        exact (hlayout.owns_record hr').mono (Nat.le_add_right a 8) (le_refl (a + 16))
      rw [← haddr, hfree1, ok_bind, Proc.store_of_owns hown]
      refine ⟨true, _, _, rfl, ⟨⟨hlayout, ?_⟩, ?_⟩, ?_⟩
      · rw [hput]
        exact hwords
      · rw [put_log, put_calls, hlog, hcalls]
        exact h.ledger.release (heldBlocks_middle pre post a c)
      · intro x hx
        unfold Range.Kept
        rw [hput]
        exact hkept x hx
  · exact ⟨false, s, records, hrun.trans hnone, h, fun _ _ => Keeps.refl _ _ _⟩

end HCore.PoolModel
