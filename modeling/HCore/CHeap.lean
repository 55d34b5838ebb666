import HCore.LittleEndian
import HCore.Machine
import Mathlib.Data.List.Pairwise
import Mathlib.Order.Interval.Finset.Nat

/-!
The heap of a C program. An allocator is any function that finds room for a
block or refuses it; the bytes of a new block are arbitrary. Memory is
addressed by bytes, and an access that no live block covers is undefined, as is
the release of anything that is not one. What lies in a block changes only by
writing into it, since live blocks are apart.
-/

namespace HCore.CHeap

open Machine LittleEndian

/-- A block, with the number of the request that made it. -/
structure Block where
  id : ℕ
  addr : ℕ
  size : ℕ
  deriving DecidableEq, Repr

namespace Block

/-- Between two blocks there is at least the size that the allocator keeps. -/
def Apart (b c : Block) : Prop := b.addr + b.size < c.addr ∨ c.addr + c.size < b.addr

def Covers (b : Block) (a n : ℕ) : Prop := b.addr ≤ a ∧ a + n ≤ b.addr + b.size

instance (b : Block) (a n : ℕ) : Decidable (b.Covers a n) := inferInstanceAs (Decidable (_ ∧ _))

theorem Apart.symm {b c : Block} (h : b.Apart c) : c.Apart b := Or.symm h

end Block

/-- Room for a block of `n` bytes. -/
structure Fits (live : List Block) (a n : ℕ) : Prop where
  pos : 0 < a
  aligned : a % 16 = 0
  top : a + n < 2 ^ 64
  apart : ∀ b ∈ live, b.addr + b.size < a ∨ a + n < b.addr

/-- An allocator: its answer to the request with this number, and the bytes
that a new block happens to have. -/
structure Allocator where
  place : ℕ → (live : List Block) → (n : ℕ) → Option { a : ℕ // Fits live a n }
  junk : ℕ → ℕ → UInt8

structure Heap where
  mem : ℕ → UInt8
  live : List Block
  calls : ℕ
  inRange : ∀ b ∈ live, 0 < b.addr ∧ b.addr + b.size < 2 ^ 64
  apart : live.Pairwise Block.Apart

/-- The bytes from `a` on. -/
def readAt (mem : ℕ → UInt8) (a n : ℕ) : List UInt8 := (List.range n).map fun i => mem (a + i)

def writeAt (mem : ℕ → UInt8) (a : ℕ) (bytes : List UInt8) : ℕ → UInt8 := fun x =>
  if a ≤ x then (bytes[x - a]?).getD (mem x) else mem x

/-- The 64-bit word at `a`. -/
def wordAt (mem : ℕ → UInt8) (a : ℕ) : ℕ := decode64 (readAt mem a 8)

theorem readAt_length (mem : ℕ → UInt8) (a n : ℕ) : (readAt mem a n).length = n := by
  rw [readAt, List.length_map, List.length_range]

theorem readAt_congr {mem mem' : ℕ → UInt8} {a n : ℕ} (h : ∀ i < n, mem' (a + i) = mem (a + i)) :
    readAt mem' a n = readAt mem a n := by
  apply List.map_congr_left
  intro i hi
  exact h i (List.mem_range.mp hi)

theorem writeAt_other {mem : ℕ → UInt8} {a x : ℕ} {bytes : List UInt8}
    (h : x < a ∨ a + bytes.length ≤ x) : writeAt mem a bytes x = mem x := by
  unfold writeAt
  split
  · rw [List.getElem?_eq_none (by omega), Option.getD_none]
  · rfl

theorem writeAt_same {mem : ℕ → UInt8} {a i : ℕ} {bytes : List UInt8} (h : i < bytes.length) :
    writeAt mem a bytes (a + i) = bytes[i] := by
  rw [writeAt, if_pos (Nat.le_add_right a i), Nat.add_sub_cancel_left,
    List.getElem?_eq_getElem h, Option.getD_some]

theorem readAt_writeAt {mem : ℕ → UInt8} {a : ℕ} {bytes : List UInt8} :
    readAt (writeAt mem a bytes) a bytes.length = bytes := by
  apply List.ext_getElem
  · exact readAt_length ..
  · intro i _ hi
    simp only [readAt, List.getElem_map, List.getElem_range, writeAt_same hi]

theorem wordAt_congr {mem mem' : ℕ → UInt8} {a : ℕ} (h : ∀ i < 8, mem' (a + i) = mem (a + i)) :
    wordAt mem' a = wordAt mem a := by
  rw [wordAt, wordAt, readAt_congr h]

theorem wordAt_other {mem : ℕ → UInt8} {a x : ℕ} {bytes : List UInt8}
    (h : x + 8 ≤ a ∨ a + bytes.length ≤ x) : wordAt (writeAt mem a bytes) x = wordAt mem x :=
  wordAt_congr fun i hi => writeAt_other (by omega)

theorem wordAt_same {mem : ℕ → UInt8} {a v : ℕ} (h : v < 2 ^ 64) :
    wordAt (writeAt mem a (encode64 v)) a = v := by
  have hread : readAt (writeAt mem a (encode64 v)) a 8 = encode64 v := readAt_writeAt
  rw [wordAt, hread, decode64_of_lt h]

theorem wordAt_lt (mem : ℕ → UInt8) (a : ℕ) : wordAt mem a < 2 ^ 64 := decode64_lt _

/-- A word is its two halves. -/
theorem wordAt_halves (mem : ℕ → UInt8) (a : ℕ) :
    wordAt mem a = decode32 (readAt mem a 4) + 2 ^ 32 * decode32 (readAt mem (a + 4) 4) := rfl

/-- The first half is overwritten. -/
theorem wordAt_low {mem : ℕ → UInt8} {a v : ℕ} :
    wordAt (writeAt mem a (encode32 v)) a = v % 2 ^ 32 + 2 ^ 32 * (wordAt mem a / 2 ^ 32) := by
  have hlow : readAt (writeAt mem a (encode32 v)) a 4 = encode32 v := readAt_writeAt
  have hhigh : readAt (writeAt mem a (encode32 v)) (a + 4) 4 = readAt mem (a + 4) 4 :=
    readAt_congr fun i _ => writeAt_other (by rw [encode32_length]; omega)
  have hlt := decode32_lt (readAt mem a 4)
  rw [wordAt_halves, hlow, hhigh, decode32_encode32, wordAt_halves mem]
  omega

theorem readAt_zero (mem : ℕ → UInt8) (a n : ℕ) (h : ∀ i < n, mem (a + i) = 0) :
    readAt mem a n = List.replicate n 0 := by
  apply List.ext_getElem
  · rw [readAt_length, List.length_replicate]
  · intro i hi _
    rw [readAt_length] at hi
    simp only [readAt, List.getElem_map, List.getElem_range, List.getElem_replicate, h i hi]

theorem wordAt_zero {mem : ℕ → UInt8} {a : ℕ} (h : ∀ i < 8, mem (a + i) = 0) : wordAt mem a = 0 := by
  rw [wordAt, readAt_zero mem a 8 h]
  rfl

/-- The `n` bytes from `a` on are the same. -/
def Keeps (mem mem' : ℕ → UInt8) (a n : ℕ) : Prop := ∀ x, a ≤ x → x < a + n → mem' x = mem x

namespace Keeps

variable {mem mem' mem'' : ℕ → UInt8} {a n k m : ℕ}

theorem refl (mem : ℕ → UInt8) (a n : ℕ) : Keeps mem mem a n := fun _ _ _ => rfl

theorem trans (h : Keeps mem mem' a n) (h' : Keeps mem' mem'' a n) : Keeps mem mem'' a n :=
  fun x hx hx' => (h' x hx hx').trans (h x hx hx')

theorem word (h : Keeps mem mem' a n) (hk : k + 8 ≤ n) :
    wordAt mem' (a + k) = wordAt mem (a + k) :=
  wordAt_congr fun i hi => h _ (by omega) (by omega)

theorem read (h : Keeps mem mem' a n) (hm : m ≤ n) : readAt mem' a m = readAt mem a m :=
  readAt_congr fun i hi => h _ (by omega) (by omega)

theorem of_writeAt {bytes : List UInt8}
    (h : n = 0 ∨ bytes.length = 0 ∨ a + n ≤ k ∨ k + bytes.length ≤ a) :
    Keeps mem (writeAt mem k bytes) a n := fun x hx hx' => writeAt_other (by omega)

end Keeps

namespace Heap

/-- The heap with other contents. -/
def withMem (h : Heap) (mem : ℕ → UInt8) : Heap := { h with mem }

@[simp] theorem withMem_live (h : Heap) (mem : ℕ → UInt8) : (h.withMem mem).live = h.live := rfl

@[simp] theorem withMem_mem (h : Heap) (mem : ℕ → UInt8) : (h.withMem mem).mem = mem := rfl

@[simp] theorem withMem_calls (h : Heap) (mem : ℕ → UInt8) : (h.withMem mem).calls = h.calls := rfl

def Owns (h : Heap) (a n : ℕ) : Prop := ∃ b ∈ h.live, b.Covers a n

instance (h : Heap) (a n : ℕ) : Decidable (h.Owns a n) := inferInstanceAs (Decidable (∃ _ ∈ _, _))

@[simp] theorem withMem_owns (h : Heap) (mem : ℕ → UInt8) (a n : ℕ) :
    (h.withMem mem).Owns a n ↔ h.Owns a n := Iff.rfl

variable {h h' : Heap} {a n : ℕ} {b : Block}

theorem Owns.mono {a' n' : ℕ} (hown : h.Owns a n) (hle : a ≤ a') (hend : a' + n' ≤ a + n) :
    h.Owns a' n' := by
  obtain ⟨b, hb, hstart, hlast⟩ := hown
  exact ⟨b, hb, by omega, by omega⟩

/-- Two live blocks at one address are one block. -/
theorem block_unique {c : Block} (hb : b ∈ h.live) (hc : c ∈ h.live)
    (haddr : b.addr = c.addr) : b = c := by
  by_contra hne
  have : Std.Symm Block.Apart := ⟨fun _ _ hab => hab.symm⟩
  rcases h.apart.forall hb hc hne with hlt | hlt <;> omega

theorem apart_of_ne {c : Block} (hb : b ∈ h.live) (hc : c ∈ h.live) (hne : b ≠ c) : b.Apart c := by
  have : Std.Symm Block.Apart := ⟨fun _ _ hab => hab.symm⟩
  exact h.apart.forall hb hc hne

/-- No other block has its address. -/
theorem filter_addr (h : Heap) (hb : b ∈ h.live) : h.live.filter (·.addr = b.addr) = [b] := by
  obtain ⟨pre, post, hsplit⟩ := List.append_of_mem hb
  have hapart := h.apart
  rw [hsplit] at hapart
  obtain ⟨-, hpost, hpre⟩ := List.pairwise_append.mp hapart
  obtain ⟨hpost, -⟩ := List.pairwise_cons.mp hpost
  have hpre' : pre.filter (·.addr = b.addr) = [] := by
    apply List.filter_eq_nil_iff.mpr
    intro c hc
    rw [decide_eq_true_eq]
    rcases hpre c hc b List.mem_cons_self with hlt | hlt <;> omega
  have hpost' : post.filter (·.addr = b.addr) = [] := by
    apply List.filter_eq_nil_iff.mpr
    intro c hc
    rw [decide_eq_true_eq]
    rcases hpost c hc with hlt | hlt <;> omega
  have hcons : (b :: post).filter (·.addr = b.addr) = b :: post.filter (·.addr = b.addr) :=
    List.filter_cons_of_pos (by simp)
  rw [hsplit, List.filter_append, hcons, hpre', hpost', List.nil_append]

end Heap

/-- `malloc(n)`; NULL is 0. -/
def malloc (A : Allocator) (h : Heap) (n : ℕ) : ℕ × Heap :=
  match A.place h.calls h.live n with
  | none => (0, { h with calls := h.calls + 1 })
  | some ⟨a, ha⟩ =>
    (a, {
      mem := fun x => if a ≤ x ∧ x < a + n then A.junk h.calls x else h.mem x
      live := ⟨h.calls, a, n⟩ :: h.live
      calls := h.calls + 1
      inRange := List.forall_mem_cons.mpr ⟨⟨ha.pos, ha.top⟩, h.inRange⟩
      apart := List.pairwise_cons.mpr ⟨fun b hb => (ha.apart b hb).symm, h.apart⟩ })

/-- `free(a)`. -/
def free (h : Heap) (a : ℕ) : Exec Heap :=
  if a = 0 then pure h
  else if ∃ b ∈ h.live, b.addr = a then
    pure { h with
      live := h.live.filter (·.addr ≠ a)
      inRange := fun b hb => h.inRange b (List.mem_of_mem_filter hb)
      apart := h.apart.filter _ }
  else undefined

/-- The bytes at `a` are overwritten. -/
def store (h : Heap) (a : ℕ) (bytes : List UInt8) : Exec Heap :=
  if h.Owns a bytes.length then pure (h.withMem (writeAt h.mem a bytes)) else undefined

def load64 (h : Heap) (a : ℕ) : Exec ℕ := if h.Owns a 8 then pure (wordAt h.mem a) else undefined

def store64 (h : Heap) (a v : ℕ) : Exec Heap := store h a (encode64 v)

/-- `memset(a, 0, n)`. -/
def memzero (h : Heap) (a n : ℕ) : Exec Heap := store h a (List.replicate n 0)

/-- `memcpy(dst, src, n)`: blocks that overlap are undefined. -/
def memcpy (h : Heap) (dst src n : ℕ) : Exec Heap :=
  if h.Owns src n ∧ (dst + n ≤ src ∨ src + n ≤ dst) then store h dst (readAt h.mem src n)
  else undefined

section

variable {A : Allocator} {h h' : Heap} {a n v x : ℕ} {bytes : List UInt8} {b : Block}

/-- A request gets a block that is apart from all others, or nothing. -/
theorem malloc_cases (hrun : malloc A h n = (a, h')) :
    (a = 0 ∧ h' = { h with calls := h.calls + 1 }) ∨
      (Fits h.live a n ∧ h'.live = ⟨h.calls, a, n⟩ :: h.live ∧ h'.calls = h.calls + 1 ∧
        ∀ x, x < a ∨ a + n ≤ x → h'.mem x = h.mem x) := by
  unfold malloc at hrun
  split at hrun
  · cases hrun
    exact Or.inl ⟨rfl, rfl⟩
  · next a' ha _ =>
    cases hrun
    refine Or.inr ⟨ha, rfl, rfl, fun x hx => if_neg (by omega)⟩

theorem store_of_owns (hown : h.Owns a bytes.length) :
    store h a bytes = Except.ok (h.withMem (writeAt h.mem a bytes)) := if_pos hown

theorem store64_of_owns (hown : h.Owns a 8) :
    store64 h a v = Except.ok (h.withMem (writeAt h.mem a (encode64 v))) := if_pos hown

theorem load64_of_owns (hown : h.Owns a 8) : load64 h a = Except.ok (wordAt h.mem a) := if_pos hown

theorem load64_eq_ok {v : ℕ} (hload : load64 h a = Except.ok v) : wordAt h.mem a = v := by
  unfold load64 at hload
  split at hload
  · exact Except.ok.inj hload
  · cases hload

theorem memzero_of_owns (hown : h.Owns a n) :
    memzero h a n = Except.ok (h.withMem (writeAt h.mem a (List.replicate n 0))) :=
  if_pos (by rwa [List.length_replicate])

theorem memcpy_of_owns {src : ℕ} (hdst : h.Owns a n) (hsrc : h.Owns src n)
    (hapart : a + n ≤ src ∨ src + n ≤ a) :
    memcpy h a src n = Except.ok (h.withMem (writeAt h.mem a (readAt h.mem src n))) := by
  rw [memcpy, if_pos ⟨hsrc, hapart⟩, store_of_owns (by rwa [readAt_length])]

theorem free_live (hb : b ∈ h.live) :
    ∃ h', free h b.addr = Except.ok h' ∧ h'.mem = h.mem ∧ h'.calls = h.calls ∧
      ∀ c, c ∈ h'.live ↔ c ∈ h.live ∧ c ≠ b := by
  have hpos := (h.inRange b hb).1
  refine ⟨_, (if_neg hpos.ne').trans (if_pos ⟨b, hb, rfl⟩), rfl, rfl, ?_⟩
  intro c
  simp only [List.mem_filter, ne_eq, decide_eq_true_eq]
  refine and_congr_right fun hc => not_congr ⟨fun haddr => h.block_unique hc hb haddr, ?_⟩
  rintro rfl
  rfl

end

/-- A list in memory: from `head` on every node has the address of the next one
at `link`, and the last one has NULL. -/
def Chained (mem : ℕ → UInt8) (link : ℕ) : ℕ → List ℕ → Prop
  | head, [] => head = 0
  | head, a :: rest => head = a ∧ a ≠ 0 ∧ Chained mem link (wordAt mem (a + link)) rest

section

variable {mem mem' : ℕ → UInt8} {link head a : ℕ} {nodes : List ℕ}

theorem Chained.congr (h : Chained mem link head nodes)
    (hsame : ∀ a ∈ nodes, wordAt mem' (a + link) = wordAt mem (a + link)) :
    Chained mem' link head nodes := by
  induction nodes generalizing head with
  | nil => exact h
  | cons a rest ih =>
    obtain ⟨hhead, hne, hrest⟩ := h
    refine ⟨hhead, hne, ?_⟩
    rw [hsame a List.mem_cons_self]
    exact ih hrest fun c hc => hsame c (List.mem_cons_of_mem _ hc)

theorem Chained.push (h : Chained mem link head nodes) (hne : a ≠ 0)
    (hnext : wordAt mem (a + link) = head) : Chained mem link a (a :: nodes) := by
  refine ⟨rfl, hne, ?_⟩
  rwa [hnext]

theorem Chained.ne_zero (h : Chained mem link head nodes) (ha : a ∈ nodes) : a ≠ 0 := by
  induction nodes generalizing head with
  | nil => cases ha
  | cons c rest ih =>
    obtain ⟨-, hne, hrest⟩ := h
    rcases List.mem_cons.mp ha with rfl | ha
    · exact hne
    · exact ih hrest ha

end

/-- There are fewer different nodes than addresses. -/
theorem length_lt_of_nodup {nodes : List ℕ} {n : ℕ} (hn : 0 < n) (h : nodes.Nodup)
    (hbound : ∀ a ∈ nodes, a ≠ 0 ∧ a < n) : nodes.length < n := by
  have hsub : nodes.toFinset ⊆ Finset.Ioo 0 n := by
    intro a ha
    obtain ⟨hne, hlt⟩ := hbound a (List.mem_toFinset.mp ha)
    exact Finset.mem_Ioo.mpr ⟨Nat.pos_of_ne_zero hne, hlt⟩
  have hcard := Finset.card_le_card hsub
  rw [List.toFinset_card_of_nodup h, Nat.card_Ioo] at hcard
  omega

def emptyHeap : Heap := ⟨fun _ => 0, [], 0, by simp, List.Pairwise.nil⟩

/-- The end of the highest block. -/
def top (live : List Block) : ℕ := live.foldr (fun b n => max (b.addr + b.size) n) 0

theorem le_top {live : List Block} {b : Block} (hb : b ∈ live) : b.addr + b.size ≤ top live := by
  induction live with
  | nil => cases hb
  | cons c live ih =>
    rcases List.mem_cons.mp hb with rfl | hb
    · exact le_max_left _ _
    · exact (ih hb).trans (le_max_right _ _)

/-- An allocator that puts every block above all others, as long as there are
addresses. -/
def bumpAllocator : Allocator where
  place _ live n :=
    if h : 16 * (top live / 16 + 1) + n < 2 ^ 64 then
      some ⟨16 * (top live / 16 + 1), by
        refine ⟨by omega, by omega, h, fun b hb => Or.inl ?_⟩
        have hle := le_top hb
        omega⟩
    else none
  junk _ _ := 0

end HCore.CHeap
