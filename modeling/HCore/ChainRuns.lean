import HCore.ChainPool

/-!
Runs of a pool with its list of links. A link that is given back is the first
to be handed out again, with the buffer and the data that it was left with.
The pool makes a new link only when the list is empty.
-/

namespace HCore.ChainPool

open Machine LittleEndian CHeap PoolModel PoolService

/-- `pool->chain` for a list of links. -/
def headAddr : List Link → ℕ
  | [] => 0
  | l :: _ => l.addr

/-- The links of the list lead from one to the next, and have no handler. -/
def Linked : List Link → Prop
  | [] => True
  | l :: rest => l.next = headAddr rest ∧ l.free = 0 ∧ Linked rest

/-- The link at `p` that is handed out when the list is `idle`. -/
def handedOut (idle : List Link) (p : ℕ) : Link :=
  match idle with
  | [] => ⟨p, 0, 0, 0, 0⟩
  | l :: _ => { l with next := 0, free := 0 }

/-- The buffer of the first link of the list. -/
def heldBuf : List Link → ℕ
  | [] => 0
  | l :: _ => l.buf

/-- The memory after the handler of the link `cl` has run, if it has one. -/
def handled (hs : Handlers) (s : Proc) (cl : ℕ) : ℕ → UInt8 :=
  let fn := wordAt s.heap.mem (cl + Field.free.offset)
  if fn = 0 then s.heap.mem else writeAt s.heap.mem cl (hs.bytes fn cl s)

/-- The link `cl` after it has been given back. -/
def givenBack (hs : Handlers) (s : Proc) (cl head : ℕ) : Link :=
  { Link.ofMem (handled hs s cl) cl with next := head, free := 0 }

/-- A link that is in use, and what else the pool has handed out. -/
structure Focus (pool head : ℕ) (s : Proc) (l : Link) (items : List Range) : Prop where
  pooled : Pooled pool head s (l.range :: items)
  stored : l.Stored s.heap.mem

section

variable {env : Env} {hs : Handlers} {pool head a v n : ℕ} {s s' : Proc} {l : Link}
  {items items' : List Range} {idle : List Link} {x : Range} {mem mem' : ℕ → UInt8}

theorem Field.offset_le (f : Field) : f.offset + 8 ≤ chainSize := by
  cases f
  all_goals decide

/-- Two fields do not overlap. -/
theorem Field.apart {f g : Field} (h : f ≠ g) :
    f.offset + 8 ≤ g.offset ∨ g.offset + 8 ≤ f.offset := by
  revert h
  cases f
  all_goals cases g
  all_goals decide

namespace Link

@[simp] theorem range_addr (l : Link) : l.range.addr = l.addr := rfl

@[simp] theorem range_size (l : Link) : l.range.size = chainSize := rfl

@[simp] theorem set_addr (l : Link) (v : ℕ) (f : Field) : (l.set v f).addr = l.addr := by
  cases f
  all_goals rfl

theorem get_set_self (l : Link) (v : ℕ) (f : Field) : (l.set v f).get f = v := by
  cases f
  all_goals rfl

theorem get_set_other {f g : Field} (h : g ≠ f) : (l.set v f).get g = l.get g := by
  revert h
  cases f
  all_goals cases g
  all_goals first
    | exact fun h => absurd rfl h
    | exact fun _ => rfl

theorem ofMem_stored (mem : ℕ → UInt8) (a : ℕ) : (ofMem mem a).Stored mem := by
  intro f
  cases f
  all_goals rfl

theorem Stored.eq_ofMem (h : l.Stored mem) : l = ofMem mem l.addr := by
  have hbuf := h .buf
  have hnext := h .next
  have hfree := h .free
  have hdata := h .data
  cases l
  unfold ofMem
  congr 1
  · exact hbuf.symm
  · exact hnext.symm
  · exact hfree.symm
  · exact hdata.symm

theorem Stored.lt (h : l.Stored mem) (f : Field) : l.get f < 2 ^ 64 := by
  rw [← h f]
  exact wordAt_lt mem _

theorem Stored.congr (h : l.Stored mem) (hkept : l.range.Kept mem mem') : l.Stored mem' := by
  intro f
  rw [← h f]
  exact Keeps.word hkept f.offset_le

/-- Writing one field leaves the others alone. -/
theorem Stored.set (h : l.Stored mem) (f : Field) (hv : v < 2 ^ 64) :
    (l.set v f).Stored (writeAt mem (l.addr + f.offset) (encode64 v)) := by
  intro g
  rw [set_addr]
  by_cases hg : g = f
  · rw [hg, get_set_self]
    exact wordAt_same hv
  · rw [get_set_other hg, ← h g]
    apply wordAt_other
    rw [encode64_length]
    have hapart := Field.apart hg
    omega

end Link

namespace Focus

theorem range_mem (_ : Focus pool head s l items) : l.range ∈ l.range :: items :=
  List.mem_cons_self

theorem others_apart (h : Focus pool head s l items) (hx : x ∈ items) : x.Apart l.range := by
  obtain ⟨hapart, -⟩ := List.pairwise_cons.mp h.pooled.apart
  exact (hapart x hx).symm

theorem addr_ne (h : Focus pool head s l items) : l.addr ≠ 0 :=
  (h.pooled.addr_pos h.range_mem).1.ne'

theorem addr_lt (h : Focus pool head s l items) : l.addr < 2 ^ 64 := by
  obtain ⟨-, hlt⟩ := h.pooled.addr_pos h.range_mem
  rw [Link.range_addr] at hlt
  omega

theorem owns_field (h : Focus pool head s l items) (f : Field) :
    s.heap.Owns (l.addr + f.offset) 8 := by
  have hle := f.offset_le
  refine (h.pooled.owns h.range_mem).mono (Nat.le_add_right _ _) ?_
  rw [Link.range_addr, Link.range_size]
  omega

theorem load (h : Focus pool head s l items) (f : Field) :
    s.load (l.addr + f.offset) = Except.ok (l.get f) := by
  rw [← h.stored f]
  exact Proc.load_of_owns (h.owns_field f)

theorem set (h : Focus pool head s l items) (f : Field) (hv : v < 2 ^ 64) :
    ∃ s', s.store (l.addr + f.offset) v = Except.ok s' ∧ Focus pool head s' (l.set v f) items ∧
      ItemsKept s s' items := by
  have hle := f.offset_le
  have hend : l.addr + f.offset + (encode64 v).length ≤ l.range.addr + l.range.size := by
    rw [encode64_length, Link.range_addr, Link.range_size]
    omega
  obtain ⟨hpooled, hkept⟩ := h.pooled.write h.range_mem (Nat.le_add_right _ f.offset) hend
  refine ⟨_, Proc.store_of_owns (h.owns_field f), ⟨?_, h.stored.set f hv⟩,
    fun x hx => hkept x (h.others_apart hx)⟩
  unfold Link.range at hpooled ⊢
  rwa [Link.set_addr]

theorem setHead (h : Focus pool head s l items) (hv : v < 2 ^ 64) :
    ∃ s', s.store (pool + chainOffset) v = Except.ok s' ∧ Focus pool v s' l items ∧
      ItemsKept s s' items := by
  obtain ⟨s', hstore, hpooled, hkept⟩ := h.pooled.setHead hv
  exact ⟨s', hstore, ⟨hpooled, h.stored.congr (hkept _ h.range_mem)⟩,
    fun x hx => hkept x (List.mem_cons_of_mem _ hx)⟩

/-- The call of the handler of a link, if it has one. -/
theorem handle (h : Focus pool head s l items) (hs : Handlers) :
    ∃ s', (if l.free ≠ 0 then hs.run l.free l.addr s else pure s) = Except.ok s' ∧
      s'.heap.mem = handled hs s l.addr ∧
      Focus pool head s' (Link.ofMem (handled hs s l.addr) l.addr) items ∧ ItemsKept s s' items := by
  have hfree : wordAt s.heap.mem (l.addr + Field.free.offset) = l.free := h.stored .free
  unfold handled
  rw [hfree]
  dsimp only
  by_cases hzero : l.free = 0
  · rw [if_neg (not_not_intro hzero), if_pos hzero]
    refine ⟨s, rfl, rfl, ⟨h.pooled, Link.ofMem_stored _ _⟩, fun x _ => Keeps.refl _ _ _⟩
  · have howns : s.heap.Owns l.addr chainSize := h.pooled.owns h.range_mem
    rw [if_pos hzero, if_neg hzero, hs.writes _ _ _ howns]
    have hend : l.addr + (hs.bytes l.free l.addr s).length ≤ l.range.addr + l.range.size := by
      rw [hs.length]
      exact le_refl _
    obtain ⟨hpooled, hkept⟩ := h.pooled.write h.range_mem (le_refl l.addr) hend
    exact ⟨_, rfl, rfl, ⟨hpooled, Link.ofMem_stored _ _⟩, fun x hx => hkept x (h.others_apart hx)⟩

end Focus

/-- The first link of the list is handed out. -/
theorem allocChain_idle (h : Focus pool l.addr s l items) :
    ∃ s', allocChain env s pool = Except.ok (l.addr, s') ∧
      Focus pool l.next s' { l with next := 0, free := 0 } items ∧ ItemsKept s s' items := by
  obtain ⟨s₁, hstore₁, h₁, hkept₁⟩ := h.setHead (h.stored.lt .next)
  obtain ⟨s₂, hstore₂, h₂, hkept₂⟩ := h₁.set (v := 0) .next (by decide)
  obtain ⟨s₃, hstore₃, h₃, hkept₃⟩ := h₂.set (v := 0) .free (by decide)
  refine ⟨s₃, ?_, h₃, (hkept₁.trans hkept₂).trans hkept₃⟩
  unfold allocChain
  rw [h.pooled.load_head, ok_bind, if_pos h.addr_ne, h.load .next, ok_bind]
  exact bind_of_ok hstore₁ (bind_of_ok hstore₂ (bind_of_ok hstore₃ rfl))

/-- A new link has NULL in every field. -/
theorem allocChain_fresh (h : Pooled pool 0 s items) (hroom : FindsRoom env s pool chainSize) :
    ∃ p s', allocChain env s pool = Except.ok (p, s') ∧ ItemsKept s s' items ∧
      (p = 0 ∧ Pooled pool 0 s' items ∨ Focus pool 0 s' ⟨p, 0, 0, 0, 0⟩ items) := by
  obtain ⟨p, s', hrun, h', hkept, hzero⟩ := h.pcalloc hroom
  refine ⟨p, s', ?_, hkept, ?_⟩
  · unfold allocChain
    rw [h.load_head, ok_bind, if_neg (not_not_intro rfl)]
    exact hrun
  · by_cases hp : p = 0
    · rw [granted, if_pos hp] at h'
      exact Or.inl ⟨hp, h'⟩
    · rw [granted, if_neg hp] at h'
      refine Or.inr ⟨h', fun f => ?_⟩
      have hle := f.offset_le
      have hword : wordAt s'.heap.mem (p + f.offset) = 0 := by
        apply wordAt_zero
        intro i hi
        rw [Nat.add_assoc]
        exact hzero hp _ (by omega)
      cases f
      all_goals exact hword

/-- A link is given back: the list begins with it. -/
theorem freeChainHoldBuf_spec (h : Focus pool head s l items) (hs : Handlers) :
    ∃ s', freeChainHoldBuf hs s pool l.addr = Except.ok s' ∧
      Focus pool l.addr s' (givenBack hs s l.addr head) items ∧ ItemsKept s s' items := by
  have hhead : head < 2 ^ 64 := by
    rw [← h.pooled.head]
    exact wordAt_lt _ _
  obtain ⟨s₁, hrun₁, -, h₁, hkept₁⟩ := h.handle hs
  obtain ⟨s₂, hstore₂, h₂, hkept₂⟩ := h₁.set (v := 0) .free (by decide)
  obtain ⟨s₃, hstore₃, h₃, hkept₃⟩ := h₂.set .next hhead
  obtain ⟨s₄, hstore₄, h₄, hkept₄⟩ := h₃.setHead h.addr_lt
  refine ⟨s₄, ?_, h₄, ((hkept₁.trans hkept₂).trans hkept₃).trans hkept₄⟩
  unfold freeChainHoldBuf
  rw [h.load .free, ok_bind]
  dsimp only
  rw [ite_bind]
  refine bind_of_ok hrun₁ (bind_of_ok hstore₂ ?_)
  rw [h₂.pooled.load_head, ok_bind]
  exact bind_of_ok hstore₃ hstore₄

theorem freeChain_spec (h : Focus pool head s l items) (hs : Handlers) :
    ∃ s', freeChain hs s pool l.addr = Except.ok s' ∧
      Focus pool l.addr s' { givenBack hs s l.addr head with buf := 0 } items ∧
      ItemsKept s s' items := by
  obtain ⟨s₁, hrun₁, h₁, hkept₁⟩ := freeChainHoldBuf_spec h hs
  obtain ⟨s₂, hstore₂, h₂, hkept₂⟩ := h₁.set (v := 0) .buf (by decide)
  exact ⟨s₂, bind_of_ok hrun₁ hstore₂, h₂, hkept₁.trans hkept₂⟩

/-- What is left of the links and the rest when one link is handed out. -/
def remaining (idle : List Link) (items : List Range) : List Range :=
  idle.tail.map Link.range ++ items

theorem allocChain_spec (h : Pooled pool (headAddr idle) s (idle.map Link.range ++ items))
    (hstored : ∀ l ∈ idle, l.Stored s.heap.mem) (hlinked : Linked idle)
    (hroom : idle = [] → FindsRoom env s pool chainSize) :
    ∃ p s', allocChain env s pool = Except.ok (p, s') ∧ ItemsKept s s' (remaining idle items) ∧
      (p = 0 ∧ idle = [] ∧ Pooled pool 0 s' items ∨
        (handedOut idle p).addr = p ∧
          Focus pool (headAddr idle.tail) s' (handedOut idle p) (remaining idle items)) := by
  cases idle with
  | nil =>
    obtain ⟨p, s', hrun, hkept, hcase⟩ := allocChain_fresh h (hroom rfl)
    exact ⟨p, s', hrun, hkept, hcase.imp (fun h' => ⟨h'.1, rfl, h'.2⟩) fun h' => ⟨rfl, h'⟩⟩
  | cons l rest =>
    have hfocus : Focus pool l.addr s l (rest.map Link.range ++ items) :=
      ⟨h, hstored l List.mem_cons_self⟩
    obtain ⟨s', hrun, h', hkept⟩ := allocChain_idle hfocus
    rw [hlinked.1] at h'
    exact ⟨l.addr, s', hrun, hkept, Or.inr ⟨rfl, h'⟩⟩

theorem handedOut_buf (idle : List Link) (p : ℕ) : (handedOut idle p).buf = heldBuf idle := by
  cases idle
  all_goals rfl

/-- The buffer of a new link, or of one that was given back without. -/
theorem Focus.addBuf (h : Focus pool head s l items) (hroom : FindsRoom env s pool bufSize) :
    ∃ buf s', (do
        let (buf, s) ← pcalloc env s pool bufSize
        let s ← s.store (l.addr + Field.buf.offset) buf
        if buf = 0 then pure (0, s) else pure (l.addr, s) : Exec (ℕ × Proc)) =
          Except.ok (if buf = 0 then 0 else l.addr, s') ∧ ItemsKept s s' items ∧
      Focus pool head s' { l with buf } (granted items buf bufSize) ∧
      (buf ≠ 0 → ∀ i < bufSize, s'.heap.mem (buf + i) = 0) := by
  obtain ⟨buf, s₁, hrun, h₁, hkept₁, hzero⟩ := h.pooled.pcalloc hroom
  have hperm : (granted (l.range :: items) buf bufSize).Perm
      (l.range :: granted items buf bufSize) := by
    unfold granted
    split
    · exact List.Perm.refl _
    · exact List.Perm.swap _ _ _
  have hsub : ∀ x ∈ items, x ∈ granted items buf bufSize := by
    intro x hx
    unfold granted
    split
    · exact hx
    · exact List.mem_cons_of_mem _ hx
  have hfocus : Focus pool head s₁ l (granted items buf bufSize) :=
    ⟨h₁.perm hperm, h.stored.congr (hkept₁ _ List.mem_cons_self)⟩
  have hbuf : buf < 2 ^ 64 := by
    by_cases hne : buf = 0
    · omega
    · rw [granted, if_neg hne] at h₁
      obtain ⟨-, hlt⟩ := h₁.addr_pos List.mem_cons_self
      dsimp only at hlt
      omega
  obtain ⟨s₂, hstore, h₂, hkept₂⟩ := hfocus.set .buf hbuf
  refine ⟨buf, s₂, ?_, fun x hx => ?_, h₂, fun hne i hi => ?_⟩
  · refine bind_of_ok hrun (bind_of_ok hstore ?_)
    split
    all_goals rfl
  · exact Keeps.trans (hkept₁ x (List.mem_cons_of_mem _ hx)) (hkept₂ x (hsub x hx))
  · have hnew : (⟨buf, bufSize⟩ : Range) ∈ granted items buf bufSize := by
      rw [granted, if_neg hne]
      exact List.mem_cons_self
    rw [← hzero hne i hi]
    exact hkept₂ _ hnew (buf + i) (Nat.le_add_right _ _) (Nat.add_lt_add_left hi buf)

theorem allocChainWithBuf_spec
    (h : Pooled pool (headAddr idle) s (idle.map Link.range ++ items))
    (hstored : ∀ l ∈ idle, l.Stored s.heap.mem) (hlinked : Linked idle)
    (hroom : idle = [] → FindsRoom env s pool chainSize)
    (hmore : ∀ p s₁, allocChain env s pool = Except.ok (p, s₁) → p ≠ 0 → heldBuf idle = 0 →
      FindsRoom env s₁ pool bufSize) :
    ∃ p s', allocChainWithBuf env s pool = Except.ok (p, s') ∧
      ItemsKept s s' (remaining idle items) ∧
      (p = 0 ∧ heldBuf idle = 0 ∧
          Pooled pool (headAddr idle.tail) s' (remaining idle items) ∨
        ∃ buf news, buf ≠ 0 ∧ (handedOut idle p).addr = p ∧
          Focus pool (headAddr idle.tail) s' { handedOut idle p with buf }
            (news ++ remaining idle items) ∧
          (heldBuf idle = 0 ∧ news = [⟨buf, bufSize⟩] ∧
              (∀ i < bufSize, s'.heap.mem (buf + i) = 0) ∨
            heldBuf idle = buf ∧ news = [])) := by
  obtain ⟨p, s₁, hrun, hkept, hcase⟩ := allocChain_spec h hstored hlinked hroom
  unfold allocChainWithBuf
  rw [hrun, ok_bind]
  dsimp only
  rcases hcase with ⟨rfl, rfl, hpooled⟩ | ⟨haddr, hfocus⟩
  · exact ⟨0, s₁, rfl, hkept, Or.inl ⟨rfl, rfl, hpooled⟩⟩
  · have hne : p ≠ 0 := haddr ▸ hfocus.addr_ne
    have hload : s₁.load (p + Field.buf.offset) = Except.ok (heldBuf idle) := by
      have hword := hfocus.load .buf
      rwa [haddr, Link.get, handedOut_buf] at hword
    rw [if_neg hne, hload, ok_bind]
    by_cases hheld : heldBuf idle = 0
    · obtain ⟨buf, s₂, hrun₂, hkept₂, hfocus₂, hzero⟩ := hfocus.addBuf (hmore p s₁ hrun hne hheld)
      rw [if_neg (not_not_intro hheld)]
      rw [haddr] at hrun₂
      refine ⟨if buf = 0 then 0 else p, s₂, hrun₂, hkept.trans hkept₂, ?_⟩
      by_cases hbuf : buf = 0
      · rw [if_pos hbuf]
        rw [granted, if_pos hbuf] at hfocus₂
        exact Or.inl ⟨rfl, hheld, hfocus₂.pooled.drop⟩
      · rw [if_neg hbuf]
        rw [granted, if_neg hbuf] at hfocus₂
        exact Or.inr ⟨buf, [⟨buf, bufSize⟩], hbuf, haddr, hfocus₂,
          Or.inl ⟨hheld, rfl, hzero hbuf⟩⟩
    · rw [if_pos hheld]
      refine ⟨p, s₁, rfl, hkept, Or.inr ⟨heldBuf idle, [], hheld, haddr, ?_, Or.inr ⟨rfl, rfl⟩⟩⟩
      rw [← handedOut_buf idle p]
      exact hfocus

theorem Pooled.store {k : ℕ} (h : Pooled pool head s items) (hx : x ∈ items)
    (hk : k + 8 ≤ x.size) :
    ∃ s', s.store (x.addr + k) v = Except.ok s' ∧ Pooled pool head s' items ∧
      ∀ y : Range, y.Apart x → y.Kept s.heap.mem s'.heap.mem := by
  have hend : x.addr + k + (encode64 v).length ≤ x.addr + x.size := by
    rw [encode64_length]
    omega
  obtain ⟨hpooled, hkept⟩ := h.write hx (Nat.le_add_right _ k) hend
  exact ⟨_, Proc.store_of_owns ((h.owns hx).mono (Nat.le_add_right _ _) (by omega)), hpooled, hkept⟩

/-- The fields of `hcore_buf_t` for an empty buffer of `size` bytes at `a`. -/
structure EmptyBuf (mem : ℕ → UInt8) (b a size : ℕ) : Prop where
  pos : wordAt mem b = a
  last : wordAt mem (b + 8) = a
  start : wordAt mem (b + 16) = a
  bound : wordAt mem (b + 24) = a + size

theorem subset_granted {p : ℕ} (hx : x ∈ items) : x ∈ granted items p n := by
  unfold granted
  split
  · exact hx
  · exact List.mem_cons_of_mem _ hx

theorem allocBuf_spec (h : Pooled pool head s items) (hroom : FindsRoom env s pool bufSize)
    (hmore : ∀ b s₁, pcalloc env s pool bufSize = Except.ok (b, s₁) → b ≠ 0 →
      FindsRoom env s₁ pool n) :
    ∃ p s', allocBuf env s pool n = Except.ok (p, s') ∧ ItemsKept s s' items ∧
      (p = 0 ∧ Pooled pool head s' items ∨ p ≠ 0 ∧ ∃ a,
        Pooled pool head s' (⟨a, n⟩ :: ⟨p, bufSize⟩ :: items) ∧ EmptyBuf s'.heap.mem p a n) := by
  obtain ⟨b, s₁, hrun₁, h₁, hkept₁, -⟩ := h.pcalloc hroom
  unfold allocBuf
  rw [hrun₁, ok_bind]
  dsimp only
  by_cases hb : b = 0
  · rw [granted, if_pos hb] at h₁
    exact ⟨0, s₁, if_pos hb, hkept₁, Or.inl ⟨rfl, h₁⟩⟩
  · rw [granted, if_neg hb] at h₁
    obtain ⟨a, s₂, hrun₂, h₂, hkept₂⟩ := h₁.palloc (hmore b s₁ hrun₁ hb)
    have hsize : (⟨b, bufSize⟩ : Range).size = 32 := rfl
    have hmem : (⟨b, bufSize⟩ : Range) ∈ granted (⟨b, bufSize⟩ :: items) a n :=
      subset_granted List.mem_cons_self
    obtain ⟨happart, -⟩ := List.pairwise_cons.mp h₁.apart
    obtain ⟨s₃, hstore₃, h₃, hkept₃⟩ := h₂.store (v := a) (k := 16) hmem (by omega)
    obtain ⟨s₄, hstore₄, h₄, hkept₄⟩ := h₃.store (v := a) (k := 0) hmem (by omega)
    obtain ⟨s₅, hstore₅, h₅, hkept₅⟩ := h₄.store (v := a) (k := 8) hmem (by omega)
    obtain ⟨s₆, hstore₆, h₆, hkept₆⟩ := h₅.store (v := a + n) (k := 24) hmem (by omega)
    have hbuf : ItemsKept s s₅ items := by
      intro x hx
      have hapart : x.Apart ⟨b, bufSize⟩ := (happart x hx).symm
      have hbefore := Keeps.trans (hkept₁ x hx) (hkept₂ x (List.mem_cons_of_mem _ hx))
      exact Keeps.trans (Keeps.trans (Keeps.trans hbefore (hkept₃ x hapart)) (hkept₄ x hapart))
        (hkept₅ x hapart)
    dsimp only at hstore₃ hstore₄ hstore₅ hstore₆
    rw [Nat.add_zero] at hstore₄
    rw [if_neg hb, hrun₂, ok_bind]
    dsimp only
    rw [hstore₃, ok_bind, hstore₄, ok_bind, hstore₅, ok_bind]
    by_cases ha : a = 0
    · rw [granted, if_pos ha] at h₅
      exact ⟨0, s₅, if_pos ha, hbuf, Or.inl ⟨rfl, h₅.drop⟩⟩
    · rw [granted, if_neg ha] at h₆
      obtain ⟨-, hlt⟩ := h₆.addr_pos List.mem_cons_self
      dsimp only at hlt
      have hpos : wordAt s₆.heap.mem b = a := by
        rw [Proc.store_other hstore₆ (by omega), Proc.store_other hstore₅ (by omega)]
        exact Proc.store_same hstore₄ (by omega)
      have hlast : wordAt s₆.heap.mem (b + 8) = a := by
        rw [Proc.store_other hstore₆ (by omega)]
        exact Proc.store_same hstore₅ (by omega)
      have hstart : wordAt s₆.heap.mem (b + 16) = a := by
        rw [Proc.store_other hstore₆ (by omega), Proc.store_other hstore₅ (by omega),
          Proc.store_other hstore₄ (by omega)]
        exact Proc.store_same hstore₃ (by omega)
      have hbound := Proc.store_same hstore₆ hlt
      refine ⟨b, s₆, ?_, fun x hx => ?_, Or.inr ⟨hb, a, h₆, hpos, hlast, hstart, hbound⟩⟩
      · rw [if_neg ha, hstore₆]
        rfl
      · exact Keeps.trans (hbuf x hx) (hkept₆ x (happart x hx).symm)

end

def linkRange (a : ℕ) : Range := ⟨a, chainSize⟩

/-- A pool with its callers: the links in use, the links in the list as they
were when they were given back, what else has been handed out, and how many
links have been in use at the same time. -/
structure World where
  proc : Proc
  live : List ℕ
  idle : List Link
  others : List Range
  peak : ℕ

namespace World

def mem (w : World) : ℕ → UInt8 := w.proc.heap.mem

def users (w : World) : List Range := w.live.map linkRange ++ w.others

def items (w : World) : List Range := w.idle.map Link.range ++ w.users

/-- A link is asked for and the answer is `p`. A link that cannot get its buffer is lost. -/
def take (w : World) (p : ℕ) (s : Proc) : World :=
  if p = 0 then { w with proc := s, idle := w.idle.tail }
  else { w with
    proc := s
    live := p :: w.live
    idle := w.idle.tail
    peak := max w.peak (w.live.length + 1) }

def takeWithBuf (w : World) (p : ℕ) (s : Proc) : World :=
  let w' := w.take p s
  if p = 0 ∨ heldBuf w.idle ≠ 0 then w'
  else { w' with others := ⟨wordAt s.heap.mem (p + Field.buf.offset), bufSize⟩ :: w'.others }

def giveBack (w : World) (s : Proc) (l : Link) : World :=
  { w with proc := s, live := w.live.erase l.addr, idle := l :: w.idle }

def takeBuf (w : World) (p n : ℕ) (s : Proc) : World :=
  let start := wordAt s.heap.mem (p + 16)
  { w with
    proc := s
    others := if p = 0 then w.others else ⟨start, n⟩ :: ⟨p, bufSize⟩ :: w.others }

end World

/-- What the callers of a pool do; they write into what they have been given. -/
inductive Op
  | allocChain
  | allocChainWithBuf
  | freeChain (cl : ℕ)
  | freeChainHoldBuf (cl : ℕ)
  | allocBuf (n : ℕ)
  | palloc (n : ℕ)
  | fill (x : Range) (k : ℕ) (bytes : List UInt8)

namespace Op

def run (hs : Handlers) (env : Env) (pool : ℕ) (w : World) : Op → Exec (ℕ × World)
  | allocChain => do
    let (p, s) ← ChainPool.allocChain env w.proc pool
    pure (p, w.take p s)
  | allocChainWithBuf => do
    let (p, s) ← ChainPool.allocChainWithBuf env w.proc pool
    pure (p, w.takeWithBuf p s)
  | freeChain cl => do
    let s ← ChainPool.freeChain hs w.proc pool cl
    pure (0, w.giveBack s { givenBack hs w.proc cl (headAddr w.idle) with buf := 0 })
  | freeChainHoldBuf cl => do
    let s ← ChainPool.freeChainHoldBuf hs w.proc pool cl
    pure (0, w.giveBack s (givenBack hs w.proc cl (headAddr w.idle)))
  | allocBuf n => do
    let (p, s) ← ChainPool.allocBuf env w.proc pool n
    pure (p, w.takeBuf p n s)
  | palloc n => do
    let (p, s) ← pnalloc env w.proc pool n
    pure (p, { w with proc := s, others := granted w.others p n })
  | fill x k bytes => do
    let heap ← CHeap.store w.proc.heap (x.addr + k) bytes
    pure (0, { w with proc := ⟨heap, w.proc.log⟩ })

/-- Only links in use are given back. -/
def Valid (w : World) : Op → Prop
  | allocChain => True
  | allocChainWithBuf => True
  | freeChain cl => cl ∈ w.live
  | freeChainHoldBuf cl => cl ∈ w.live
  | allocBuf _ => True
  | palloc _ => True
  | fill x k bytes => x ∈ w.users ∧ k + bytes.length ≤ x.size

/-- The pool needs no second block for what it has to make. -/
def Fits (env : Env) (pool : ℕ) (w : World) : Op → Prop
  | allocChain => w.idle = [] → FindsRoom env w.proc pool chainSize
  | allocChainWithBuf =>
    (w.idle = [] → FindsRoom env w.proc pool chainSize) ∧
      ∀ p s, ChainPool.allocChain env w.proc pool = Except.ok (p, s) → p ≠ 0 →
        heldBuf w.idle = 0 → FindsRoom env s pool bufSize
  | freeChain _ => True
  | freeChainHoldBuf _ => True
  | allocBuf n =>
    FindsRoom env w.proc pool bufSize ∧
      ∀ b s, pcalloc env w.proc pool bufSize = Except.ok (b, s) → b ≠ 0 → FindsRoom env s pool n
  | palloc n => FindsRoom env w.proc pool n
  | fill _ _ _ => True

/-- What the caller gets from an operation that takes `w` to `w'`. -/
def Outcome (w : World) (p : ℕ) (w' : World) : Op → Prop
  | allocChain =>
    (w.idle ≠ [] → p ≠ 0) ∧ (p ≠ 0 → Link.ofMem w'.mem p = handedOut w.idle p)
  | allocChainWithBuf =>
    (heldBuf w.idle ≠ 0 → p ≠ 0) ∧
      (p ≠ 0 → ∃ buf, buf ≠ 0 ∧ Link.ofMem w'.mem p = { handedOut w.idle p with buf } ∧
        (if heldBuf w.idle = 0 then ∀ i < bufSize, w'.mem (buf + i) = 0
          else buf = heldBuf w.idle))
  | freeChain _ => p = 0
  | freeChainHoldBuf _ => p = 0
  | allocBuf n => p ≠ 0 → ∃ a, (⟨a, n⟩ : Range) ∈ w'.others ∧ EmptyBuf w'.mem p a n
  | palloc n => p ≠ 0 → (⟨p, n⟩ : Range) ∈ w'.others
  | fill x k bytes => readAt w'.mem (x.addr + k) bytes.length = bytes

/-- What an operation leaves alone of what is in use. -/
def untouched (w : World) : Op → List Range
  | allocChain => w.users
  | allocChainWithBuf => w.users
  | freeChain cl => w.users.erase (linkRange cl)
  | freeChainHoldBuf cl => w.users.erase (linkRange cl)
  | allocBuf _ => w.users
  | palloc _ => w.users
  | fill x _ _ => w.users.erase x

end Op

/-- What holds of a pool whatever its callers have done. -/
structure Sound (pool : ℕ) (w : World) : Prop where
  pooled : Pooled pool (headAddr w.idle) w.proc w.items
  stored : ∀ l ∈ w.idle, l.Stored w.mem
  linked : Linked w.idle
  thrift : w.live.length + w.idle.length ≤ w.peak

/-- The worlds that calls can lead to. -/
inductive Run (hs : Handlers) (env : Env) (pool size : ℕ) : World → Prop
  | create {s s'} : poolSize ≤ size → s.log = [] →
      ChainPool.createPool env s size = Except.ok (pool, s') → pool ≠ 0 →
      Run hs env pool size ⟨s', [], [], [], 0⟩
  | step {w w' : World} {op : Op} {p : ℕ} : Run hs env pool size w → op.Valid w →
      op.Fits env pool w → op.run hs env pool w = Except.ok (p, w') → Run hs env pool size w'

/-- The operation returns, keeps the pool sound and does what it is for. -/
def Op.Served (hs : Handlers) (env : Env) (pool : ℕ) (w : World) (op : Op) : Prop :=
  ∃ p w', op.run hs env pool w = Except.ok (p, w') ∧ Sound pool w' ∧ op.Outcome w p w' ∧
    ∀ x ∈ op.untouched w, x.Kept w.mem w'.mem

section

variable {env : Env} {hs : Handlers} {pool p n : ℕ} {s' : Proc} {w w' : World} {l : Link}

theorem take_mem (w : World) (p : ℕ) (s : Proc) : (w.take p s).mem = s.heap.mem := by
  unfold World.take
  split
  all_goals rfl

theorem take_others (w : World) (p : ℕ) (s : Proc) : (w.take p s).others = w.others := by
  unfold World.take
  split
  all_goals rfl

namespace Sound

theorem tail (h : Sound pool w) (hkept : ItemsKept w.proc s' (remaining w.idle w.users)) :
    (∀ l ∈ w.idle.tail, l.Stored s'.heap.mem) ∧ Linked w.idle.tail := by
  constructor
  · intro l hl
    have hitem : l.range ∈ remaining w.idle w.users :=
      List.mem_append_left _ (List.mem_map_of_mem hl)
    exact (h.stored l (List.mem_of_mem_tail hl)).congr (hkept _ hitem)
  · have hlinked := h.linked
    cases hidle : w.idle with
    | nil => exact trivial
    | cons l rest =>
      rw [hidle] at hlinked
      exact hlinked.2.2

theorem users_kept (hkept : ItemsKept w.proc s' (remaining w.idle w.users)) :
    ItemsKept w.proc s' w.users := fun x hx => hkept x (List.mem_append_right _ hx)

/-- A link is made only when the list is empty. -/
theorem thrift_take (h : Sound pool w) :
    w.live.length + 1 + w.idle.tail.length ≤ max w.peak (w.live.length + 1) := by
  have hthrift := h.thrift
  rw [List.length_tail]
  omega

/-- New places go behind the links. -/
theorem perm_behind (news idle live others : List Range) :
    (news ++ (idle ++ (live ++ others))).Perm (idle ++ (live ++ (news ++ others))) :=
  (List.perm_append_comm_assoc _ _ _).trans
    (List.Perm.append_left _ (List.perm_append_comm_assoc _ _ _))

/-- A link has been handed out, and maybe other places with it. -/
theorem taken (news : List Range) (h : Sound pool w)
    (hfocus : Focus pool (headAddr w.idle.tail) s' l (news ++ remaining w.idle w.users))
    (hkept : ItemsKept w.proc s' (remaining w.idle w.users)) :
    Sound pool { w.take l.addr s' with others := news ++ w.others } := by
  obtain ⟨hstored, hlinked⟩ := h.tail hkept
  unfold World.take
  rw [if_neg hfocus.addr_ne]
  refine ⟨hfocus.pooled.perm ?_, hstored, hlinked, h.thrift_take⟩
  simp only [World.items, World.users, remaining, List.map_cons, List.cons_append]
  refine List.Perm.trans ?_ List.perm_middle.symm
  exact List.Perm.cons _ (perm_behind _ _ _ _)

/-- No link has been handed out; the first one of the list is lost. -/
theorem refused (h : Sound pool w)
    (hpooled : Pooled pool (headAddr w.idle.tail) s' (remaining w.idle w.users))
    (hkept : ItemsKept w.proc s' (remaining w.idle w.users)) : Sound pool (w.take 0 s') := by
  obtain ⟨hstored, hlinked⟩ := h.tail hkept
  have hthrift := h.thrift
  refine ⟨hpooled, hstored, hlinked, ?_⟩
  simp only [World.take, if_true, List.length_tail]
  omega

/-- The same when there is nothing new but the link. -/
theorem taken_link (h : Sound pool w)
    (hfocus : Focus pool (headAddr w.idle.tail) s' l (remaining w.idle w.users))
    (hkept : ItemsKept w.proc s' (remaining w.idle w.users)) : Sound pool (w.take l.addr s') := by
  have hsame := h.taken [] hfocus hkept
  unfold World.take at hsame ⊢
  rw [if_neg hfocus.addr_ne] at hsame ⊢
  exact hsame

theorem allocChain_serves (h : Sound pool w) (hfits : Op.allocChain.Fits env pool w) :
    Op.allocChain.Served hs env pool w := by
  obtain ⟨p, s', hrun, hkept, hcase⟩ := allocChain_spec h.pooled h.stored h.linked hfits
  refine ⟨p, w.take p s', bind_of_ok hrun rfl, ?_⟩
  unfold Op.Outcome Op.untouched
  rw [take_mem]
  rcases hcase with ⟨rfl, hidle, hpooled⟩ | ⟨haddr, hfocus⟩
  · refine ⟨h.refused ?_ hkept, ⟨fun hne => absurd hidle hne, fun hne => absurd rfl hne⟩,
      users_kept hkept⟩
    rw [hidle]
    exact hpooled
  · have hne : p ≠ 0 := haddr ▸ hfocus.addr_ne
    have hsound := h.taken_link hfocus hkept
    have hfields := hfocus.stored.eq_ofMem
    rw [haddr] at hsound hfields
    exact ⟨hsound, ⟨fun _ => hne, fun _ => hfields.symm⟩, users_kept hkept⟩

theorem allocChainWithBuf_serves (h : Sound pool w)
    (hfits : Op.allocChainWithBuf.Fits env pool w) :
    Op.allocChainWithBuf.Served hs env pool w := by
  obtain ⟨p, s', hrun, hkept, hcase⟩ :=
    allocChainWithBuf_spec h.pooled h.stored h.linked hfits.1 hfits.2
  refine ⟨p, w.takeWithBuf p s', bind_of_ok hrun rfl, ?_⟩
  have hmem : (w.takeWithBuf p s').mem = s'.heap.mem := by
    unfold World.takeWithBuf
    split
    all_goals exact take_mem w p s'
  unfold Op.Outcome Op.untouched
  rw [hmem]
  rcases hcase with ⟨rfl, hheld, hpooled⟩ | ⟨buf, news, hbuf, haddr, hfocus, hcase⟩
  · have hsame : w.takeWithBuf 0 s' = w.take 0 s' := by
      unfold World.takeWithBuf
      exact if_pos (Or.inl rfl)
    rw [hsame]
    exact ⟨h.refused hpooled hkept, ⟨fun hne => absurd hheld hne, fun hne => absurd rfl hne⟩,
      users_kept hkept⟩
  · have hne : p ≠ 0 := haddr ▸ hfocus.addr_ne
    have hsound := h.taken news hfocus hkept
    have hfields := hfocus.stored.eq_ofMem.trans (congrArg (Link.ofMem s'.heap.mem) haddr)
    have hstored : wordAt s'.heap.mem (p + Field.buf.offset) = buf := by
      have hword := hfocus.stored .buf
      dsimp only at hword
      rwa [haddr] at hword
    dsimp only at hsound
    rw [haddr] at hsound
    have hworld : w.takeWithBuf p s' = { w.take p s' with others := news ++ w.others } := by
      unfold World.takeWithBuf
      dsimp only
      rw [take_others, hstored]
      rcases hcase with ⟨hheld, rfl, -⟩ | ⟨rfl, rfl⟩
      · rw [if_neg (not_or.mpr ⟨hne, not_not_intro hheld⟩)]
        rfl
      · rw [if_pos (Or.inr hbuf), List.nil_append, ← take_others w p s']
    refine ⟨hworld ▸ hsound, ⟨fun _ => hne, fun _ => ⟨buf, hbuf, hfields.symm, ?_⟩⟩,
      users_kept hkept⟩
    rcases hcase with ⟨hheld, -, hzero⟩ | ⟨rfl, -⟩
    · rwa [if_pos hheld]
    · rw [if_neg hbuf]

/-- What is in use beside the link `cl`. -/
theorem users_perm {cl : ℕ} (hcl : cl ∈ w.live) :
    w.users.Perm (linkRange cl :: ((w.live.erase cl).map linkRange ++ w.others)) :=
  ((List.perm_cons_erase hcl).map linkRange).append_right w.others

theorem inUse {cl : ℕ} (h : Sound pool w) (hcl : cl ∈ w.live) :
    Focus pool (headAddr w.idle) w.proc (Link.ofMem w.mem cl)
      (w.idle.map Link.range ++ ((w.live.erase cl).map linkRange ++ w.others)) := by
  refine ⟨h.pooled.perm ?_, Link.ofMem_stored _ _⟩
  exact ((users_perm hcl).append_left _).trans List.perm_middle

theorem gaveBack {cl : ℕ} (h : Sound pool w) (hcl : cl ∈ w.live) (haddr : l.addr = cl)
    (hnext : l.next = headAddr w.idle) (hfree : l.free = 0)
    (hfocus : Focus pool cl s' l
      (w.idle.map Link.range ++ ((w.live.erase cl).map linkRange ++ w.others)))
    (hkept : ItemsKept w.proc s'
      (w.idle.map Link.range ++ ((w.live.erase cl).map linkRange ++ w.others))) :
    Sound pool (w.giveBack s' l) ∧
      ∀ x ∈ w.users.erase (linkRange cl), x.Kept w.mem s'.heap.mem := by
  subst haddr
  refine ⟨⟨hfocus.pooled, ?_, ⟨hnext, hfree, h.linked⟩, ?_⟩, fun x hx => ?_⟩
  · intro c hc
    rcases List.mem_cons.mp hc with rfl | hc
    · exact hfocus.stored
    · have hitem : c.range ∈ w.idle.map Link.range := List.mem_map_of_mem hc
      exact (h.stored c hc).congr (hkept _ (List.mem_append_left _ hitem))
  · have hthrift := h.thrift
    have hpos := List.length_pos_of_mem hcl
    have hlive : (w.live.erase l.addr).length = w.live.length - 1 := List.length_erase_of_mem hcl
    simp only [World.giveBack, List.length_cons]
    omega
  · have hperm := (users_perm hcl).erase (linkRange l.addr)
    rw [List.erase_cons_head] at hperm
    exact hkept x (List.mem_append_right _ (hperm.mem_iff.mp hx))

theorem freeChainHoldBuf_serves {cl : ℕ} (h : Sound pool w) (hcl : cl ∈ w.live) :
    (Op.freeChainHoldBuf cl).Served hs env pool w := by
  obtain ⟨s', hrun, hfocus, hkept⟩ := freeChainHoldBuf_spec (h.inUse hcl) hs
  obtain ⟨hsound, huntouched⟩ := h.gaveBack hcl rfl rfl rfl hfocus hkept
  exact ⟨0, _, bind_of_ok hrun rfl, hsound, rfl, huntouched⟩

theorem freeChain_serves {cl : ℕ} (h : Sound pool w) (hcl : cl ∈ w.live) :
    (Op.freeChain cl).Served hs env pool w := by
  obtain ⟨s', hrun, hfocus, hkept⟩ := freeChain_spec (h.inUse hcl) hs
  obtain ⟨hsound, huntouched⟩ := h.gaveBack hcl rfl rfl rfl hfocus hkept
  exact ⟨0, _, bind_of_ok hrun rfl, hsound, rfl, huntouched⟩

/-- The links in use and the list stay as they are. -/
theorem served (news : List Range) (h : Sound pool w)
    (hpooled : Pooled pool (headAddr w.idle) s' (news ++ w.items))
    (hkept : ItemsKept w.proc s' (w.idle.map Link.range)) :
    Sound pool { w with proc := s', others := news ++ w.others } := by
  refine ⟨hpooled.perm (perm_behind _ _ _ _), fun l hl => ?_, h.linked, h.thrift⟩
  exact (h.stored l hl).congr (hkept _ (List.mem_map_of_mem hl))

theorem palloc_serves (h : Sound pool w) (hfits : (Op.palloc n).Fits env pool w) :
    (Op.palloc n).Served hs env pool w := by
  obtain ⟨p, s', hrun, hpooled, hkept⟩ := h.pooled.palloc hfits
  have hgranted : ∀ items, granted items p n = granted [] p n ++ items := by
    intro items
    unfold granted
    split
    all_goals rfl
  rw [hgranted] at hpooled
  refine ⟨p, _, bind_of_ok hrun rfl, ?_, fun hne => ?_, fun x hx => ?_⟩
  · rw [hgranted]
    exact h.served _ hpooled fun x hx => hkept x (List.mem_append_left _ hx)
  · dsimp only
    rw [granted, if_neg hne]
    exact List.mem_cons_self
  · exact hkept x (List.mem_append_right _ hx)

theorem allocBuf_serves (h : Sound pool w) (hfits : (Op.allocBuf n).Fits env pool w) :
    (Op.allocBuf n).Served hs env pool w := by
  obtain ⟨p, s', hrun, hkept, hcase⟩ := allocBuf_spec h.pooled hfits.1 hfits.2
  have hidle : ItemsKept w.proc s' (w.idle.map Link.range) :=
    fun x hx => hkept x (List.mem_append_left _ hx)
  have husers : ∀ x ∈ w.users, x.Kept w.mem s'.heap.mem :=
    fun x hx => hkept x (List.mem_append_right _ hx)
  refine ⟨p, w.takeBuf p n s', bind_of_ok hrun rfl, ?_⟩
  unfold World.takeBuf
  dsimp only
  rcases hcase with ⟨rfl, hpooled⟩ | ⟨hne, a, hpooled, hbuf⟩
  · rw [if_pos rfl]
    exact ⟨h.served [] hpooled hidle, fun hne => absurd rfl hne, husers⟩
  · rw [if_neg hne, hbuf.start]
    exact ⟨h.served [⟨a, n⟩, ⟨p, bufSize⟩] hpooled hidle,
      fun _ => ⟨a, List.mem_cons_self, hbuf⟩, husers⟩

theorem fill_serves {x : Range} {k : ℕ} {bytes : List UInt8} (h : Sound pool w)
    (hvalid : (Op.fill x k bytes).Valid w) : (Op.fill x k bytes).Served hs env pool w := by
  obtain ⟨hx, hlen⟩ := hvalid
  have hitem : x ∈ w.items := List.mem_append_right _ hx
  have hend : x.addr + k + bytes.length ≤ x.addr + x.size := by omega
  have howns : w.proc.heap.Owns (x.addr + k) bytes.length :=
    (h.pooled.owns hitem).mono (Nat.le_add_right _ k) hend
  obtain ⟨hpooled, hkept⟩ := h.pooled.write hitem (Nat.le_add_right _ k) hend
  have hperm : w.items.Perm (x :: (w.idle.map Link.range ++ w.users.erase x)) :=
    ((List.perm_cons_erase hx).append_left _).trans List.perm_middle
  obtain ⟨hapart, -⟩ := List.pairwise_cons.mp (h.pooled.perm hperm).apart
  refine ⟨0, _, bind_of_ok (store_of_owns howns) rfl, h.served [] hpooled ?_,
    readAt_writeAt, fun y hy => ?_⟩
  · intro y hy
    exact hkept y (hapart y (List.mem_append_left _ hy)).symm
  · exact hkept y (hapart y (List.mem_append_right _ hy)).symm

theorem step {op : Op} (h : Sound pool w) (hvalid : op.Valid w) (hfits : op.Fits env pool w) :
    op.Served hs env pool w := by
  cases op with
  | allocChain => exact h.allocChain_serves hfits
  | allocChainWithBuf => exact h.allocChainWithBuf_serves hfits
  | freeChain cl => exact h.freeChain_serves hvalid
  | freeChainHoldBuf cl => exact h.freeChainHoldBuf_serves hvalid
  | allocBuf n => exact h.allocBuf_serves hfits
  | palloc n => exact h.palloc_serves hfits
  | fill x k bytes => exact h.fill_serves hvalid

end Sound

theorem createPool_pooled {env : Env} {s s' : Proc} {size pool : ℕ} (hsize : poolSize ≤ size)
    (hlog : s.log = []) (hrun : ChainPool.createPool env s size = Except.ok (pool, s'))
    (hp : pool ≠ 0) : Pooled pool 0 s' [] := by
  obtain ⟨⟨p, s₁⟩, hcreate, hrun⟩ := bind_eq_ok.mp hrun
  dsimp only at hrun
  split at hrun
  · next hzero =>
    obtain ⟨rfl, -⟩ := Prod.mk.inj (Except.ok.inj hrun)
    exact absurd rfl hp
  · next hne =>
    obtain ⟨s₂, hstore, hrun⟩ := bind_eq_ok.mp hrun
    obtain ⟨rfl, rfl⟩ := Prod.mk.inj (Except.ok.inj hrun)
    have hpooled : Pooled p _ s₁ [] := ⟨createPool_oneBlock hsize hlog hcreate hne, rfl⟩
    obtain ⟨s₃, hstore', hpooled', -⟩ := hpooled.setHead (v := 0) (by decide)
    obtain rfl := Except.ok.inj (hstore.symm.trans hstore')
    exact hpooled'

theorem Run.sound {size : ℕ} (h : Run hs env pool size w) : Sound pool w := by
  induction h with
  | create hsize hlog hrun hp =>
    exact ⟨createPool_pooled hsize hlog hrun hp, fun l hl => absurd hl List.not_mem_nil, trivial,
      le_refl _⟩
  | step _ hvalid hfits hrun ih =>
    obtain ⟨p, w', hrun', hsound, -, -⟩ := ih.step hvalid hfits
    obtain ⟨-, rfl⟩ := Prod.mk.inj (Except.ok.inj (hrun'.symm.trans hrun))
    exact hsound

end

end HCore.ChainPool
