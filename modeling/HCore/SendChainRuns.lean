import HCore.SendChain

/-!
The calls of the chain sender, step by step: the array of a batch is built, and
`writev` is called, again while it says EAGAIN. What `writev` answers is a
function of the number of calls so far and of the bytes that it is offered. No
byte is lost or sent twice, but a chain whose last batch is accepted whole is
never given back: the sender goes on with the emptied last link.
-/

namespace HCore.SendChainRuns

open Machine SendChain

inductive Errno
  | eagain
  | other
  deriving DecidableEq, Repr

/-- What `writev` returns; it accepts at most what it is offered. -/
inductive Reply
  | accept (n : ℕ)
  | fail (errno : Errno)
  deriving DecidableEq, Repr

inductive Status
  | converting
  | writing (iovs : List (ℕ × ℕ)) (size : ℕ)
  | returned (out : List Buf)
  | chainError
  | undefined

/-- A call of the sender, with what the connection and the peer have seen. -/
structure Sender (α : Type) where
  status : Status
  out : List Buf
  ready : Bool
  error : Bool
  sentSize : ℕ
  accepted : List α
  calls : ℕ
  left : List ℕ

section

variable {α : Type} (mem : ℕ → α) (writev : ℕ → ℕ → Reply) (iovMax : ℕ)

/-- The lines of `hcore_tcp_send_chain` behind `hcore_writev`. -/
def afterWritev (s : Sender α) (iovs : List (ℕ × ℕ)) (size : ℕ) : Reply → Sender α
  | .fail .eagain => { s with status := .returned s.out }
  | .fail .other => { s with error := true, status := .chainError }
  | .accept n =>
    let n := min n size
    let out := updateOutputChain s.out n
    let s := { s with
      out
      accepted := s.accepted ++ (iovecBytes mem iovs).take n
      sentSize := s.sentSize + n
    }
    if size ≠ n then { s with ready := false, status := .returned out }
    else { s with status := .converting }

/-- A step: the array is built, or `writev` is called by `hcore_writev`. -/
def sendStep (s : Sender α) : Sender α :=
  match s.status with
  | .converting =>
    match outputChainToIovec iovMax s.out with
    | .ok (iovs, size, _) => { s with status := .writing iovs size }
    | .error _ => { s with status := .undefined }
  | .writing iovs size =>
    let s' := { s with calls := s.calls + 1, left := (chainBytes mem s.out).length :: s.left }
    match writev s.calls size with
    | .fail .eagain => s'
    | reply => afterWritev mem s' iovs size reply
  | _ => s

/-- `hcore_tcp_send_chain(c, out)` begins, with the write event ready or not. -/
def sendChain (ready : Bool) (out : List Buf) (s : Sender α) : Sender α :=
  { s with ready, out, status := if ready then .converting else .returned out }

/-- A connection on which `sentSize` bytes were sent before. -/
def fresh (α : Type) (sentSize : ℕ) : Sender α := ⟨.returned [], [], true, false, sentSize, [], 0, []⟩

/-- The states of calls each of which continues with the chain of the one before. -/
inductive Reaches (chain : List Buf) (sentSize : ℕ) : Sender α → Prop
  | first (ready : Bool) : Reaches chain sentSize (sendChain ready chain (fresh α sentSize))
  | step {s : Sender α} (h : Reaches chain sentSize s) :
      Reaches chain sentSize (sendStep mem writev iovMax s)
  | again {s : Sender α} {out : List Buf} (ready : Bool) (h : Reaches chain sentSize s)
      (hreturned : s.status = .returned out) (hne : out ≠ []) :
      Reaches chain sentSize (sendChain ready out s)

/-- Nothing is undefined, nothing is lost or repeated, and every byte counted. -/
structure Exact (chain : List Buf) (sentSize : ℕ) (s : Sender α) : Prop where
  defined : s.status ≠ .undefined
  bytes : s.accepted ++ chainBytes mem s.out = chainBytes mem chain
  returned : ∀ out, s.status = .returned out → s.accepted ++ chainBytes mem out = chainBytes mem chain
  sent : s.sentSize = sentSize + s.accepted.length

/-- The invariant of the calls. -/
structure Tracks (chain : List Buf) (sentSize : ℕ) (s : Sender α) : Prop where
  defined : s.status ≠ .undefined
  bytes : s.accepted ++ chainBytes mem s.out = chainBytes mem chain
  sent : s.sentSize = sentSize + s.accepted.length
  head : ∃ b rest, s.out = b :: rest ∧ b.pos ≠ 0
  writing : ∀ iovs size, s.status = .writing iovs size →
    ∃ rest, chainBytes mem s.out = iovecBytes mem iovs ++ rest ∧ size = (iovecBytes mem iovs).length
  returned : ∀ out, s.status = .returned out → out = s.out

end

section

variable {α : Type} {mem : ℕ → α} {writev : ℕ → ℕ → Reply} {iovMax sentSize size n : ℕ}
  {s : Sender α} {chain out rest : List Buf} {iovs : List (ℕ × ℕ)}

/-- An answer of `writev` is what the positions and the count follow. -/
theorem Tracks.accept (h : Tracks mem chain sentSize s) (hstatus : s.status = .writing iovs size) (n : ℕ) :
    Tracks mem chain sentSize (afterWritev mem s iovs size (.accept n)) := by
  obtain ⟨rest, hsplit, hsize⟩ := h.writing iovs size hstatus
  have hle : min n size ≤ (iovecBytes mem iovs).length := by omega
  have htake : (iovecBytes mem iovs).take (min n size) = (chainBytes mem s.out).take (min n size) := by
    rw [hsplit, List.take_append_of_le_length hle]
  have hbytes : s.accepted ++ (iovecBytes mem iovs).take (min n size) ++
      chainBytes mem (updateOutputChain s.out (min n size)) = chainBytes mem chain := by
    rw [htake, update_bytes, List.append_assoc, List.take_append_drop, h.bytes]
  have hsent : s.sentSize + min n size =
      sentSize + (s.accepted ++ (iovecBytes mem iovs).take (min n size)).length := by
    rw [List.length_append, List.length_take, h.sent]
    omega
  have hhead : ∃ b rest, updateOutputChain s.out (min n size) = b :: rest ∧ b.pos ≠ 0 := by
    unfold updateOutputChain
    by_cases hzero : min n size = 0
    · rw [if_pos hzero]
      exact h.head
    · rw [if_neg hzero]
      refine updateLoop_head mem (by omega) ?_
      rw [hsplit, List.length_append]
      omega
  unfold afterWritev
  dsimp only
  split
  · refine ⟨by simp, hbytes, hsent, hhead, by simp, ?_⟩
    intro out hout
    cases hout
    rfl
  · exact ⟨by simp, hbytes, hsent, hhead, by simp, by simp⟩

theorem Tracks.step (writev : ℕ → ℕ → Reply) (hmax : 0 < iovMax) (h : Tracks mem chain sentSize s) :
    Tracks mem chain sentSize (sendStep mem writev iovMax s) := by
  obtain ⟨b, rest, hout, hpos⟩ := h.head
  unfold sendStep
  cases hstatus : s.status with
  | converting =>
    obtain ⟨iovs, size, tail, hrun, hsplit, hsize⟩ :=
      toIovec_bytes mem rest hmax hpos
    dsimp only
    rw [hout, hrun]
    refine ⟨by simp, hout ▸ h.bytes, h.sent, ⟨b, rest, rfl, hpos⟩, ?_, by simp⟩
    intro iovs' size' heq
    cases heq
    exact ⟨_, hsplit, hsize⟩
  | writing iovs size =>
    dsimp only
    have hnext : Tracks mem chain sentSize { s with
        status := .writing iovs size
        calls := s.calls + 1
        left := (chainBytes mem s.out).length :: s.left } :=
      ⟨by simp, h.bytes, h.sent, h.head, fun iovs' size' heq => h.writing iovs' size' (hstatus.trans heq),
        by simp⟩
    cases writev s.calls size with
    | accept n => exact hnext.accept rfl n
    | fail errno =>
      cases errno with
      | eagain => exact hnext
      | other => exact ⟨by simp [afterWritev], h.bytes, h.sent, h.head, by simp [afterWritev],
          by simp [afterWritev]⟩
  | returned out => exact h
  | chainError => exact h
  | undefined => exact absurd hstatus h.defined

theorem Tracks.begin (h : s.accepted ++ chainBytes mem out = chainBytes mem chain)
    (hsent : s.sentSize = sentSize + s.accepted.length) (hhead : ∃ b rest, out = b :: rest ∧ b.pos ≠ 0)
    (ready : Bool) : Tracks mem chain sentSize (sendChain ready out s) := by
  refine ⟨?_, h, hsent, hhead, ?_, ?_⟩
  · cases ready <;> simp [sendChain]
  · cases ready <;> simp [sendChain]
  · cases ready <;> simp [sendChain]

theorem Reaches.tracks (hmax : 0 < iovMax) (hhead : ∃ b rest, chain = b :: rest ∧ b.pos ≠ 0)
    (h : Reaches mem writev iovMax chain sentSize s) : Tracks mem chain sentSize s := by
  induction h with
  | first ready => exact Tracks.begin rfl rfl hhead ready
  | step _ ih => exact ih.step writev hmax
  | again ready _ hreturned _ ih =>
    obtain rfl := ih.returned _ hreturned
    exact Tracks.begin ih.bytes ih.sent ih.head ready

/-- In all calls nothing is lost or repeated if and only if the chain does not
begin with a buffer at NULL. -/
theorem send_chain_exact_iff (hmax : 0 < iovMax) (hne : chain ≠ []) :
    (∀ s : Sender α, Reaches mem writev iovMax chain sentSize s → Exact mem chain sentSize s) ↔
      ∀ b ∈ chain.head?, b.pos ≠ 0 := by
  obtain ⟨b, rest, rfl⟩ := List.exists_cons_of_ne_nil hne
  constructor
  · intro hall b' hb' hpos
    cases hb'
    have hrun := hall _ (.step (.first true))
    refine hrun.defined ?_
    unfold sendStep sendChain
    dsimp only
    rw [if_pos rfl]
    dsimp only
    rw [toIovec_null hmax hpos]
    rfl
  · intro hpos s hs
    have htracks := hs.tracks hmax ⟨b, rest, rfl, hpos b rfl⟩
    refine ⟨htracks.defined, htracks.bytes, ?_, htracks.sent⟩
    intro out hout
    rw [htracks.returned out hout]
    exact htracks.bytes

/-- Three bytes at the address 100. -/
def threeBytes : List Buf := [⟨100, 103, by decide⟩]

theorem send_chain_exact_three : Exact id threeBytes 0
    (sendStep id (fun _ offered => .accept offered) 16
      (sendChain true threeBytes (fresh ℕ 0))) :=
  (send_chain_exact_iff (by decide) (by decide)).mpr (fun b hb => by cases hb; decide) _
    (.step (.first true))

end

section

variable {α : Type} (mem : ℕ → α) (writev : ℕ → ℕ → Reply) (iovMax : ℕ)

/-- The bytes of the first batch of a chain. -/
def batchSize (out : List Buf) : ℕ :=
  match outputChainToIovec iovMax out with
  | .ok (_, size, _) => size
  | .error _ => 0

/-- The chain after its first batch was accepted whole. -/
def afterBatch (out : List Buf) : List Buf := updateOutputChain out (batchSize iovMax out)

/-- From the call `k` on, `writev` accepts less than it is offered at some call,
and until then it is offered something and accepts it whole. -/
inductive Partial : ℕ → List Buf → Prop
  | here {k n : ℕ} {out : List Buf} (hreply : writev k (batchSize iovMax out) = .accept n)
      (hlt : n < batchSize iovMax out) : Partial k out
  | later {k n : ℕ} {out : List Buf} (hpos : 0 < batchSize iovMax out)
      (hreply : writev k (batchSize iovMax out) = .accept n) (hle : batchSize iovMax out ≤ n)
      (hrest : Partial (k + 1) (afterBatch iovMax out)) : Partial k out

/-- The state after `n` steps of a call. -/
def sendSteps (n : ℕ) (chain : List Buf) (sentSize : ℕ) : Sender α :=
  (sendStep mem writev iovMax)^[n] (sendChain true chain (fresh α sentSize))

/-- The call returns NULL if the chain was accepted and its rest otherwise, and
`writev` was never called with nothing left. -/
def Finishes (chain : List Buf) (sentSize : ℕ) : Prop :=
  ∃ n out, (sendSteps mem writev iovMax n chain sentSize).status = .returned out ∧
    ((sendSteps mem writev iovMax n chain sentSize).accepted = chainBytes mem chain → out = []) ∧
    ((sendSteps mem writev iovMax n chain sentSize).accepted ≠ chainBytes mem chain →
      out ≠ [] ∧ (sendSteps mem writev iovMax n chain sentSize).accepted ++ chainBytes mem out =
        chainBytes mem chain) ∧
    ∀ left ∈ (sendSteps mem writev iovMax n chain sentSize).left, 0 < left

end

section

variable {α : Type} {mem : ℕ → α} {writev : ℕ → ℕ → Reply} {iovMax sentSize size n : ℕ}
  {s : Sender α} {chain out rest : List Buf} {iovs : List (ℕ × ℕ)}

/-- The first step of a round offers a batch. -/
theorem Tracks.convert (writev : ℕ → ℕ → Reply) (hmax : 0 < iovMax) (h : Tracks mem chain sentSize s)
    (hstatus : s.status = .converting) :
    ∃ iovs, sendStep mem writev iovMax s = { s with status := .writing iovs (batchSize iovMax s.out) } := by
  obtain ⟨b, rest, hout, hpos⟩ := h.head
  obtain ⟨iovs, size, tail, hrun, -⟩ := toIovec_bytes mem rest hmax hpos
  refine ⟨iovs, ?_⟩
  unfold sendStep batchSize
  rw [hstatus, hout, hrun]

theorem sendStep_writing (hstatus : s.status = .writing iovs size)
    (hreply : writev s.calls size = .accept n) :
    sendStep mem writev iovMax s = afterWritev mem
      { s with calls := s.calls + 1, left := (chainBytes mem s.out).length :: s.left } iovs size
      (.accept n) := by
  unfold sendStep
  rw [hstatus]
  dsimp only
  rw [hreply]

theorem afterWritev_whole (h : size ≤ n) : afterWritev mem s iovs size (.accept n) =
    { s with
      out := updateOutputChain s.out size
      accepted := s.accepted ++ (iovecBytes mem iovs).take size
      sentSize := s.sentSize + size
      status := .converting } := by
  unfold afterWritev
  dsimp only
  rw [Nat.min_eq_right h, if_neg (not_not.mpr rfl)]

theorem afterWritev_less (h : n < size) : afterWritev mem s iovs size (.accept n) =
    { s with
      out := updateOutputChain s.out n
      accepted := s.accepted ++ (iovecBytes mem iovs).take n
      sentSize := s.sentSize + n
      ready := false
      status := .returned (updateOutputChain s.out n) } := by
  unfold afterWritev
  dsimp only
  rw [Nat.min_eq_left h.le, if_pos (by omega)]

/-- The sender after `writev` was called with a batch. -/
def called (mem : ℕ → α) (iovMax : ℕ) (s : Sender α) (iovs : List (ℕ × ℕ)) : Sender α :=
  { s with
    status := .writing iovs (batchSize iovMax s.out)
    calls := s.calls + 1
    left := (chainBytes mem s.out).length :: s.left }

/-- A round is two steps, and more is left than a batch offers. -/
theorem Tracks.round (hmax : 0 < iovMax) (h : Tracks mem chain sentSize s)
    (hstatus : s.status = .converting) (hreply : writev s.calls (batchSize iovMax s.out) = .accept n) :
    ∃ iovs, (sendStep mem writev iovMax)^[2] s =
        afterWritev mem (called mem iovMax s iovs) iovs (batchSize iovMax s.out) (.accept n) ∧
      Tracks mem chain sentSize
        (afterWritev mem (called mem iovMax s iovs) iovs (batchSize iovMax s.out) (.accept n)) ∧
      batchSize iovMax s.out ≤ (chainBytes mem s.out).length := by
  obtain ⟨iovs, hstep⟩ := h.convert writev hmax hstatus
  have h1 := h.step writev hmax
  have h2 := h1.step writev hmax
  have hrun : (sendStep mem writev iovMax)^[2] s =
      afterWritev mem (called mem iovMax s iovs) iovs (batchSize iovMax s.out) (.accept n) := by
    refine (congrArg (sendStep mem writev iovMax) hstep).trans ?_
    exact sendStep_writing rfl hreply
  refine ⟨iovs, hrun, ?_, ?_⟩
  · rw [← hrun]
    exact h2
  · rw [hstep] at h1
    obtain ⟨rest, hsplit, hsize⟩ := h1.writing iovs _ rfl
    change chainBytes mem s.out = _ at hsplit
    rw [hsplit, List.length_append]
    omega

/-- A batch without bytes is offered for ever, or `writev` fails. -/
structure Stuck (mem : ℕ → α) (iovMax : ℕ) (s : Sender α) : Prop where
  empty : batchSize iovMax s.out = 0
  status : s.status = .converting ∨ (∃ iovs, s.status = .writing iovs 0) ∨ s.status = .chainError

theorem Stuck.step (hmax : 0 < iovMax) (htracks : Tracks mem chain sentSize s)
    (h : Stuck mem iovMax s) : Stuck mem iovMax (sendStep mem writev iovMax s) := by
  rcases h.status with hstatus | ⟨iovs, hstatus⟩ | hstatus
  · obtain ⟨iovs, hstep⟩ := htracks.convert writev hmax hstatus
    rw [hstep, h.empty]
    exact ⟨h.empty, Or.inr (Or.inl ⟨iovs, rfl⟩)⟩
  · unfold sendStep
    rw [hstatus]
    dsimp only
    cases writev s.calls 0 with
    | accept n =>
      dsimp only
      rw [afterWritev_whole (Nat.zero_le n)]
      exact ⟨h.empty, Or.inl rfl⟩
    | fail errno =>
      cases errno with
      | eagain => exact ⟨h.empty, Or.inr (Or.inl ⟨iovs, rfl⟩)⟩
      | other => exact ⟨h.empty, Or.inr (Or.inr rfl)⟩
  · unfold sendStep
    rw [hstatus]
    exact ⟨h.empty, Or.inr (Or.inr hstatus)⟩

theorem Stuck.never_returns (hmax : 0 < iovMax) (htracks : Tracks mem chain sentSize s)
    (h : Stuck mem iovMax s) (n : ℕ) (out : List Buf) :
    ((sendStep mem writev iovMax)^[n] s).status ≠ .returned out := by
  induction n generalizing s with
  | zero =>
    intro hreturned
    change s.status = _ at hreturned
    rcases h.status with hstatus | ⟨iovs, hstatus⟩ | hstatus <;>
      exact absurd (hstatus.symm.trans hreturned) (by simp)
  | succ n ih => exact ih (htracks.step writev hmax) (h.step hmax htracks)

/-- A call that returns has met a partial answer. -/
theorem partial_of_returned (hmax : 0 < iovMax)
    (hwritev : ∀ k offered, 0 < offered → ∃ n, 0 < n ∧ writev k offered = .accept n) (n : ℕ)
    (htracks : Tracks mem chain sentSize s) (hstatus : s.status = .converting)
    (hreturned : ((sendStep mem writev iovMax)^[n] s).status = .returned out) :
    Partial writev iovMax s.calls s.out := by
  induction n using Nat.strong_induction_on generalizing s with
  | _ n ih =>
    rcases Nat.eq_zero_or_pos (batchSize iovMax s.out) with hzero | hpos
    · exact absurd hreturned (Stuck.never_returns hmax htracks ⟨hzero, Or.inl hstatus⟩ n out)
    obtain ⟨accepted, -, hreply⟩ := hwritev s.calls _ hpos
    rcases Nat.lt_or_ge accepted (batchSize iovMax s.out) with hlt | hle
    · exact .here hreply hlt
    refine .later hpos hreply hle ?_
    obtain ⟨iovs, hround, htracks', -⟩ := htracks.round hmax hstatus hreply
    -- the next round begins with the rest of the chain
    rcases n with _ | _ | n
    · exact absurd (hstatus.symm.trans hreturned) (by simp)
    · obtain ⟨iovs, hstep⟩ := htracks.convert writev hmax hstatus
      change (sendStep mem writev iovMax s).status = _ at hreturned
      rw [hstep] at hreturned
      cases hreturned
    · rw [Function.iterate_add_apply _ n 2, hround, afterWritev_whole hle] at hreturned
      rw [afterWritev_whole hle] at htracks'
      exact ih n (by omega) htracks' rfl hreturned

/-- With a partial answer ahead the call returns, with bytes left in the chain. -/
theorem Partial.returns (hmax : 0 < iovMax) {k : ℕ} (hpart : Partial writev iovMax k out)
    (htracks : Tracks mem chain sentSize s) (hstatus : s.status = .converting) (hcalls : s.calls = k)
    (hout : s.out = out) (hleft : ∀ left ∈ s.left, 0 < left) :
    ∃ n out', ((sendStep mem writev iovMax)^[n] s).status = .returned out' ∧
      Tracks mem chain sentSize ((sendStep mem writev iovMax)^[n] s) ∧ chainBytes mem out' ≠ [] ∧
      ∀ left ∈ ((sendStep mem writev iovMax)^[n] s).left, 0 < left := by
  induction hpart generalizing s with
  | @here k n out hreply hlt =>
    subst hcalls hout
    obtain ⟨iovs, hround, htracks', hsize⟩ := htracks.round hmax hstatus hreply
    rw [afterWritev_less hlt] at hround htracks'
    refine ⟨2, updateOutputChain s.out n, ?_, ?_, ?_, ?_⟩
    · rw [hround]
      rfl
    · rw [hround]
      exact htracks'
    · rw [update_bytes]
      intro hnil
      have hlength := congrArg List.length hnil
      rw [List.length_drop, List.length_nil] at hlength
      omega
    · rw [hround]
      intro left hmem
      rcases List.mem_cons.mp hmem with rfl | hmem
      · omega
      · exact hleft left hmem
  | @later k n out hpos hreply hle hrest ih =>
    subst hcalls hout
    obtain ⟨iovs, hround, htracks', hsize⟩ := htracks.round hmax hstatus hreply
    rw [afterWritev_whole hle] at hround htracks'
    obtain ⟨n', out', hreturned, htracks'', hbytes, hleft'⟩ := ih htracks' rfl rfl rfl (by
      intro left hmem
      rcases List.mem_cons.mp hmem with rfl | hmem
      · omega
      · exact hleft left hmem)
    rw [← hround, ← Function.iterate_add_apply] at hreturned htracks'' hleft'
    exact ⟨n' + 2, out', hreturned, htracks'', hbytes, hleft'⟩

theorem sendStep_undefined (mem : ℕ → α) (writev : ℕ → ℕ → Reply) (iovMax : ℕ)
    (hstatus : s.status = .undefined) : sendStep mem writev iovMax s = s := by
  unfold sendStep
  rw [hstatus]

/-- With `writev` accepting something whenever it can, a call finishes if and
only if the chain does not begin at NULL and some answer is partial before a
batch is empty. -/
theorem send_chain_finishes_iff (hmax : 0 < iovMax) (hne : chain ≠ [])
    (hwritev : ∀ k offered, 0 < offered → ∃ n, 0 < n ∧ writev k offered = .accept n) :
    Finishes mem writev iovMax chain sentSize ↔
      (∀ b ∈ chain.head?, b.pos ≠ 0) ∧ Partial writev iovMax 0 chain := by
  obtain ⟨b, rest, rfl⟩ := List.exists_cons_of_ne_nil hne
  have hbegin (hpos : b.pos ≠ 0) :
      Tracks mem (b :: rest) sentSize (sendChain true (b :: rest) (fresh α sentSize)) :=
    Tracks.begin rfl rfl ⟨b, rest, rfl, hpos⟩ true
  constructor
  · rintro ⟨n, out, hreturned, -⟩
    have hpos : b.pos ≠ 0 := by
      intro hzero
      have hfirst : (sendStep mem writev iovMax (sendChain true (b :: rest) (fresh α sentSize))).status =
          .undefined := by
        unfold sendStep sendChain
        rw [if_pos rfl]
        dsimp only
        rw [toIovec_null hmax hzero]
        rfl
      cases n with
      | zero => cases hreturned
      | succ n =>
        have hfixed := Function.iterate_fixed (sendStep_undefined mem writev iovMax hfirst) n
        change ((sendStep mem writev iovMax)^[n] _).status = _ at hreturned
        rw [hfixed, hfirst] at hreturned
        cases hreturned
    refine ⟨fun b' hb' => by cases hb'; exact hpos, ?_⟩
    exact partial_of_returned hmax hwritev n (hbegin hpos) rfl hreturned
  · rintro ⟨hpos, hpart⟩
    obtain ⟨n, out, hreturned, htracks, hbytes, hleft⟩ :=
      hpart.returns hmax (hbegin (hpos b rfl)) rfl rfl rfl (by simp [sendChain, fresh])
    have hout := htracks.returned out hreturned
    have hsplit := htracks.bytes
    rw [← hout] at hsplit
    refine ⟨n, out, hreturned, ?_, ?_, hleft⟩
    · intro hall
      change ((sendStep mem writev iovMax)^[n] _).accepted = _ at hall
      rw [hall] at hsplit
      exact absurd (List.append_cancel_left (hsplit.trans (List.append_nil _).symm)) hbytes
    · intro _
      refine ⟨?_, hsplit⟩
      rintro rfl
      exact hbytes rfl

/-- `writev` accepts all that it is offered. -/
def acceptAll (_ offered : ℕ) : Reply := .accept offered

/-- `writev` accepts one byte. -/
def acceptOne (_ _ : ℕ) : Reply := .accept 1

theorem send_chain_finishes_one : Finishes id acceptOne 16 threeBytes 0 := by
  have hwritev (k offered : ℕ) (_ : 0 < offered) : ∃ n, 0 < n ∧ acceptOne k offered = .accept n :=
    ⟨1, Nat.one_pos, rfl⟩
  refine (send_chain_finishes_iff (by decide) (by decide) hwritev).mpr ⟨?_, .here rfl (by decide)⟩
  intro b hb
  cases hb
  decide

/-- A chain that is accepted whole keeps the sender going with nothing left. -/
theorem send_chain_never_returns :
    (∀ k offered, 0 < offered → ∃ n, 0 < n ∧ acceptAll k offered = .accept n) ∧
    (∀ n out, (sendSteps id acceptAll 16 n threeBytes 0).status ≠ .returned out) ∧
    (sendSteps id acceptAll 16 4 threeBytes 0).accepted = chainBytes id threeBytes ∧
    0 ∈ (sendSteps id acceptAll 16 4 threeBytes 0).left ∧ ¬ Finishes id acceptAll 16 threeBytes 0 := by
  have hwritev (k offered : ℕ) (hpos : 0 < offered) : ∃ n, 0 < n ∧ acceptAll k offered = .accept n :=
    ⟨offered, hpos, rfl⟩
  have hnone {k : ℕ} {out : List Buf} (h : Partial acceptAll 16 k out) : False := by
    induction h with
    | here hreply hlt =>
      cases hreply
      exact absurd hlt (Nat.lt_irrefl _)
    | later _ _ _ _ ih => exact ih
  have htracks : Tracks id threeBytes 0 (sendChain true threeBytes (fresh ℕ 0)) :=
    Tracks.begin rfl rfl ⟨_, _, rfl, by decide⟩ true
  have hnever (n : ℕ) (out : List Buf) : (sendSteps id acceptAll 16 n threeBytes 0).status ≠ .returned out :=
    fun hreturned => hnone (partial_of_returned (by decide) hwritev n htracks rfl hreturned)
  exact ⟨hwritev, hnever, by decide, by decide, fun ⟨n, out, hreturned, _⟩ => hnever n out hreturned⟩

/-- A link as `hcore_alloc_chain_with_buf` makes it. -/
def nullChain : List Buf := [⟨0, 0, Nat.le_refl 0⟩]

theorem null_buffer_undefined : ∃ s : Sender ℕ, Reaches id acceptAll 16 nullChain 0 s ∧
    s.status = .undefined ∧ ¬ Exact id nullChain 0 s := by
  have hundefined : (sendSteps id acceptAll 16 1 nullChain 0).status = .undefined := rfl
  exact ⟨_, .step (.first true), hundefined, fun h => h.defined hundefined⟩

end

end HCore.SendChainRuns
