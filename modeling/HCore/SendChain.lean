import HCore.Machine
import Mathlib.Data.List.Basic

/-!
Sending a chain of buffers with `writev`. The bytes of a buffer lie in memory
between `pos` and `last`. A batch of the chain becomes an array of memory
ranges, where neighbours in memory share a range; what `writev` accepts of it
moves the positions of the buffers on, link by link.
-/

namespace HCore.SendChain

open Machine

/-- The positions of `hcore_buf_t`. -/
structure Buf where
  pos : ℕ
  last : ℕ
  pos_le : pos ≤ last

/-- `hcore_buf_get_size` -/
def Buf.size (b : Buf) : ℕ := b.last - b.pos

/-- `buf->pos += size` -/
def Buf.advance (b : Buf) (size : ℕ) (h : size ≤ b.size) : Buf :=
  ⟨b.pos + size, b.last, by unfold Buf.size at h; have := b.pos_le; omega⟩

section

variable {α : Type} (mem : ℕ → α)

/-- The memory from `base` on. -/
def read (base len : ℕ) : List α := (List.range' base len).map mem

def Buf.bytes (b : Buf) : List α := read mem b.pos b.size

def chainBytes (out : List Buf) : List α := out.flatMap (Buf.bytes mem)

/-- What `writev` is offered by an array of ranges. -/
def iovecBytes (iovs : List (ℕ × ℕ)) : List α := iovs.flatMap fun v => read mem v.1 v.2

end

/-- The loop of `hcore_output_chain_to_iovec`: the initialised entries, the last
of which is `iov`, the total, and the rest of the chain. -/
def toIovecLoop (nalloc : ℕ) : List Buf → List (ℕ × ℕ) → ℕ → ℕ → Exec (List (ℕ × ℕ) × ℕ × List Buf)
  | [], iovs, _, total => pure (iovs, total, [])
  | b :: out, iovs, prevLast, total =>
    if iovs.length = nalloc then pure (iovs, total, b :: out)
    else if prevLast = b.pos then
      match iovs.getLast? with
      | none => undefined
      | some iov =>
        toIovecLoop nalloc out (iovs.dropLast ++ [(iov.1, iov.2 + b.size)]) (b.pos + b.size)
          (total + b.size)
    else toIovecLoop nalloc out (iovs ++ [(b.pos, b.size)]) (b.pos + b.size) (total + b.size)

/-- `hcore_output_chain_to_iovec` -/
def outputChainToIovec (nalloc : ℕ) (out : List Buf) : Exec (List (ℕ × ℕ) × ℕ × List Buf) :=
  toIovecLoop nalloc out [] 0 0

/-- The loop of `hcore_update_output_chain`. -/
def updateLoop : List Buf → ℕ → List Buf
  | [], _ => []
  | b :: out, sent =>
    let rest := sent - min sent b.size
    if rest = 0 then b.advance (min sent b.size) (Nat.min_le_right _ _) :: out else updateLoop out rest

/-- `hcore_update_output_chain` -/
def updateOutputChain (out : List Buf) (sent : ℕ) : List Buf :=
  if sent = 0 then out else updateLoop out sent

section

variable {α : Type} {mem : ℕ → α} {nalloc sent prevLast total : ℕ} {out rest : List Buf} {b : Buf}
  {iovs iovs' : List (ℕ × ℕ)}

@[simp] theorem read_length (base len : ℕ) : (read mem base len).length = len := by simp [read]

theorem read_add (base len len' : ℕ) :
    read mem base (len + len') = read mem base len ++ read mem (base + len) len' := by
  unfold read
  rw [← List.map_append, List.range'_append_1]

@[simp] theorem chainBytes_cons : chainBytes mem (b :: out) = b.bytes mem ++ chainBytes mem out := rfl

@[simp] theorem bytes_length : (b.bytes mem).length = b.size := read_length ..

theorem advance_bytes (h : sent ≤ b.size) : (b.advance sent h).bytes mem = (b.bytes mem).drop sent := by
  obtain ⟨k, hk⟩ := Nat.exists_eq_add_of_le h
  have hsize : (b.advance sent h).size = k := by
    change b.last - (b.pos + sent) = k
    unfold Buf.size at hk
    omega
  have hpos : (b.advance sent h).pos = b.pos + sent := rfl
  rw [Buf.bytes, hsize, hpos, Buf.bytes, hk, read_add, List.drop_append_of_le_length (by simp)]
  simp

theorem updateLoop_bytes (out : List Buf) (sent : ℕ) :
    chainBytes mem (updateLoop out sent) = (chainBytes mem out).drop sent := by
  induction out generalizing sent with
  | nil => simp [updateLoop, chainBytes]
  | cons b out ih =>
    rw [updateLoop]
    rw [chainBytes_cons]
    by_cases hle : sent ≤ b.size
    · have hmin : min sent b.size = sent := Nat.min_eq_left hle
      rw [if_pos (by omega), chainBytes_cons, advance_bytes, hmin, List.drop_append_of_le_length]
      rw [bytes_length]
      exact hle
    · have hmin : min sent b.size = b.size := Nat.min_eq_right (by omega)
      have hgone : (b.bytes mem).drop sent = [] := List.drop_eq_nil_of_le (by rw [bytes_length]; omega)
      rw [if_neg (by omega), ih, hmin, List.drop_append, bytes_length, hgone, List.nil_append]

/-- The chain loses the bytes that were sent. -/
theorem update_bytes (out : List Buf) (sent : ℕ) :
    chainBytes mem (updateOutputChain out sent) = (chainBytes mem out).drop sent := by
  unfold updateOutputChain
  by_cases hzero : sent = 0
  · rw [if_pos hzero, hzero, List.drop_zero]
  · rw [if_neg hzero, updateLoop_bytes]

/-- The update ends at the link that holds the last byte sent. -/
theorem updateLoop_head (mem : ℕ → α) (hpos : 0 < sent) (hle : sent ≤ (chainBytes mem out).length) :
    ∃ b rest, updateLoop out sent = b :: rest ∧ b.pos ≠ 0 := by
  induction out generalizing sent with
  | nil => simp [chainBytes] at hle; omega
  | cons b out ih =>
    rw [chainBytes_cons, List.length_append, bytes_length] at hle
    rw [updateLoop]
    by_cases hrest : sent - min sent b.size = 0
    · rw [if_pos hrest]
      refine ⟨_, _, rfl, ?_⟩
      change b.pos + min sent b.size ≠ 0
      omega
    · rw [if_neg hrest]
      exact ih (by omega) (by omega)

theorem iovecBytes_append (iovs iovs' : List (ℕ × ℕ)) :
    iovecBytes mem (iovs ++ iovs') = iovecBytes mem iovs ++ iovecBytes mem iovs' :=
  List.flatMap_append

theorem iovecBytes_single (base len : ℕ) : iovecBytes mem [(base, len)] = read mem base len := by
  simp [iovecBytes]

/-- The end of the last range is where the last buffer ended. -/
def EndsAt (iovs : List (ℕ × ℕ)) (prevLast : ℕ) : Prop :=
  iovs ≠ [] ∧ ∀ iov, iovs.getLast? = some iov → iov.1 + iov.2 = prevLast

theorem endsAt_append (iovs : List (ℕ × ℕ)) (base len : ℕ) :
    EndsAt (iovs ++ [(base, len)]) (base + len) := by
  refine ⟨by simp, ?_⟩
  intro iov hiov
  rw [List.getLast?_concat] at hiov
  cases hiov
  rfl

theorem pos_add_size (b : Buf) : b.pos + b.size = b.last := Nat.add_sub_cancel' b.pos_le

/-- Behind a first range, a buffer goes into the last range or into one of its own. -/
theorem toIovecLoop_round (mem : ℕ → α) (b : Buf) (out : List Buf) (total : ℕ)
    (hend : EndsAt iovs prevLast) (hfull : iovs.length ≠ nalloc) :
    ∃ iovs', toIovecLoop nalloc (b :: out) iovs prevLast total =
        toIovecLoop nalloc out iovs' b.last (total + b.size) ∧
      EndsAt iovs' b.last ∧ iovecBytes mem iovs' = iovecBytes mem iovs ++ b.bytes mem ∧
      iovs'.length = iovs.length + if some prevLast = some b.pos then 0 else 1 := by
  have hlast := pos_add_size b
  rw [toIovecLoop, if_neg hfull, hlast]
  by_cases hprev : prevLast = b.pos
  · rw [if_pos hprev, if_pos (congrArg some hprev)]
    obtain ⟨front, iov, rfl⟩ : ∃ front iov, iovs = front ++ [iov] :=
      ⟨iovs.dropLast, iovs.getLast hend.1, (List.dropLast_append_getLast hend.1).symm⟩
    have hiov : iov.1 + iov.2 = b.pos := (hend.2 iov List.getLast?_concat).trans hprev
    rw [List.getLast?_concat, List.dropLast_concat]
    refine ⟨front ++ [(iov.1, iov.2 + b.size)], rfl, ?_, ?_, ?_⟩
    · have heq : b.last = iov.1 + (iov.2 + b.size) := by omega
      rw [heq]
      exact endsAt_append ..
    · rw [iovecBytes_append, iovecBytes_append, iovecBytes_single, iovecBytes_single, read_add, hiov,
        List.append_assoc, Buf.bytes]
    · rw [List.length_append, List.length_append]
      rfl
  · rw [if_neg hprev, if_neg fun h => hprev (Option.some.inj h)]
    refine ⟨iovs ++ [(b.pos, b.size)], rfl, ?_, ?_, ?_⟩
    · rw [← hlast]
      exact endsAt_append ..
    · rw [iovecBytes_append, iovecBytes_single, Buf.bytes]
    · rw [List.length_append, List.length_singleton]

/-- Behind a first range, the ranges are the bytes of the buffers. -/
theorem toIovecLoop_bytes (mem : ℕ → α) (nalloc : ℕ) (out : List Buf) (iovs : List (ℕ × ℕ)) (prevLast total : ℕ)
    (hend : EndsAt iovs prevLast) (htotal : total = (iovecBytes mem iovs).length) :
    ∃ iovs' total' rest, toIovecLoop nalloc out iovs prevLast total = Except.ok (iovs', total', rest) ∧
      iovecBytes mem iovs ++ chainBytes mem out = iovecBytes mem iovs' ++ chainBytes mem rest ∧
      total' = (iovecBytes mem iovs').length := by
  induction out generalizing iovs prevLast total with
  | nil => exact ⟨iovs, total, [], rfl, rfl, htotal⟩
  | cons b out ih =>
    by_cases hfull : iovs.length = nalloc
    · rw [toIovecLoop, if_pos hfull]
      exact ⟨iovs, total, b :: out, rfl, rfl, htotal⟩
    · obtain ⟨iovs1, hround, hend1, hbytes, -⟩ := toIovecLoop_round mem b out total hend hfull
      obtain ⟨iovs', total', rest, hrun, hsplit, htotal'⟩ := ih iovs1 b.last (total + b.size) hend1
        (by rw [hbytes, List.length_append, bytes_length, ← htotal])
      refine ⟨iovs', total', rest, hround.trans hrun, ?_, htotal'⟩
      rw [← hsplit, hbytes, chainBytes_cons, List.append_assoc]

/-- A first buffer that is not at NULL goes into a range of its own. -/
theorem outputChainToIovec_first (hmax : 0 < nalloc) (hpos : b.pos ≠ 0) :
    outputChainToIovec nalloc (b :: out) =
      toIovecLoop nalloc out ([] ++ [(b.pos, b.size)]) (b.pos + b.size) (0 + b.size) := by
  rw [outputChainToIovec, toIovecLoop, if_neg (by simp; omega), if_neg hpos.symm]

/-- The array offers the first bytes of a chain that does not begin at NULL. -/
theorem toIovec_bytes (mem : ℕ → α) (out : List Buf) (hmax : 0 < nalloc) (hpos : b.pos ≠ 0) :
    ∃ iovs total rest, outputChainToIovec nalloc (b :: out) = Except.ok (iovs, total, rest) ∧
      chainBytes mem (b :: out) = iovecBytes mem iovs ++ chainBytes mem rest ∧
      total = (iovecBytes mem iovs).length := by
  rw [outputChainToIovec_first hmax hpos]
  obtain ⟨iovs, total, rest, hrun, hsplit, htotal⟩ :=
    toIovecLoop_bytes mem nalloc out _ _ (0 + b.size) (endsAt_append [] b.pos b.size) (by simp [iovecBytes])
  refine ⟨iovs, total, rest, hrun, ?_, htotal⟩
  rw [← hsplit, List.nil_append, iovecBytes_single]
  rfl

/-- A first buffer at NULL is taken for a neighbour of a range that is not there. -/
theorem toIovec_null (hmax : 0 < nalloc) (hpos : b.pos = 0) :
    outputChainToIovec nalloc (b :: out) = undefined := by
  rw [outputChainToIovec, toIovecLoop, if_neg (by simp; omega), if_pos hpos.symm]
  rfl

end

end HCore.SendChain
