import HCore.PackRoundTrip
import HCore.SendChainRuns

/-!
A pack on its way from a writer to a reader. The bytes that the writer has
emitted lie in a chain of buffers, the sender gives them to `writev` batch by
batch, and the reader is given what `writev` has accepted in parts of any size,
at any time. Whatever the order of these steps, the reader is never misled, and
it shows the pack of the writer exactly when the last byte has arrived.
-/

namespace HCore.PackTransport

open Machine PoolRequests Framing PackModel PackReader PackGrammar PackDecoding PackIncremental
  PackContents PackHistory PackWriter PackRoundTrip SendChain SendChainRuns

/-- The sender, the reader if no call has returned -1, and the number of accepted
bytes that the reader was given. -/
structure Transport where
  sender : Sender UInt8
  reader : Option Progress
  arrived : ℕ

/-- The accepted bytes behind those that have arrived. -/
def Transport.chunk (t : Transport) (n : ℕ) : List UInt8 := (t.sender.accepted.drop t.arrived).take n

section

variable (mem : ℕ → UInt8) (writev : ℕ → ℕ → Reply) (iovMax : ℕ)

/-- A step of the sender, its next call, or a call of the reader with further
bytes. -/
inductive Step : Transport → Transport → Prop
  | send {t : Transport} : Step t { t with sender := sendStep mem writev iovMax t.sender }
  | again {t : Transport} {out : List Buf} (ready : Bool) (hreturned : t.sender.status = .returned out)
      (hne : out ≠ []) : Step t { t with sender := sendChain ready out t.sender }
  | arrive {t : Transport} {p : Progress} {reader : Option Progress} (n : ℕ) (elsewhere : Bytes)
      (buffer : ℕ) (hle : t.arrived + n ≤ t.sender.accepted.length) (hreader : t.reader = some p)
      (hcall : deliver p [⟨elsewhere, buffer, t.chunk n⟩] = Except.ok reader) :
      Step t ⟨t.sender, reader, t.arrived + n⟩

/-- The states of a chain on its way to a new reader. -/
inductive Reaches (chain : List Buf) (r : Pack) : Transport → Prop
  | first (ready : Bool) (sentSize : ℕ) :
      Reaches chain r ⟨sendChain ready chain (fresh UInt8 sentSize), some ⟨r, [], 0⟩, 0⟩
  | step {t t' : Transport} (h : Reaches chain r t) (hstep : Step mem writev iovMax t t') :
      Reaches chain r t'

/-- The reader is where a run on the bytes that have arrived ends. -/
structure Carried (chain : List Buf) (r : Pack) (t : Transport) : Prop where
  tracks : ∃ sentSize, Tracks mem chain sentSize t.sender
  arrived_le : t.arrived ≤ t.sender.accepted.length
  reader : ∃ p, t.reader = some p ∧
    Runs packMachine r ((chainBytes mem chain).take t.arrived) (.stop p.pack p.pending) ∧
    p.consumed = (t.arrived : ℤ) - p.pending.length

end

section

variable {mem : ℕ → UInt8} {writev : ℕ → ℕ → Reply} {iovMax : ℕ} {chain : List Buf} {r r' : Pack}
  {t t' : Transport} {message : List UInt8}

/-- No part of a message that is read to its end is rejected. -/
theorem part_not_rejected {part rest : List UInt8} (hrun : Runs packMachine r message (.stop r' []))
    (hpart : message = part ++ rest) : ¬ Runs packMachine r part .reject := by
  intro hreject
  have hwhole := hreject.reject_append rest
  rw [← hpart] at hwhole
  cases hrun.deterministic hwhole

/-- The accepted bytes are a part of the message. -/
theorem Carried.chunk_eq (h : Carried mem chain r t) {n : ℕ}
    (hle : t.arrived + n ≤ t.sender.accepted.length) :
    (chainBytes mem chain).take (t.arrived + n) =
      (chainBytes mem chain).take t.arrived ++ t.chunk n := by
  obtain ⟨sentSize, htracks⟩ := h.tracks
  rw [← htracks.bytes, List.take_append_of_le_length hle,
    List.take_append_of_le_length h.arrived_le, List.take_add, Transport.chunk]

/-- A call of the reader with the next bytes ends where a run on all bytes so far ends. -/
theorem Carried.deliver (h : Carried mem chain r t) (hsound : Sound r (chainBytes mem chain))
    (hrun : Runs packMachine r (chainBytes mem chain) (.stop r' [])) {p : Progress}
    (hreader : t.reader = some p) {n : ℕ} (hle : t.arrived + n ≤ t.sender.accepted.length)
    (elsewhere : Bytes) (buffer : ℕ) :
    ∃ p', PackIncremental.deliver p [⟨elsewhere, buffer, t.chunk n⟩] = Except.ok (some p') ∧
      Carried mem chain r ⟨t.sender, some p', t.arrived + n⟩ := by
  obtain ⟨p₀, hp₀, hstop, hconsumed⟩ := h.reader
  obtain rfl : p₀ = p := Option.some.inj (hp₀.symm.trans hreader)
  have htaken := h.chunk_eq hle
  have hpart : chainBytes mem chain =
      (chainBytes mem chain).take (t.arrived + n) ++ (chainBytes mem chain).drop (t.arrived + n) :=
    (List.take_append_drop ..).symm
  obtain ⟨before, hbefore, hreads⟩ := hstop.reads
  have hsoundP : Sound p₀.pack (p₀.pending ++ t.chunk n) := by
    have hinput : Sound r (before ++
        (p₀.pending ++ t.chunk n ++ (chainBytes mem chain).drop (t.arrived + n))) := by
      rw [← List.append_assoc, ← List.append_assoc, ← hbefore, ← htaken, ← hpart]
      exact hsound
    have hall := packMachine_kept.reads hreads hinput
    have hroom := hall.room
    rw [List.length_append] at hroom
    exact ⟨hall.aligned, hall.granting, hall.usable, by omega, hall.name, hall.current⟩
  have hdelivered : delivered [⟨elsewhere, buffer, t.chunk n⟩] = t.chunk n := List.append_nil _
  obtain ⟨out, hrunP⟩ := packMachine_runs p₀.pack hsoundP.aligned (p₀.pending ++ t.chunk n)
  have hwhole := hreads.runs hrunP
  rw [← List.append_assoc, ← hbefore, ← htaken] at hwhole
  cases out with
  | reject => exact absurd hwhole (part_not_rejected hrun hpart)
  | stop s rest =>
    have hcall := deliver_runs [⟨elsewhere, buffer, t.chunk n⟩] (by rw [hdelivered]; exact hsoundP)
      (stop_waits hstop) (by rw [hdelivered]; exact hrunP) p₀.consumed
    refine ⟨_, hcall, h.tracks, hle, _, rfl, hwhole, ?_⟩
    have hlength : (t.chunk n).length = n := by
      rw [Transport.chunk, List.length_take, List.length_drop]
      omega
    rw [hdelivered, List.length_append, hlength, hconsumed]
    push_cast
    ring

end

end HCore.PackTransport
