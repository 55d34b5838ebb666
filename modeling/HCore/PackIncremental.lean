import HCore.PackAcceptance

/-!
Delivery of a message in parts. Every call is given what the previous call has
left over and some further bytes, in a buffer of its own. However the bytes
are cut, the calls end as one call on all of them does.
-/

namespace HCore.PackIncremental

open Machine PoolRequests Framing PackModel PackReader PackGrammar PackDecoding PackAcceptance

/-- A buffer that holds these bytes, in memory that is arbitrary elsewhere. -/
def place (elsewhere : Bytes) (buffer : ℕ) (bytes : List UInt8) : Bytes := fun a =>
  if buffer ≤ a ∧ a < buffer + bytes.length then bytes.getD (a - buffer) 0 else elsewhere a

theorem place_holds (elsewhere : Bytes) (buffer : ℕ) (bytes : List UInt8) :
    HoldsAt (place elsewhere buffer bytes) buffer bytes := by
  apply List.ext_getElem
  · rw [window_length]
  · intro i hi hlt
    simp only [window, place, List.getElem_map, List.getElem_range]
    rw [if_pos (by omega), Nat.add_sub_cancel_left]
    rw [List.getD_eq_getElem?_getD, List.getElem?_eq_getElem hlt, Option.getD_some]

/-- One call: the further bytes, the buffer and the memory around it. -/
structure Delivery where
  elsewhere : Bytes
  buffer : ℕ
  chunk : List UInt8

def delivered (ds : List Delivery) : List UInt8 := ds.flatMap Delivery.chunk

/-- `hcore_pack_read` on these bytes. -/
def readBytes (elsewhere : Bytes) (buffer : ℕ) (bytes : List UInt8) (s : Pack) : Exec (ℤ × Pack) :=
  (packRead (place elsewhere buffer bytes) buffer (buffer + bytes.length) s).result

/-- Where the calls have come to: the reader, what it has left over, and the
sum of the numbers of bytes that it has returned. -/
structure Progress where
  pack : Pack
  pending : List UInt8
  consumed : ℤ

/-- The calls one after another; `none` when one of them returns -1. -/
def deliver : Progress → List Delivery → Exec (Option Progress)
  | p, [] => pure (some p)
  | p, d :: ds => do
    let (r, s) ← readBytes d.elsewhere d.buffer (p.pending ++ d.chunk) p.pack
    if r = -1 then pure none
    else deliver ⟨s, (p.pending ++ d.chunk).drop r.toNat, p.consumed + r⟩ ds

/-- The progress that a run on all of the bytes describes. -/
def runProgress (total : ℤ) : Outcome Pack UInt8 → Option Progress
  | .stop s rest => some ⟨s, rest, total - rest.length⟩
  | .reject => none

section

variable {s s' : Pack} {pending input rest : List UInt8} {out : Outcome Pack UInt8}

/-- What a run leaves over is waiting. -/
theorem stop_waits (h : Runs packMachine s input (.stop s' rest)) :
    Runs packMachine s' rest (.stop s' rest) := by
  rcases h.stopped with hneed | ⟨n, hneed, hlen⟩
  · exact .final hneed
  · exact .wait hneed hlen

theorem readBytes_stop (hs : Sound s input) (h : Runs packMachine s input (.stop s' rest))
    (elsewhere : Bytes) (buffer : ℕ) :
    readBytes elsewhere buffer input s = Except.ok ((input.length : ℤ) - rest.length, s') :=
  packRead_of_runs h hs.aligned (fun _ => hs) (place_holds elsewhere buffer input)

theorem readBytes_reject (hs : Sound s input) (h : Runs packMachine s input .reject)
    (elsewhere : Bytes) (buffer : ℕ) :
    ∃ s', readBytes elsewhere buffer input s = Except.ok (-1, s') := by
  obtain ⟨s', hcall, -⟩ :=
    packRead_of_runs h hs.aligned (fun _ => hs) (place_holds elsewhere buffer input)
  exact ⟨s', hcall⟩

/-- A cut of the input does not change where a run ends. -/
theorem deliver_runs (ds : List Delivery) (hs : Sound s (pending ++ delivered ds))
    (hwait : Runs packMachine s pending (.stop s pending))
    (h : Runs packMachine s (pending ++ delivered ds) out) (consumed : ℤ) :
    deliver ⟨s, pending, consumed⟩ ds =
      Except.ok (runProgress (consumed + (pending ++ delivered ds).length) out) := by
  induction ds generalizing s pending consumed with
  | nil =>
    rw [delivered, List.flatMap_nil, List.append_nil] at h ⊢
    rw [h.deterministic hwait, runProgress, Int.add_sub_cancel]
    rfl
  | cons d ds ih =>
    have hcut : pending ++ delivered (d :: ds) = (pending ++ d.chunk) ++ delivered ds := by
      rw [delivered, List.flatMap_cons, List.append_assoc]
      rfl
    rw [hcut] at hs h ⊢
    have hs' : Sound s (pending ++ d.chunk) := by
      have hroom := hs.room
      rw [List.length_append] at hroom
      exact ⟨hs.aligned, hs.granting, hs.usable, by omega, hs.name, hs.current⟩
    obtain ⟨out1, hrun⟩ := packMachine_runs s hs.aligned (pending ++ d.chunk)
    rw [deliver]
    cases out1 with
    | reject =>
      obtain ⟨s', hcall⟩ := readBytes_reject hs' hrun d.elsewhere d.buffer
      rw [h.deterministic (hrun.reject_append _)]
      refine bind_of_ok hcall ?_
      rfl
    | stop s1 rest =>
      obtain ⟨before, hinput, hreads⟩ := hrun.reads
      have hcall := readBytes_stop hs' hrun d.elsewhere d.buffer
      have hlength : (pending ++ d.chunk).length = before.length + rest.length := by
        rw [hinput, List.length_append]
      rw [hlength, show ((before.length + rest.length : ℕ) : ℤ) - (rest.length : ℕ) =
        (before.length : ℕ) by omega] at hcall
      refine bind_of_ok hcall ?_
      dsimp only
      rw [if_neg (by omega), Int.toNat_natCast, hinput, List.drop_left]
      rw [hinput, List.append_assoc] at hs h
      have hs1 := packMachine_kept.reads hreads hs
      obtain ⟨out2, hrun2⟩ := packMachine_runs s1 hs1.aligned (rest ++ delivered ds)
      obtain rfl := h.deterministic (hreads.runs hrun2)
      rw [ih hs1 (stop_waits hrun) hrun2, List.append_assoc before]
      congr 2
      simp only [List.length_append]
      push_cast
      ring

end

end HCore.PackIncremental
