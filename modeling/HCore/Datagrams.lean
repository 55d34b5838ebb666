import HCore.Machine
import Mathlib.Data.List.Basic

/-!
Receiving datagrams on a connection that may bind its peer. Every `recvfrom`
answers with a datagram and the address of its sender, or with a failure. The
address goes to a `struct sockaddr` on the stack, in a call that is given the
length of the address before. The first named sender is bound; once there is
one, the addresses of later senders are written down and not looked at.
-/

namespace HCore.Datagrams

open Machine

/-- The values of `errno` that the loop tells apart. -/
inductive Errno
  | again
  | interrupted
  | other
  deriving DecidableEq, Repr

/-- What `recvfrom` finds: a datagram and the address of its sender, empty for
an unnamed one, or a failure. -/
inductive Arrival
  | datagram (data source : List ℕ)
  | failure (err : Errno)
  deriving DecidableEq, Repr

/-- The flags of `hcore_event_t` that a receiver sets. -/
structure Event where
  ready : Bool
  eof : Bool
  error : Bool
  deriving DecidableEq, Repr

/-- The fields of `hcore_connection_t` for datagrams: the block at `sockaddr`,
and whether the pool grants its next allocations. -/
structure Connection where
  known : Bool
  bindPeer : Bool
  sockaddr : List ℕ
  socklen : ℕ
  rev : Event
  grants : List Bool
  deriving DecidableEq, Repr

/-- The return values; a datagram comes with its sender, whom the caller does
not see. -/
inductive Outcome
  | received (data source : List ℕ)
  | again
  | error
  deriving DecidableEq, Repr

/-- `sizeof(struct sockaddr)` -/
def sockaddrSize : ℕ := 16

/-- The first bytes of the address, as many as `socklen` admits. -/
def storeSource (sockaddr : List ℕ) (socklen : ℕ) (source : List ℕ) : Exec (List ℕ) :=
  if min socklen source.length ≤ sockaddrSize then
    pure (source.take socklen ++ sockaddr.drop (min socklen source.length))
  else undefined

/-- Whether the pool grants an allocation. -/
def Connection.allocate (c : Connection) : Bool × Connection :=
  (c.grants.headD false, { c with grants := c.grants.tail })

/-- `*c->sockaddr = sockaddr`, on a new block of `socklen` zero bytes. -/
def Connection.storeSockaddr (c : Connection) (sockaddr : List ℕ) (socklen : ℕ) : Exec Connection :=
  if sockaddrSize ≤ socklen then
    pure { c with
      sockaddr := sockaddr ++ List.replicate (socklen - sockaddrSize) 0
      socklen }
  else undefined

/-- The loop of `hcore_udp_recv`, with the variables `sockaddr` and `socklen`. -/
def udpRecvLoop (size : ℕ) :
    List Arrival → Connection → List ℕ → ℕ → Exec (Outcome × Connection × List Arrival)
  | [], _, _, _ => outOfFuel
  | .failure .again :: queue, c, _, _ =>
    pure (.again, { c with rev := { c.rev with ready := false } }, queue)
  | .failure .interrupted :: queue, c, sockaddr, socklen => udpRecvLoop size queue c sockaddr socklen
  | .failure .other :: queue, c, _, _ =>
    pure (.error, { c with rev := { c.rev with error := true } }, queue)
  | .datagram data source :: queue, c, sockaddr, socklen => do
    let sockaddr ← storeSource sockaddr socklen source
    if data.take size = [] then
      pure (.error, { c with rev := { c.rev with eof := true } }, queue)
    else if source.length = 0 ∧ c.known then udpRecvLoop size queue c sockaddr source.length
    else if c.bindPeer ∧ c.socklen = 0 then
      let (granted, c) := c.allocate
      if granted then do
        let c ← c.storeSockaddr sockaddr source.length
        let (granted, c) := c.allocate
        if granted then pure (.received (data.take size) source, c, queue)
        else pure (.error, c, queue)
      else udpRecvLoop size queue c sockaddr source.length
    else pure (.received (data.take size) source, c, queue)

/-- `hcore_udp_recv`; `stack` is what `sockaddr` holds on entry. -/
def udpRecv (stack : List ℕ) (size : ℕ) (c : Connection) (queue : List Arrival) :
    Exec (Outcome × Connection × List Arrival) :=
  if c.bindPeer ∧ c.socklen ≠ 0 then
    if sockaddrSize ≤ c.sockaddr.length then
      udpRecvLoop size queue c (c.sockaddr.take sockaddrSize) c.socklen
    else undefined
  else udpRecvLoop size queue c stack sockaddrSize

/-- The sender of the first datagram that is not skipped, if one arrives before
a failure or an empty datagram. -/
def firstNamed (size : ℕ) : List Arrival → Option (List ℕ)
  | [] => none
  | .failure .interrupted :: queue => firstNamed size queue
  | .failure _ :: _ => none
  | .datagram data source :: queue =>
    if data.take size = [] then none
    else if source = [] then firstNamed size queue else some source

/-- A call that has returned: its buffer size, what was waiting, its outcome. -/
structure Receipt where
  size : ℕ
  queue : List Arrival
  outcome : Outcome

/-- Calls of `hcore_udp_recv` one after the other. -/
inductive Receives : Connection → List Arrival → List Receipt → Prop
  | nil {c : Connection} {queue : List Arrival} : Receives c queue []
  | cons {c c' : Connection} {queue rest : List Arrival} {stack : List ℕ} {size : ℕ}
      {outcome : Outcome} {log : List Receipt}
      (hrun : udpRecv stack size c queue = Except.ok (outcome, c', rest))
      (h : Receives c' rest log) : Receives c queue (⟨size, queue, outcome⟩ :: log)

/-- Every datagram that was returned comes from `peer`. -/
def FromPeer (peer : List ℕ) (log : List Receipt) : Prop :=
  ∀ e ∈ log, ∀ data source, e.outcome = .received data source → source = peer

/-- At every call, the first datagram that is not skipped comes from `peer`. -/
def OnlyPeer (peer : List ℕ) (log : List Receipt) : Prop :=
  ∀ e ∈ log, ∀ source, firstNamed e.size e.queue = some source → source = peer

/-- A connection that keeps the settings of another. -/
def Settings (c c' : Connection) : Prop := c'.known = c.known ∧ c'.bindPeer = c.bindPeer

section

variable {c c' : Connection} {queue rest : List Arrival} {sockaddr stack : List ℕ}
  {size socklen : ℕ} {outcome : Outcome}

/-- On a bound connection the loop returns the first datagram of any sender. -/
theorem udpRecvLoop_bound (hknown : c.known = true) (hbound : c.socklen ≠ 0)
    (hrun : udpRecvLoop size queue c sockaddr socklen = Except.ok (outcome, c', rest)) :
    Settings c c' ∧ c'.socklen = c.socklen ∧
      ∀ source, firstNamed size queue = some source ↔ ∃ data, outcome = .received data source := by
  induction queue generalizing sockaddr socklen with
  | nil => cases hrun
  | cons arrival queue ih =>
    match arrival with
    | .failure .again =>
      cases hrun
      exact ⟨⟨rfl, rfl⟩, rfl, by simp [firstNamed]⟩
    | .failure .interrupted => exact ih hrun
    | .failure .other =>
      cases hrun
      exact ⟨⟨rfl, rfl⟩, rfl, by simp [firstNamed]⟩
    | .datagram data source =>
      obtain ⟨sockaddr', -, hrun⟩ := bind_eq_ok.mp hrun
      dsimp only at hrun
      by_cases hdata : data.take size = []
      · rw [if_pos hdata] at hrun
        cases hrun
        exact ⟨⟨rfl, rfl⟩, rfl, by simp [firstNamed, hdata]⟩
      · rw [if_neg hdata] at hrun
        by_cases hsource : source = []
        · rw [if_pos ⟨List.length_eq_zero_iff.mpr hsource, hknown⟩] at hrun
          rw [firstNamed, if_neg hdata, if_pos hsource]
          exact ih hrun
        · have hlength : source.length ≠ 0 := fun h => hsource (List.length_eq_zero_iff.mp h)
          rw [if_neg fun h => hlength h.1, if_neg fun h => hbound h.2] at hrun
          cases hrun
          refine ⟨⟨rfl, rfl⟩, rfl, fun source' => ?_⟩
          rw [firstNamed, if_neg hdata, if_neg hsource]
          simp [eq_comm]

/-- The loop binds the peer with the last datagram that it takes. -/
theorem udpRecvLoop_binds (hunbound : c.socklen = 0) (hbound : c'.socklen ≠ 0)
    (hrun : udpRecvLoop size queue c sockaddr socklen = Except.ok (outcome, c', rest)) :
    Settings c c' ∧ ∃ skipped data peer, queue = skipped ++ .datagram data peer :: rest := by
  induction queue generalizing c sockaddr socklen with
  | nil => cases hrun
  | cons arrival queue ih =>
    have hskip {c₁ : Connection} {sockaddr : List ℕ} {socklen : ℕ} (hsettings : Settings c c₁)
        (hunbound : c₁.socklen = 0)
        (hrun : udpRecvLoop size queue c₁ sockaddr socklen = Except.ok (outcome, c', rest)) :
        Settings c c' ∧ ∃ skipped data peer,
          arrival :: queue = skipped ++ .datagram data peer :: rest := by
      obtain ⟨hkeep, skipped, data, peer, hqueue⟩ := ih hunbound hrun
      refine ⟨⟨hkeep.1.trans hsettings.1, hkeep.2.trans hsettings.2⟩,
        arrival :: skipped, data, peer, ?_⟩
      rw [hqueue, List.cons_append]
    match arrival with
    | .failure .again =>
      cases hrun
      exact absurd hunbound hbound
    | .failure .interrupted => exact hskip ⟨rfl, rfl⟩ hunbound hrun
    | .failure .other =>
      cases hrun
      exact absurd hunbound hbound
    | .datagram data source =>
      obtain ⟨sockaddr', -, hrun⟩ := bind_eq_ok.mp hrun
      dsimp only at hrun
      by_cases hdata : data.take size = []
      · rw [if_pos hdata] at hrun
        cases hrun
        exact absurd hunbound hbound
      · rw [if_neg hdata] at hrun
        by_cases hunknown : source.length = 0 ∧ c.known
        · rw [if_pos hunknown] at hrun
          exact hskip ⟨rfl, rfl⟩ hunbound hrun
        · rw [if_neg hunknown] at hrun
          by_cases hbind : c.bindPeer = true
          · rw [if_pos ⟨hbind, hunbound⟩] at hrun
            by_cases hrecord : c.allocate.1 = true
            · rw [if_pos hrecord] at hrun
              obtain ⟨c₁, hstore, hrun⟩ := bind_eq_ok.mp hrun
              have hlast : c' = c₁.allocate.2 ∧ rest = queue := by
                split at hrun
                · cases hrun
                  exact ⟨rfl, rfl⟩
                · cases hrun
                  exact ⟨rfl, rfl⟩
              have hkeep : Settings c c₁ := by
                unfold Connection.storeSockaddr at hstore
                split at hstore
                · cases hstore
                  exact ⟨rfl, rfl⟩
                · cases hstore
              obtain ⟨rfl, rfl⟩ := hlast
              exact ⟨hkeep, [], data, source, rfl⟩
            · rw [if_neg hrecord] at hrun
              have hkeep : Settings c c.allocate.2 := ⟨rfl, rfl⟩
              exact hskip hkeep hunbound hrun
          · rw [if_neg fun h => hbind h.1] at hrun
            cases hrun
            exact absurd hunbound hbound

theorem udpRecv_bound (hknown : c.known = true) (hbound : c.socklen ≠ 0)
    (hrun : udpRecv stack size c queue = Except.ok (outcome, c', rest)) :
    Settings c c' ∧ c'.socklen = c.socklen ∧
      ∀ source, firstNamed size queue = some source ↔ ∃ data, outcome = .received data source := by
  unfold udpRecv at hrun
  split at hrun
  · split at hrun
    · exact udpRecvLoop_bound hknown hbound hrun
    · cases hrun
  · exact udpRecvLoop_bound hknown hbound hrun

theorem udpRecv_binds (hunbound : c.socklen = 0) (hbound : c'.socklen ≠ 0)
    (hrun : udpRecv stack size c queue = Except.ok (outcome, c', rest)) :
    Settings c c' ∧ ∃ skipped data peer, queue = skipped ++ .datagram data peer :: rest := by
  unfold udpRecv at hrun
  rw [if_neg fun h => h.2 hunbound] at hrun
  exact udpRecvLoop_binds hunbound hbound hrun

/-- A bound connection returns foreign datagrams exactly when they come first. -/
theorem fromPeer_iff (hknown : c.known = true) (hbound : c.socklen ≠ 0) {log : List Receipt}
    (hlog : Receives c queue log) (peer : List ℕ) : FromPeer peer log ↔ OnlyPeer peer log := by
  induction hlog with
  | nil => simp [FromPeer, OnlyPeer]
  | cons hrun _ ih =>
    obtain ⟨hkeep, hsocklen, hfirst⟩ := udpRecv_bound hknown hbound hrun
    have hrest := ih (hkeep.1.trans hknown) (hsocklen ▸ hbound)
    unfold FromPeer OnlyPeer at *
    simp only [List.forall_mem_cons, hrest]
    refine and_congr_left fun _ => ?_
    simp only [hfirst]
    exact ⟨fun h source ⟨data, heq⟩ => h data source heq, fun h data source heq => h source ⟨data, heq⟩⟩

end

/-- Once a call has bound the peer, later calls return datagrams of the peer
only, exactly as long as those of others do not come first. -/
theorem peer_filter_iff {c c' : Connection} {queue rest : List Arrival} {stack : List ℕ} {size : ℕ}
    {outcome : Outcome} (hknown : c.known = true) (hunbound : c.socklen = 0)
    (hrun : udpRecv stack size c queue = Except.ok (outcome, c', rest)) (hbound : c'.socklen ≠ 0) :
    ∃ skipped data peer, queue = skipped ++ .datagram data peer :: rest ∧
      ∀ log, Receives c' rest log → (FromPeer peer log ↔ OnlyPeer peer log) := by
  obtain ⟨hkeep, skipped, data, peer, hqueue⟩ := udpRecv_binds hunbound hbound hrun
  exact ⟨skipped, data, peer, hqueue, fun log hlog =>
    fromPeer_iff (hkeep.1.trans hknown) hbound hlog peer⟩

/-- An address of `AF_INET`: the family, port 4096 and the host. -/
def inetAddress (host : ℕ) : List ℕ := [2, 0, 16, 0, 10, 0, 0, host] ++ List.replicate 8 0

/-- A connection that is to bind its peer and to refuse others. -/
def bindingConnection : Connection := ⟨true, true, [], 0, ⟨true, false, false⟩, [true, true]⟩

/-- The second call waits for the peer, and skips an unnamed sender. -/
theorem peer_filter_peer :
    ∃ skipped data peer, [.datagram [1] (inetAddress 1), .datagram [2] [], .datagram [3] (inetAddress 1)] =
        skipped ++ Arrival.datagram data peer :: [.datagram [2] [], .datagram [3] (inetAddress 1)] ∧
      ∀ log, Receives ⟨true, true, inetAddress 1, 16, ⟨true, false, false⟩, []⟩
        [.datagram [2] [], .datagram [3] (inetAddress 1)] log →
          (FromPeer peer log ↔ OnlyPeer peer log) := by
  have hrun : udpRecv (List.replicate 16 0) 100 bindingConnection
      [.datagram [1] (inetAddress 1), .datagram [2] [], .datagram [3] (inetAddress 1)] =
      Except.ok (.received [1] (inetAddress 1),
        ⟨true, true, inetAddress 1, 16, ⟨true, false, false⟩, []⟩,
        [.datagram [2] [], .datagram [3] (inetAddress 1)]) := by decide
  exact peer_filter_iff rfl rfl hrun (by decide)

/-- The peer is bound, and the next datagram is returned from another sender. -/
theorem foreign_datagram_received :
    ∃ c, udpRecv (List.replicate 16 0) 100 bindingConnection
        [.datagram [1] (inetAddress 1), .datagram [2] (inetAddress 2)] =
          Except.ok (.received [1] (inetAddress 1), c, [.datagram [2] (inetAddress 2)]) ∧
      c.socklen ≠ 0 ∧ c.known = true ∧ c.bindPeer = true ∧ c.sockaddr = inetAddress 1 ∧
      udpRecv (List.replicate 16 0) 100 c [.datagram [2] (inetAddress 2)] =
        Except.ok (.received [2] (inetAddress 2), c, []) ∧
      inetAddress 2 ≠ inetAddress 1 := by
  refine ⟨⟨true, true, inetAddress 1, 16, ⟨true, false, false⟩, []⟩, ?_⟩
  decide

end HCore.Datagrams
