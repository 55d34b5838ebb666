import HCore.BitMap
import HCore.Datagrams

/-!
The events of a connection under its four functions for bytes and datagrams.
Each function is a loop over the answers of one system call, and works on an
event through a local pointer. The one for sending on a stream takes the
pointer to the event for reading, so what it reports is recorded on the wrong
side.
-/

namespace HCore.SocketEvents

open Machine BitMap Datagrams

/-- `HCORE_AGAIN` -/
def hcoreAgain : ℤ := -2

/-- `hcore_connection_t` with the event for writing and the counter of the
bytes that were sent. -/
structure Connection extends Datagrams.Connection where
  wev : Event
  sentSize : ℤ
  deriving DecidableEq, Repr

/-- The two events that a local pointer can have. -/
inductive Side
  | rev
  | wev
  deriving DecidableEq, Repr

/-- The event at a pointer changes. -/
def Connection.on (c : Connection) (side : Side) (f : Event → Event) : Connection :=
  match side with
  | .rev => { c with rev := f c.rev }
  | .wev => { c with wev := f c.wev }

def Connection.notReady (c : Connection) (side : Side) : Connection :=
  c.on side fun event => { event with ready := false }

def Connection.setError (c : Connection) (side : Side) : Connection :=
  c.on side fun event => { event with error := true }

def Connection.setEof (c : Connection) (side : Side) : Connection :=
  c.on side fun event => { event with eof := true }

def Connection.countSent (c : Connection) (n : ℕ) : Connection :=
  { c with sentSize := c.sentSize + n }

/-- What `send`, `sendto` and `recv` answer. -/
inductive Answer
  | count (n : ℕ)
  | failure (err : Errno)
  deriving DecidableEq, Repr

/-- The pointer `wev` of `hcore_udp_send`. -/
def udpSendSide : Side := .wev

/-- The loop of `hcore_udp_send`. -/
def udpSend (size : ℕ) : List Answer → Connection → Exec (ℤ × Connection × List Answer)
  | [], _ => outOfFuel
  | .count n :: answers, c =>
    if n ≠ size then pure (hcoreError, c.setError udpSendSide, answers)
    else pure ((n : ℤ), c.countSent n, answers)
  | .failure .again :: answers, c => pure (hcoreAgain, c.notReady udpSendSide, answers)
  | .failure .interrupted :: answers, c => udpSend size answers c
  | .failure .other :: answers, c => pure (hcoreError, c.setError udpSendSide, answers)

/-- The pointer `wev` of `hcore_tcp_send`: `c->rev`. -/
def tcpSendSide : Side := .rev

/-- `(ssize_t)size` -/
def toSsize (size : ℕ) : ℤ := (size : ℤ).bmod (2 ^ 64)

/-- The loop of `hcore_tcp_send`. -/
def tcpSend (size : ℕ) : List Answer → Connection → Exec (ℤ × Connection × List Answer)
  | [], _ => outOfFuel
  | .count n :: answers, c =>
    if 0 < n then
      let c := if (n : ℤ) < toSsize size then c.notReady tcpSendSide else c
      pure ((n : ℤ), c.countSent n, answers)
    else pure (0, c.notReady tcpSendSide, answers)
  | .failure .again :: answers, c => pure (hcoreAgain, c.notReady tcpSendSide, answers)
  | .failure .interrupted :: answers, c => tcpSend size answers (c.notReady tcpSendSide)
  | .failure .other :: answers, c => pure (hcoreError, c.setError tcpSendSide, answers)

/-- The pointer `rev` of `hcore_tcp_recv`. -/
def tcpRecvSide : Side := .rev

/-- The loop of `hcore_tcp_recv`. -/
def tcpRecv : List Answer → Connection → Exec (ℤ × Connection × List Answer)
  | [], _ => outOfFuel
  | .count n :: answers, c =>
    if n = 0 then pure (0, (c.notReady tcpRecvSide).setEof tcpRecvSide, answers)
    else pure ((n : ℤ), c, answers)
  | .failure .again :: answers, c => pure (hcoreAgain, c.notReady tcpRecvSide, answers)
  | .failure .interrupted :: answers, c => tcpRecv answers (c.notReady tcpRecvSide)
  | .failure .other :: answers, c => pure (hcoreError, c.setError tcpRecvSide, answers)

/-- Whether the pool grants an allocation. -/
def Connection.allocate (c : Connection) : Bool × Connection :=
  (c.grants.headD false, { c with grants := c.grants.tail })

/-- `*c->sockaddr = sockaddr`, on a new block of `socklen` zero bytes. -/
def Connection.storeSockaddr (c : Connection) (sockaddr : List ℕ) (socklen : ℕ) :
    Exec Connection := do
  let peer ← c.toConnection.storeSockaddr sockaddr socklen
  pure { c with toConnection := peer }

/-- The loop of `hcore_udp_recv`, on all the fields. -/
def udpRecvLoop (size : ℕ) :
    List Arrival → Connection → List ℕ → ℕ → Exec (Outcome × Connection × List Arrival)
  | [], _, _, _ => outOfFuel
  | .failure .again :: queue, c, _, _ => pure (.again, c.notReady .rev, queue)
  | .failure .interrupted :: queue, c, sockaddr, socklen => udpRecvLoop size queue c sockaddr socklen
  | .failure .other :: queue, c, _, _ => pure (.error, c.setError .rev, queue)
  | .datagram data source :: queue, c, sockaddr, socklen => do
    let sockaddr ← storeSource sockaddr socklen source
    if data.take size = [] then pure (.error, c.setEof .rev, queue)
    else if source.length = 0 ∧ c.known then udpRecvLoop size queue c sockaddr source.length
    else if c.bindPeer ∧ c.socklen = 0 then
      let (granted, c) := c.allocate
      if granted then do
        let c ← c.storeSockaddr sockaddr source.length
        let (granted, c) := c.allocate
        if granted then pure (.received (data.take size) source, c, queue)
        else pure (.error, c, queue)
      else udpRecvLoop size queue c sockaddr source.length
    else pure (.received (data.take size) source, c, queue)

/-- `hcore_udp_recv`, on all the fields. -/
def udpRecv (stack : List ℕ) (size : ℕ) (c : Connection) (queue : List Arrival) :
    Exec (Outcome × Connection × List Arrival) :=
  if c.bindPeer ∧ c.socklen ≠ 0 then
    if sockaddrSize ≤ c.sockaddr.length then
      udpRecvLoop size queue c (c.sockaddr.take sockaddrSize) c.socklen
    else undefined
  else udpRecvLoop size queue c stack sockaddrSize

section

variable {c c' : Connection} {answers rest : List Answer} {queue left : List Arrival}
  {stack sockaddr : List ℕ} {size socklen n : ℕ} {ret : ℤ} {outcome : Outcome}

/-- On the fields for datagrams this is the receiver there. -/
theorem udpRecvLoop_datagrams (queue : List Arrival) (c : Connection) (sockaddr : List ℕ)
    (socklen : ℕ) :
    (udpRecvLoop size queue c sockaddr socklen).map (fun r => (r.1, r.2.1.toConnection, r.2.2)) =
      Datagrams.udpRecvLoop size queue c.toConnection sockaddr socklen := by
  induction queue generalizing c sockaddr socklen with
  | nil => rfl
  | cons arrival queue ih =>
    rcases arrival with ⟨data, source⟩ | (_ | _ | _)
    · unfold udpRecvLoop Datagrams.udpRecvLoop
      cases storeSource sockaddr socklen source with
      | error e => rfl
      | ok sockaddr' =>
        rw [ok_bind, ok_bind]
        by_cases hdata : data.take size = []
        · rw [if_pos hdata, if_pos hdata]
          rfl
        · rw [if_neg hdata, if_neg hdata]
          by_cases hunknown : source.length = 0 ∧ c.known
          · rw [if_pos hunknown, if_pos hunknown]
            exact ih ..
          · rw [if_neg hunknown, if_neg hunknown]
            by_cases hbind : c.bindPeer ∧ c.socklen = 0
            · rw [if_pos hbind, if_pos hbind]
              have hgrant : c.toConnection.allocate.1 = c.allocate.1 := rfl
              dsimp only
              by_cases hgranted : c.allocate.1 = true
              · rw [hgrant, if_pos hgranted, if_pos hgranted]
                unfold Connection.storeSockaddr
                rw [show c.allocate.2.toConnection = c.toConnection.allocate.2 from rfl]
                cases c.toConnection.allocate.2.storeSockaddr sockaddr' source.length with
                | error e => rfl
                | ok peer =>
                  rw [ok_bind, ok_bind, pure_eq_ok, ok_bind]
                  have hsecond :
                      ({ c.allocate.2 with toConnection := peer } : Connection).allocate.1 =
                        peer.allocate.1 := rfl
                  rw [hsecond]
                  by_cases hgranted' : peer.allocate.1 = true
                  · rw [if_pos hgranted', if_pos hgranted']
                    rfl
                  · rw [if_neg hgranted', if_neg hgranted']
                    rfl
              · rw [hgrant, if_neg hgranted, if_neg hgranted]
                exact ih ..
            · rw [if_neg hbind, if_neg hbind]
              rfl
    · rfl
    · exact ih ..
    · rfl

theorem udpRecv_datagrams (stack : List ℕ) (size : ℕ) (c : Connection) (queue : List Arrival) :
    (udpRecv stack size c queue).map (fun r => (r.1, r.2.1.toConnection, r.2.2)) =
      Datagrams.udpRecv stack size c.toConnection queue := by
  unfold udpRecv Datagrams.udpRecv
  split
  · split
    · exact udpRecvLoop_datagrams ..
    · rfl
  · exact udpRecvLoop_datagrams ..

theorem storeSockaddr_wev (h : c.storeSockaddr sockaddr socklen = Except.ok c') :
    c'.wev = c.wev := by
  obtain ⟨peer, -, h⟩ := bind_eq_ok.mp h
  cases h
  rfl

theorem udpRecvLoop_wev
    (hrun : udpRecvLoop size queue c sockaddr socklen = Except.ok (outcome, c', left)) :
    c'.wev = c.wev := by
  induction queue generalizing c sockaddr socklen with
  | nil => cases hrun
  | cons arrival queue ih =>
    rcases arrival with ⟨data, source⟩ | (_ | _ | _)
    · obtain ⟨sockaddr', -, hrun⟩ := bind_eq_ok.mp hrun
      dsimp only at hrun
      split at hrun
      · cases hrun
        rfl
      · split at hrun
        · exact ih hrun
        · split at hrun
          · split at hrun
            · obtain ⟨c₁, hstore, hrun⟩ := bind_eq_ok.mp hrun
              have hkeep := storeSockaddr_wev hstore
              split at hrun
              · cases hrun
                exact hkeep
              · cases hrun
                exact hkeep
            · have hkeep := ih hrun
              exact hkeep
          · cases hrun
            rfl
    · cases hrun
      rfl
    · exact ih hrun
    · cases hrun
      rfl

/-- Receiving a datagram leaves the event for writing. -/
theorem udpRecv_wev (hrun : udpRecv stack size c queue = Except.ok (outcome, c', left)) :
    c'.wev = c.wev := by
  unfold udpRecv at hrun
  split at hrun
  · split at hrun
    · exact udpRecvLoop_wev hrun
    · cases hrun
  · exact udpRecvLoop_wev hrun

/-- Receiving from a stream leaves the event for writing. -/
theorem tcpRecv_wev (hrun : tcpRecv answers c = Except.ok (ret, c', rest)) : c'.wev = c.wev := by
  induction answers generalizing c with
  | nil => cases hrun
  | cons answer answers ih =>
    rcases answer with n | (_ | _ | _)
    · rw [tcpRecv] at hrun
      split at hrun
      · cases hrun
        rfl
      · cases hrun
        rfl
    · cases hrun
      rfl
    · have hkeep := ih (c := c.notReady tcpRecvSide) hrun
      exact hkeep
    · cases hrun
      rfl

/-- What a call that sends leaves behind. -/
structure Reported (c : Connection) (ret : ℤ) (c' : Connection) : Prop where
  rev : c'.rev = c.rev
  again : ret = hcoreAgain → c'.wev.ready = false
  error : ret = hcoreError → c'.wev.error = true
  sent : c'.sentSize = c.sentSize + max ret 0

theorem udpSend_reported (hrun : udpSend size answers c = Except.ok (ret, c', rest)) :
    Reported c ret c' := by
  induction answers generalizing c with
  | nil => cases hrun
  | cons answer answers ih =>
    rcases answer with n | (_ | _ | _)
    · rw [udpSend] at hrun
      split at hrun
      · cases hrun
        exact ⟨rfl, fun h => absurd h (by decide), fun _ => rfl, (add_zero _).symm⟩
      · cases hrun
        refine ⟨rfl, fun h => ?_, fun h => ?_, ?_⟩
        · unfold hcoreAgain at h
          omega
        · unfold hcoreError at h
          omega
        · rw [max_eq_left (Int.natCast_nonneg n)]
          rfl
    · cases hrun
      exact ⟨rfl, fun _ => rfl, fun h => absurd h (by decide), (add_zero _).symm⟩
    · exact ih hrun
    · cases hrun
      exact ⟨rfl, fun h => absurd h (by decide), fun _ => rfl, (add_zero _).symm⟩

/-- The call that sends on a stream does not show that its answer is recorded
on the wrong event: the flag that it sets there is set, and the one that it
leaves is set. -/
def Unseen (c : Connection) (size : ℕ) : Answer → Prop
  | .count n => (0 < n ∧ toSsize size ≤ n) ∨ c.rev.ready = false
  | .failure .again => c.rev.ready = false ∧ c.wev.ready = false
  | .failure .interrupted => c.rev.ready = false
  | .failure .other => c.rev.error = true ∧ c.wev.error = true

/-- All the answers that the call takes are such. -/
def AllUnseen (c : Connection) (size : ℕ) (answers : List Answer) : Prop :=
  ∀ tries last post, answers = tries ++ last :: post →
    (∀ a ∈ tries, a = .failure .interrupted) → last ≠ .failure .interrupted →
      ∀ a ∈ last :: tries, Unseen c size a

/-- A call that returns has taken interruptions and one other answer. -/
theorem tcpSend_takes (hrun : tcpSend size answers c = Except.ok (ret, c', rest)) :
    ∃ tries last post, answers = tries ++ last :: post ∧
      (∀ a ∈ tries, a = .failure .interrupted) ∧ last ≠ .failure .interrupted := by
  induction answers generalizing c with
  | nil => cases hrun
  | cons answer answers ih =>
    by_cases hlast : answer = .failure .interrupted
    · subst hlast
      obtain ⟨tries, last, post, rfl, htries, hlast⟩ := ih hrun
      exact ⟨_ :: tries, last, post, rfl, List.forall_mem_cons.mpr ⟨rfl, htries⟩, hlast⟩
    · exact ⟨[], answer, answers, rfl, by simp, hlast⟩

/-- Interruptions only clear the flag of the event for reading. -/
theorem tcpSend_tries {tries : List Answer} (htries : ∀ a ∈ tries, a = .failure .interrupted)
    (answers : List Answer) (c : Connection) :
    tcpSend size (tries ++ answers) c =
      tcpSend size answers (if tries = [] then c else c.notReady .rev) := by
  induction tries generalizing c with
  | nil => rfl
  | cons a tries ih =>
    obtain rfl := htries a List.mem_cons_self
    have hrest := ih (fun a ha => htries a (List.mem_cons_of_mem _ ha)) (c.notReady .rev)
    rw [if_neg (by simp)]
    refine hrest.trans ?_
    split <;> rfl

theorem notReady_rev_iff (c : Connection) : (c.notReady .rev).rev = c.rev ↔ c.rev.ready = false := by
  constructor
  · intro h
    rw [← h]
    rfl
  · intro h
    cases hrev : c.rev with
    | mk ready eof error =>
      rw [hrev] at h
      obtain rfl := h
      unfold Connection.notReady Connection.on
      dsimp only
      rw [hrev]

theorem setError_rev_iff (c : Connection) : (c.setError .rev).rev = c.rev ↔ c.rev.error = true := by
  constructor
  · intro h
    rw [← h]
    rfl
  · intro h
    cases hrev : c.rev with
    | mk ready eof error =>
      rw [hrev] at h
      obtain rfl := h
      unfold Connection.setError Connection.on
      dsimp only
      rw [hrev]

/-- A number of bytes is reported if the event for reading is as before. -/
theorem reported_count_iff (hsent : c'.sentSize = c.sentSize + n) :
    Reported c n c' ↔ c'.rev = c.rev := by
  refine ⟨Reported.rev, fun h => ⟨h, fun hret => ?_, fun hret => ?_, ?_⟩⟩
  · unfold hcoreAgain at hret
    omega
  · unfold hcoreError at hret
    omega
  · rw [hsent, max_eq_left (Int.natCast_nonneg n)]

/-- What the interruptions before the last answer leave of the connection. -/
structure Interrupted (c c₁ : Connection) : Prop where
  wev : c₁.wev = c.wev
  sent : c₁.sentSize = c.sentSize
  error : c₁.rev.error = c.rev.error
  kept : c.rev.ready = false → c₁.rev = c.rev
  cleared : c₁.rev = c.rev ∨ c₁.rev.ready = false

theorem interrupted_of_tries (tries : List Answer) (c : Connection) :
    Interrupted c (if tries = [] then c else c.notReady .rev) := by
  split
  · exact ⟨rfl, rfl, rfl, fun _ => rfl, Or.inl rfl⟩
  · exact ⟨rfl, rfl, rfl, (notReady_rev_iff c).mpr, Or.inr rfl⟩

theorem tries_unseen_iff {tries : List Answer} (htries : ∀ a ∈ tries, a = .failure .interrupted) :
    (∀ a ∈ tries, Unseen c size a) ↔
      (if tries = [] then c else c.notReady .rev).rev = c.rev := by
  by_cases hnil : tries = []
  · subst hnil
    simp
  · rw [if_neg hnil, notReady_rev_iff]
    obtain ⟨a, ha⟩ := List.exists_mem_of_ne_nil tries hnil
    constructor
    · intro h
      have hready := h a ha
      rwa [htries a ha] at hready
    · intro h a ha
      rwa [htries a ha]

/-- The last clearing of the flag of the event for reading. -/
theorem Interrupted.notReady_iff {c₁ : Connection} (h : Interrupted c c₁) :
    (c₁.notReady .rev).rev = c.rev ↔ c.rev.ready = false := by
  constructor
  · intro heq
    rw [← heq]
    rfl
  · intro hready
    have hkept := h.kept hready
    rw [← hkept] at hready ⊢
    exact (notReady_rev_iff c₁).mpr hready

theorem Interrupted.setError_iff {c₁ : Connection} (h : Interrupted c c₁) :
    (c₁.setError .rev).rev = c.rev ↔ c.rev.error = true ∧ c₁.rev = c.rev := by
  constructor
  · intro heq
    have herror : c.rev.error = true := by
      rw [← heq]
      rfl
    refine ⟨herror, ?_⟩
    rw [← heq]
    exact ((setError_rev_iff c₁).mpr (h.error.trans herror)).symm
  · rintro ⟨herror, hsame⟩
    rw [← hsame]
    exact (setError_rev_iff c₁).mpr (h.error.trans herror)

/-- A count that clears the flag. -/
theorem Interrupted.short_iff {c₁ : Connection} (h : Interrupted c c₁)
    (hshort : ¬(0 < n ∧ toSsize size ≤ n)) :
    (c₁.notReady .rev).rev = c.rev ↔ Unseen c size (.count n) ∧ c₁.rev = c.rev := by
  refine h.notReady_iff.trans ⟨fun hready => ⟨Or.inr hready, h.kept hready⟩, ?_⟩
  rintro ⟨hfull | hready, -⟩
  · exact absurd hfull hshort
  · exact hready

theorem Interrupted.again_iff {c₁ : Connection} (h : Interrupted c c₁) :
    Reported c hcoreAgain (c₁.notReady .rev) ↔
      Unseen c size (.failure .again) ∧ c₁.rev = c.rev := by
  constructor
  · intro hreport
    have hready := h.notReady_iff.mp hreport.rev
    refine ⟨⟨hready, ?_⟩, h.kept hready⟩
    rw [← h.wev]
    exact hreport.again rfl
  · rintro ⟨⟨hready, hwev⟩, -⟩
    refine ⟨h.notReady_iff.mpr hready, fun _ => h.wev ▸ hwev,
      fun hret => absurd hret (by decide), ?_⟩
    exact h.sent.trans (add_zero _).symm

theorem Interrupted.failed_iff {c₁ : Connection} (h : Interrupted c c₁) :
    Reported c hcoreError (c₁.setError .rev) ↔
      Unseen c size (.failure .other) ∧ c₁.rev = c.rev := by
  constructor
  · intro hreport
    obtain ⟨herror, hsame⟩ := h.setError_iff.mp hreport.rev
    refine ⟨⟨herror, ?_⟩, hsame⟩
    rw [← h.wev]
    exact hreport.error rfl
  · rintro ⟨⟨herror, hwev⟩, hsame⟩
    refine ⟨h.setError_iff.mpr ⟨herror, hsame⟩, fun hret => absurd hret (by decide),
      fun _ => h.wev ▸ hwev, ?_⟩
    exact h.sent.trans (add_zero _).symm

/-- The report of a call that sends on a stream, after its interruptions. -/
theorem tcpSend_last {c₁ : Connection} {last : Answer} (h : Interrupted c c₁)
    (hlast : last ≠ .failure .interrupted) (post : List Answer) :
    ∃ ret c', tcpSend size (last :: post) c₁ = Except.ok (ret, c', post) ∧
      (Reported c ret c' ↔ Unseen c size last ∧ c₁.rev = c.rev) := by
  rcases last with n | (_ | _ | _)
  · by_cases hn : 0 < n
    · by_cases hshort : (n : ℤ) < toSsize size
      · refine ⟨n, (c₁.notReady .rev).countSent n, ?_, ?_⟩
        · rw [tcpSend, if_pos hn, if_pos hshort]
          rfl
        · have hsent : ((c₁.notReady .rev).countSent n).sentSize = c.sentSize + n := by
            rw [← h.sent]
            rfl
          exact (reported_count_iff hsent).trans (h.short_iff fun hfull => hshort.not_ge hfull.2)
      · refine ⟨n, c₁.countSent n, ?_, ?_⟩
        · rw [tcpSend, if_pos hn, if_neg hshort]
          rfl
        · have hsent : (c₁.countSent n).sentSize = c.sentSize + n := by
            rw [← h.sent]
            rfl
          rw [reported_count_iff hsent]
          exact ⟨fun hsame => ⟨Or.inl ⟨hn, not_lt.mp hshort⟩, hsame⟩, And.right⟩
    · obtain rfl : n = 0 := by omega
      refine ⟨((0 : ℕ) : ℤ), c₁.notReady .rev, ?_, ?_⟩
      · rw [tcpSend, if_neg hn]
        rfl
      · have hsent : (c₁.notReady .rev).sentSize = c.sentSize + ((0 : ℕ) : ℤ) := by
          rw [← h.sent]
          exact (add_zero _).symm
        exact (reported_count_iff hsent).trans (h.short_iff fun hfull => hn hfull.1)
  · exact ⟨hcoreAgain, c₁.notReady .rev, rfl, h.again_iff⟩
  · exact absurd rfl hlast
  · exact ⟨hcoreError, c₁.setError .rev, rfl, h.failed_iff⟩

theorem tcpSend_reported_iff (c : Connection) (size : ℕ) (answers : List Answer) :
    (∀ ret c' rest, tcpSend size answers c = Except.ok (ret, c', rest) → Reported c ret c') ↔
      AllUnseen c size answers := by
  have hrun {tries post : List Answer} {last : Answer}
      (htries : ∀ a ∈ tries, a = .failure .interrupted) (hlast : last ≠ .failure .interrupted) :
      ∃ ret c', tcpSend size (tries ++ last :: post) c = Except.ok (ret, c', post) ∧
        (Reported c ret c' ↔ ∀ a ∈ last :: tries, Unseen c size a) := by
    obtain ⟨ret, c', hlast, hiff⟩ := tcpSend_last (interrupted_of_tries tries c) hlast post
    refine ⟨ret, c', (tcpSend_tries htries _ c).trans hlast, hiff.trans ?_⟩
    rw [List.forall_mem_cons, tries_unseen_iff htries]
  constructor
  · rintro hreport tries last post rfl htries hlast
    obtain ⟨ret, c', hsend, hiff⟩ := hrun htries hlast
    exact hiff.mp (hreport ret c' post hsend)
  · intro hunseen ret c' rest hsend
    obtain ⟨tries, last, post, hanswers, htries, hlast⟩ := tcpSend_takes hsend
    obtain ⟨ret', c'', hsend', hiff⟩ := @hrun tries post last htries hlast
    rw [← hanswers, hsend] at hsend'
    cases hsend'
    exact hiff.mpr (hunseen tries last rest hanswers htries hlast)

end

/-- The four functions keep to their side, and the ones that send report on
the event for writing and count what they return. -/
structure KeepsSides (c : Connection) (size : ℕ) (answers : List Answer) (stack : List ℕ)
    (queue : List Arrival) : Prop where
  tcpSend : ∀ ret c' rest, tcpSend size answers c = Except.ok (ret, c', rest) → Reported c ret c'
  udpSend : ∀ ret c' rest, udpSend size answers c = Except.ok (ret, c', rest) → Reported c ret c'
  tcpRecv : ∀ ret c' rest, tcpRecv answers c = Except.ok (ret, c', rest) → c'.wev = c.wev
  udpRecv : ∀ ret c' rest, udpRecv stack size c queue = Except.ok (ret, c', rest) → c'.wev = c.wev

/-- **The functions keep to their side** exactly as long as the answers to a
call that sends on a stream change no flag of the event for reading, and ask
for no change of the event for writing. -/
theorem event_flags_iff (c : Connection) (size : ℕ) (answers : List Answer) (stack : List ℕ)
    (queue : List Arrival) :
    KeepsSides c size answers stack queue ↔ AllUnseen c size answers := by
  rw [← tcpSend_reported_iff]
  refine ⟨KeepsSides.tcpSend, fun h => ⟨h, ?_, ?_, ?_⟩⟩
  · exact fun _ _ _ => udpSend_reported
  · exact fun _ _ _ => tcpRecv_wev
  · exact fun _ _ _ => udpRecv_wev

/-- A connection with both events ready. -/
def readyConnection : Connection :=
  ⟨⟨false, false, [], 0, ⟨true, false, false⟩, []⟩, ⟨true, false, false⟩, 0⟩

/-- A full socket buffer stops the wrong direction. -/
theorem event_flags_again :
    ¬ ∀ (c : Connection) (size : ℕ) (answers : List Answer) (stack : List ℕ) (queue : List Arrival),
      KeepsSides c size answers stack queue := by
  intro h
  have hrun : tcpSend 100 [.failure .again] readyConnection =
      Except.ok (hcoreAgain, readyConnection.notReady .rev, []) := rfl
  have hreport := (h readyConnection 100 [.failure .again] [] []).tcpSend _ _ _ hrun
  cases hreport.again rfl

end HCore.SocketEvents
