import HCore.CriticalSection
import HCore.Shmtx

/-!
A structure in shared memory behind its mutex. A process locks the mutex, runs
its operation and unlocks it, in the atomic steps of `hcore_shmtx_lock`, of the
operation and of `hcore_shmtx_unlock`, among the steps of the other processes.
Every run is one of critical sections, in which the processes that spin and
yield stand still.
-/

namespace HCore.ShmtxObject

open CriticalSection

/-- Where a process stands: in no call, in `hcore_shmtx_lock`, or behind it. -/
inductive Stage (Op σ ε α : Type)
  | outside
  | locking (op : Op) (pc : Shmtx.Pc)
  | inside (op : Op) (rest : Body σ ε α)

/-- The structure and its lock word, the processes, and the calls that have
returned, the last one first. -/
structure System (ι Op σ ε α : Type) where
  shared : σ
  lock : ℕ
  stage : ι → Stage Op σ ε α
  log : List (ι × Op × α)

/-- A process begins a call, or takes the next step of its call. -/
inductive Event (ι Op : Type)
  | call (i : ι) (op : Op)
  | advance (i : ι)

section

variable {ι Op σ ε α : Type} [DecidableEq ι] {act : Op → σ → Except ε (α × σ)}

def next (cut : Cut act) (spin pid : ι → ℕ) :
    Event ι Op → System ι Op σ ε α → Except ε (System ι Op σ ε α)
  | .call i op, s =>
    match s.stage i with
    | .outside =>
      .ok { s with stage := Function.update s.stage i (.locking op Shmtx.Call.lock.begin) }
    | .locking _ _ => .ok s
    | .inside _ _ => .ok s
  | .advance i, s =>
    match s.stage i with
    | .outside => .ok s
    | .locking op pc =>
      let (pc, lock, effect) := pc.advance (spin i) (pid i) s.lock
      let stage := if effect = .acquired then .inside op (cut.body op) else .locking op pc
      .ok { s with lock, stage := Function.update s.stage i stage }
    | .inside op (.step effect rest) => do
      let shared ← effect s.shared
      .ok { s with shared, stage := Function.update s.stage i (.inside op (rest s.shared)) }
    | .inside op (.done a) =>
      let (_, lock, _) := Shmtx.Call.unlock.begin.advance (spin i) (pid i) s.lock
      .ok ⟨s.shared, lock, Function.update s.stage i .outside, (i, op, a) :: s.log⟩

def run (cut : Cut act) (spin pid : ι → ℕ) :
    List (Event ι Op) → System ι Op σ ε α → Except ε (System ι Op σ ε α)
  | [], s => .ok s
  | event :: events, s => do
    let s ← next cut spin pid event s
    run cut spin pid events s

/-- Nobody is in a call and the lock word is 0. -/
def initial (ι Op ε α : Type) {σ : Type} (shared : σ) : System ι Op σ ε α :=
  ⟨shared, 0, fun _ => .outside, []⟩

def Stage.place : Stage Op σ ε α → Place Op σ ε α
  | .outside => .outside
  | .locking op _ => .waiting op
  | .inside op rest => .inside op rest

/-- The critical sections of a system. -/
def System.sections (s : System ι Op σ ε α) : CriticalSection.State ι Op σ ε α :=
  ⟨s.shared, fun i => (s.stage i).place, s.log⟩

def System.Inside (s : System ι Op σ ε α) (i : ι) : Prop := ∃ op rest, s.stage i = .inside op rest

/-- The steps of `hcore_shmtx_lock`. -/
inductive InLock : Shmtx.Pc → Prop
  | read (spun : Option ℕ) : InLock (.lockRead spun)
  | set (spun : Option ℕ) : InLock (.lockSet spun)
  | pause (n i : ℕ) : InLock (.pause n i)
  | yield : InLock .yield

/-- The steps to the acquisition of a free lock. -/
def distance : Shmtx.Pc → ℕ
  | .idle _ => 0
  | .lockSet _ => 1
  | .lockRead _ => 2
  | .pause n i => 3 + (n - i)
  | .yield => 3
  | .tryRead => 0
  | .trySet => 0
  | .unlockSet => 0
  | .forceSet _ => 0

/-- The lock word names the process inside, and whoever waits is in
`hcore_shmtx_lock`. -/
structure Locked (pid : ι → ℕ) (s : System ι Op σ ε α) : Prop where
  word : ∀ i, s.Inside i → s.lock = pid i
  held : s.lock ≠ 0 → ∃ i, s.Inside i
  locking : ∀ i op pc, s.stage i = .locking op pc → InLock pc

/-- What an event can do. -/
inductive Move (cut : Cut act) (pid : ι → ℕ) (s : System ι Op σ ε α) :
    Event ι Op → System ι Op σ ε α → Prop
  | refuse {i : ι} (op : Op) (hstage : s.stage i ≠ .outside) : Move cut pid s (.call i op) s
  | idle {i : ι} (hstage : s.stage i = .outside) : Move cut pid s (.advance i) s
  | begin {i : ι} (op : Op) (hstage : s.stage i = .outside) :
      Move cut pid s (.call i op)
        { s with stage := Function.update s.stage i (.locking op (.lockRead none)) }
  | wait {i : ι} {op : Op} {pc pc' : Shmtx.Pc} (hstage : s.stage i = .locking op pc)
      (hpc : InLock pc') (hnear : s.lock = 0 → distance pc' < distance pc) :
      Move cut pid s (.advance i)
        { s with stage := Function.update s.stage i (.locking op pc') }
  | acquire {i : ι} {op : Op} {pc : Shmtx.Pc} (hstage : s.stage i = .locking op pc)
      (hfree : s.lock = 0) :
      Move cut pid s (.advance i)
        { s with lock := pid i, stage := Function.update s.stage i (.inside op (cut.body op)) }
  | inside {i : ι} {op : Op} {effect : σ → Except ε σ} {rest : σ → Body σ ε α} {shared : σ}
      (hstage : s.stage i = .inside op (.step effect rest)) (heffect : effect s.shared = .ok shared) :
      Move cut pid s (.advance i)
        { s with shared, stage := Function.update s.stage i (.inside op (rest s.shared)) }
  | leave {i : ι} {op : Op} {a : α} (hstage : s.stage i = .inside op (.done a)) :
      Move cut pid s (.advance i)
        ⟨s.shared, 0, Function.update s.stage i .outside, (i, op, a) :: s.log⟩

end

theorem spinLoop_inLock (spin n : ℕ) : InLock (Shmtx.spinLoop spin n) := by
  by_cases hn : n < spin
  · rw [Shmtx.spinLoop, if_pos hn]
    exact InLock.pause ..
  · rw [Shmtx.spinLoop, if_neg hn]
    exact InLock.yield

theorem spinOn_inLock (spin : ℕ) (spun : Option ℕ) : InLock (Shmtx.spinOn spin spun) := by
  cases spun with
  | none => exact spinLoop_inLock ..
  | some n => exact spinLoop_inLock ..

/-- A step of `hcore_shmtx_lock` acquires a free lock, or leaves the lock word. -/
theorem lock_advance (spin pid lock : ℕ) {pc : Shmtx.Pc} (h : InLock pc) :
    ((pc.advance spin pid lock).2.2 = .none ∧ (pc.advance spin pid lock).2.1 = lock ∧
      InLock (pc.advance spin pid lock).1 ∧
      (lock = 0 → distance (pc.advance spin pid lock).1 < distance pc)) ∨
    ((pc.advance spin pid lock).2.2 = .acquired ∧ lock = 0 ∧
      (pc.advance spin pid lock).2.1 = pid) := by
  cases h with
  | read spun =>
    refine Or.inl ⟨rfl, rfl, ?_, ?_⟩
    · by_cases hlock : lock = 0
      · simp only [Shmtx.Pc.advance, if_pos hlock]
        exact InLock.set spun
      · simp only [Shmtx.Pc.advance, if_neg hlock]
        exact spinOn_inLock spin spun
    · intro hlock
      simp only [Shmtx.Pc.advance, if_pos hlock]
      exact Nat.lt_succ_self 1
  | set spun =>
    rcases Shmtx.atomicCmpSet_cases lock 0 pid with ⟨hzero, hset⟩ | ⟨hne, hset⟩
    · rw [Shmtx.Pc.advance, hset]
      exact Or.inr ⟨rfl, hzero, rfl⟩
    · rw [Shmtx.Pc.advance, hset]
      exact Or.inl ⟨rfl, rfl, spinOn_inLock spin spun, fun hzero => absurd hzero hne⟩
  | pause n i =>
    refine Or.inl ⟨rfl, rfl, ?_, fun _ => ?_⟩
    · by_cases hi : i < n
      · simp only [Shmtx.Pc.advance, if_pos hi]
        exact InLock.pause ..
      · simp only [Shmtx.Pc.advance, if_neg hi]
        exact InLock.read _
    · by_cases hi : i < n
      · simp only [Shmtx.Pc.advance, if_pos hi, distance]
        omega
      · simp only [Shmtx.Pc.advance, if_neg hi, distance]
        omega
  | yield => exact Or.inl ⟨rfl, rfl, InLock.read none, fun _ => Nat.lt_succ_self 2⟩

section

variable {ι Op σ ε α : Type} [DecidableEq ι] {act : Op → σ → Except ε (α × σ)} {cut : Cut act}
  {spin pid : ι → ℕ} {s s' : System ι Op σ ε α} {event : Event ι Op} {i j : ι}

omit [DecidableEq ι] in
theorem sections_inside : s.sections.Inside i ↔ s.Inside i := by
  constructor
  · intro h
    obtain ⟨op, rest, hplace⟩ := h
    dsimp only [System.sections] at hplace
    cases hstage : s.stage i with
    | outside =>
      rw [hstage] at hplace
      cases hplace
    | locking op' pc =>
      rw [hstage] at hplace
      cases hplace
    | inside op' rest' => exact ⟨op', rest', hstage⟩
  · intro h
    obtain ⟨op, rest, hstage⟩ := h
    exact ⟨op, rest, by simp only [System.sections, hstage, Stage.place]⟩

theorem sections_update (stage : Stage Op σ ε α) :
    (fun j => (Function.update s.stage i stage j).place) =
      Function.update s.sections.place i stage.place := by
  funext j
  by_cases hj : j = i
  · subst hj
    rw [Function.update_self, Function.update_self]
  · rw [Function.update_of_ne hj, Function.update_of_ne hj]
    rfl

/-- The stage of a process after a step of this or another one. -/
theorem update_cases {stages : ι → Stage Op σ ε α} {p q : Stage Op σ ε α}
    (h : Function.update stages i p j = q) : (j = i ∧ p = q) ∨ (j ≠ i ∧ stages j = q) := by
  by_cases hj : j = i
  · subst hj
    rw [Function.update_self] at h
    exact Or.inl ⟨rfl, h⟩
  · rw [Function.update_of_ne hj] at h
    exact Or.inr ⟨hj, h⟩

/-- An event that does not fault makes one of the moves. -/
theorem next_move (h : Locked pid s) (hnext : next cut spin pid event s = .ok s') :
    Move cut pid s event s' := by
  cases event with
  | call i op =>
    unfold next at hnext
    cases hstage : s.stage i with
    | outside =>
      simp only [hstage] at hnext
      cases hnext
      exact Move.begin op hstage
    | locking op' pc =>
      simp only [hstage] at hnext
      cases hnext
      exact Move.refuse op (by rw [hstage]; exact nofun)
    | inside op' rest =>
      simp only [hstage] at hnext
      cases hnext
      exact Move.refuse op (by rw [hstage]; exact nofun)
  | advance i =>
    unfold next at hnext
    cases hstage : s.stage i with
    | outside =>
      simp only [hstage] at hnext
      cases hnext
      exact Move.idle hstage
    | locking op pc =>
      simp only [hstage] at hnext
      cases hnext
      rcases lock_advance (spin i) (pid i) s.lock (h.locking i op pc hstage) with
        ⟨heffect, hlock, hpc, hnear⟩ | ⟨heffect, hfree, hlock⟩
      · rw [heffect, hlock, if_neg (by exact nofun)]
        exact Move.wait hstage hpc hnear
      · rw [heffect, hlock, if_pos rfl]
        exact Move.acquire hstage hfree
    | inside op rest =>
      cases rest with
      | done a =>
        simp only [hstage] at hnext
        cases hnext
        have hword : s.lock = pid i := h.word i ⟨op, _, hstage⟩
        simp only [Shmtx.Call.begin, Shmtx.Pc.advance, Shmtx.atomicCmpSet, if_pos hword]
        exact Move.leave hstage
      | step effect rest =>
        simp only [hstage] at hnext
        cases heffect : effect s.shared with
        | error e =>
          rw [heffect] at hnext
          cases hnext
        | ok shared =>
          rw [heffect] at hnext
          cases hnext
          exact Move.inside hstage heffect

/-- Only a process that was inside, or one that enters, is inside after an update. -/
theorem inside_update {shared : σ} {lock : ℕ} {log : List (ι × Op × α)} {p : Stage Op σ ε α}
    (h : (⟨shared, lock, Function.update s.stage i p, log⟩ : System ι Op σ ε α).Inside j) :
    (j = i ∧ ∃ op rest, p = .inside op rest) ∨ (j ≠ i ∧ s.Inside j) := by
  obtain ⟨op, rest, hstage⟩ := h
  rcases update_cases hstage with ⟨rfl, hp⟩ | ⟨hj, hp⟩
  · exact Or.inl ⟨rfl, op, rest, hp⟩
  · exact Or.inr ⟨hj, op, rest, hp⟩

/-- A process that was and is not inside leaves those inside as they were. -/
theorem Locked.outside (h : Locked pid s) {p : Stage Op σ ε α} (hstage : ¬ s.Inside i)
    (hp : ∀ op rest, p ≠ .inside op rest) (hpc : ∀ op pc, p = .locking op pc → InLock pc) :
    Locked pid { s with stage := Function.update s.stage i p } := by
  refine ⟨?_, ?_, ?_⟩
  · intro j hj
    rcases inside_update hj with ⟨-, op, rest, hin⟩ | ⟨-, hj⟩
    · exact absurd hin (hp op rest)
    · exact h.word j hj
  · intro hne
    obtain ⟨j, op, rest, hj⟩ := h.held hne
    have hji : j ≠ i := by
      rintro rfl
      exact hstage ⟨op, rest, hj⟩
    exact ⟨j, op, rest, (Function.update_of_ne hji ..).trans hj⟩
  · intro j op pc hj
    rcases update_cases hj with ⟨-, hj⟩ | ⟨-, hj⟩
    · exact hpc op pc hj
    · exact h.locking j op pc hj

/-- The process that is or gets inside has its pid in the lock word. -/
theorem Locked.inside {lock : ℕ} {shared : σ} {op : Op} {rest : Body σ ε α} (h : Locked pid s)
    (hlock : lock = pid i) (hothers : ∀ j, s.Inside j → j = i) :
    Locked pid ⟨shared, lock, Function.update s.stage i (.inside op rest), s.log⟩ := by
  refine ⟨?_, fun _ => ⟨i, op, rest, Function.update_self ..⟩, ?_⟩
  · intro j hj
    rcases inside_update hj with ⟨rfl, -⟩ | ⟨hne, hj⟩
    · exact hlock
    · exact absurd (hothers j hj) hne
  · intro j op' pc hj
    rcases update_cases hj with ⟨-, hj⟩ | ⟨-, hj⟩
    · cases hj
    · exact h.locking j op' pc hj

omit [DecidableEq ι] in
theorem Locked.alone (h : Locked pid s) (hpid : Function.Injective pid) (hi : s.Inside i)
    (hj : s.Inside j) : j = i := hpid ((h.word j hj).symm.trans (h.word i hi))

theorem Move.locked (hpid : Function.Injective pid) (hzero : ∀ i, pid i ≠ 0) (h : Locked pid s)
    (hmove : Move cut pid s event s') : Locked pid s' := by
  cases hmove with
  | refuse op hstage => exact h
  | idle hstage => exact h
  | begin op hstage =>
    refine h.outside ?_ (fun op rest => nofun) ?_
    · intro hin
      obtain ⟨op, rest, hin⟩ := hin
      rw [hstage] at hin
      cases hin
    · intro op pc heq
      cases heq
      exact InLock.read none
  | wait hstage hpc hnear =>
    refine h.outside ?_ (fun op rest => nofun) ?_
    · intro hin
      obtain ⟨op, rest, hin⟩ := hin
      rw [hstage] at hin
      cases hin
    · intro op pc heq
      cases heq
      exact hpc
  | acquire hstage hfree =>
    refine h.inside rfl ?_
    intro j hj
    exact absurd ((h.word j hj).symm.trans hfree) (hzero j)
  | inside hstage heffect =>
    refine h.inside (h.word _ ⟨_, _, hstage⟩) ?_
    intro j hj
    exact h.alone hpid ⟨_, _, hstage⟩ hj
  | leave hstage =>
    refine ⟨?_, fun hne => absurd rfl hne, ?_⟩
    · intro j hj
      rcases inside_update hj with ⟨-, op, rest, hin⟩ | ⟨hne, hj⟩
      · cases hin
      · exact absurd (h.alone hpid ⟨_, _, hstage⟩ hj) hne
    · intro j op pc hj
      rcases update_cases hj with ⟨-, hj⟩ | ⟨-, hj⟩
      · cases hj
      · exact h.locking j op pc hj

/-- A move is a step of the critical sections, or none. -/
theorem Move.sections (hzero : ∀ i, pid i ≠ 0) (h : Locked pid s)
    (hmove : Move cut pid s event s') :
    Step cut s.sections s'.sections ∨ s'.sections = s.sections := by
  have hplace {i : ι} {stage : Stage Op σ ε α} (hstage : s.stage i = stage) :
      s.sections.place i = stage.place := congrArg Stage.place hstage
  cases hmove with
  | refuse op hstage => exact Or.inr rfl
  | idle hstage => exact Or.inr rfl
  | begin op hstage =>
    refine Or.inl ?_
    simp only [System.sections, sections_update]
    exact Step.begin op (hplace hstage)
  | @wait i op pc pc' hstage hpc hnear =>
    refine Or.inr ?_
    simp only [System.sections, sections_update]
    congr 1
    exact (Function.update_eq_self_iff).mpr (hplace hstage).symm
  | acquire hstage hfree =>
    refine Or.inl ?_
    simp only [System.sections, sections_update]
    refine Step.enter (hplace hstage) ?_
    intro j hj
    exact absurd ((h.word j (sections_inside.mp hj)).symm.trans hfree) (hzero j)
  | inside hstage heffect =>
    refine Or.inl ?_
    simp only [System.sections, sections_update]
    exact Step.advance (hplace hstage) heffect
  | leave hstage =>
    refine Or.inl ?_
    simp only [System.sections, sections_update]
    exact Step.leave (hplace hstage)

omit [DecidableEq ι] in
theorem locked_initial (pid : ι → ℕ) (shared : σ) :
    Locked pid (initial ι Op ε α shared) := by
  refine ⟨?_, fun hne => absurd rfl hne, fun i op pc hstage => nomatch hstage⟩
  intro i hi
  obtain ⟨op, rest, hstage⟩ := hi
  cases hstage

theorem Move.log_suffix (hmove : Move cut pid s event s') : s.log <:+ s'.log := by
  cases hmove with
  | refuse op hstage => exact List.suffix_refl _
  | idle hstage => exact List.suffix_refl _
  | begin op hstage => exact List.suffix_refl _
  | wait hstage hpc hnear => exact List.suffix_refl _
  | acquire hstage hfree => exact List.suffix_refl _
  | inside hstage heffect => exact List.suffix_refl _
  | leave hstage => exact List.suffix_cons ..

/-- An event that faults is a step inside. -/
theorem next_fault {e : ε} (hnext : next cut spin pid event s = .error e) :
    ∃ i op effect rest, s.stage i = .inside op (.step effect rest) ∧ effect s.shared = .error e := by
  cases event with
  | call i op =>
    unfold next at hnext
    cases hstage : s.stage i with
    | outside => simp only [hstage, reduceCtorEq] at hnext
    | locking op' pc => simp only [hstage, reduceCtorEq] at hnext
    | inside op' rest => simp only [hstage, reduceCtorEq] at hnext
  | advance i =>
    unfold next at hnext
    cases hstage : s.stage i with
    | outside => simp only [hstage, reduceCtorEq] at hnext
    | locking op pc => simp only [hstage, reduceCtorEq] at hnext
    | inside op rest =>
      cases rest with
      | done a => simp only [hstage, reduceCtorEq] at hnext
      | step effect rest =>
        refine ⟨i, op, effect, rest, hstage, ?_⟩
        simp only [hstage] at hnext
        cases heffect : effect s.shared with
        | error e' =>
          rw [heffect] at hnext
          cases hnext
          rfl
        | ok shared =>
          rw [heffect] at hnext
          cases hnext

/-- The critical sections of a run are serialized, and a run faults where the
operations one after another do. -/
theorem run_serialized (cut : Cut act) (spin : ι → ℕ) (hpid : Function.Injective pid)
    (hzero : ∀ i, pid i ≠ 0) {s₀ : σ} (events : List (Event ι Op)) (h : Locked pid s) (hser : Serialized act s₀ s.sections) :
    (∀ s', run cut spin pid events s = .ok s' →
      Locked pid s' ∧ Serialized act s₀ s'.sections ∧ s.log <:+ s'.log) ∧
    ∀ e, run cut spin pid events s = .error e →
      ∃ log op s₁, Serial act s₀ (log : List (ι × Op × α)) s₁ ∧ act op s₁ = .error e := by
  induction events generalizing s with
  | nil =>
    refine ⟨?_, fun e hrun => nomatch hrun⟩
    intro s' hrun
    cases hrun
    exact ⟨h, hser, List.suffix_refl _⟩
  | cons event events ih =>
    rw [run]
    cases hnext : next cut spin pid event s with
    | error e =>
      refine ⟨?_, ?_⟩
      · intro s' hrun
        cases hrun
      intro e' hrun
      cases hrun
      obtain ⟨i, op, effect, rest, hstage, heffect⟩ := next_fault hnext
      have hplace : s.sections.place i = .inside op (.step effect rest) :=
        congrArg Stage.place hstage
      obtain ⟨s₁, hserial, hact⟩ := hser.fault hplace heffect
      exact ⟨_, op, s₁, hserial, hact⟩
    | ok s' =>
      have hmove := next_move h hnext
      have hser' : Serialized act s₀ s'.sections := by
        rcases hmove.sections hzero h with hstep | heq
        · exact hstep.serialized hser
        · rw [heq]
          exact hser
      obtain ⟨hok, herror⟩ := ih (hmove.locked hpid hzero h) hser'
      refine ⟨?_, herror⟩
      intro s'' hrun
      obtain ⟨hlocked, hserialized, hlog⟩ := hok s'' hrun
      exact ⟨hlocked, hserialized, hmove.log_suffix.trans hlog⟩

end

section

variable {ι Op σ ε α : Type} [DecidableEq ι] {act : Op → σ → Except ε (α × σ)} {cut : Cut act}
  {pid : ι → ℕ} {state : ℕ → System ι Op σ ε α} {event : ℕ → Event ι Op} {i : ι} {n : ℕ}

end

end HCore.ShmtxObject
