import HCore.Machine

/-!
The shared mutex as a step relation over any number of processes. A process
begins a call when it is in none, and takes the atomic steps of its call one by
one, in any interleaving with the others: a read of the lock word, a
compare-and-set, a pause or a yield. The log of the effects says who has
acquired the lock and has not released it since.
-/

namespace HCore.Shmtx

inductive Call
  | lock
  | trylock
  | unlock
  | forceUnlock (pid : ℕ)
  deriving DecidableEq, Repr

/-- The next atomic step of a process; `spun` is the number of pauses before the
read of the lock word, if there were any. -/
inductive Pc
  | idle (result : Option ℕ)
  | lockRead (spun : Option ℕ)
  | lockSet (spun : Option ℕ)
  | pause (n i : ℕ)
  | yield
  | tryRead
  | trySet
  | unlockSet
  | forceSet (pid : ℕ)
  deriving DecidableEq, Repr

inductive Effect
  | none
  | acquired
  | released (pid : ℕ)
  deriving DecidableEq, Repr

/-- `hcore_atomic_cmp_set` -/
def atomicCmpSet (lock old set : ℕ) : Bool × ℕ := if lock = old then (true, set) else (false, lock)

/-- The test of the loop `for (n = 1; n < mtx->spin; n <<= 1)`. -/
def spinLoop (spin n : ℕ) : Pc := if n < spin then .pause n 0 else .yield

/-- The way on when the lock was not acquired. -/
def spinOn (spin : ℕ) : Option ℕ → Pc
  | none => spinLoop spin 1
  | some n => spinLoop spin (2 * n % 2 ^ 64)

def Call.begin : Call → Pc
  | .lock => .lockRead none
  | .trylock => .tryRead
  | .unlock => .unlockSet
  | .forceUnlock pid => .forceSet pid

/-- An atomic step of `hcore_shmtx_lock`, `hcore_shmtx_trylock`,
`hcore_shmtx_unlock` or `hcore_shmtx_force_unlock` in the process `pid`: the next
step, the lock word and the effect. -/
def Pc.advance (spin pid lock : ℕ) : Pc → Pc × ℕ × Effect
  | .idle result => (.idle result, lock, .none)
  | .lockRead spun => (if lock = 0 then .lockSet spun else spinOn spin spun, lock, .none)
  | .lockSet spun =>
    match atomicCmpSet lock 0 pid with
    | (true, lock) => (.idle none, lock, .acquired)
    | (false, lock) => (spinOn spin spun, lock, .none)
  | .pause n i => (if i < n then .pause n (i + 1) else .lockRead (some n), lock, .none)
  | .yield => (.lockRead none, lock, .none)
  | .tryRead => (if lock = 0 then .trySet else .idle (some 0), lock, .none)
  | .trySet =>
    match atomicCmpSet lock 0 pid with
    | (true, lock) => (.idle (some 1), lock, .acquired)
    | (false, lock) => (.idle (some 0), lock, .none)
  | .unlockSet =>
    match atomicCmpSet lock pid 0 with
    | (true, lock) => (.idle none, lock, .released pid)
    | (false, lock) => (.idle none, lock, .none)
  | .forceSet holder =>
    match atomicCmpSet lock holder 0 with
    | (true, lock) => (.idle (some 1), lock, .released holder)
    | (false, lock) => (.idle (some 0), lock, .none)

structure State (ι : Type) where
  lock : ℕ
  pc : ι → Pc

/-- A process begins a call, or takes the next step of its call. -/
inductive Event (ι : Type)
  | call (i : ι) (c : Call)
  | advance (i : ι)

def Event.process {ι : Type} : Event ι → ι
  | .call i _ => i
  | .advance i => i

section

variable {ι : Type} [DecidableEq ι] (spin pid : ι → ℕ)

def next : Event ι → State ι → State ι × Effect
  | .call i c, s =>
    let pc := match s.pc i with
      | .idle _ => c.begin
      | pc => pc
    ({ s with pc := Function.update s.pc i pc }, .none)
  | .advance i, s =>
    let (pc, lock, effect) := (s.pc i).advance (spin i) (pid i) s.lock
    ({ lock, pc := Function.update s.pc i pc }, effect)

/-- The state after events in their order, and the log of their effects with
the last one first. -/
def run : List (Event ι) → State ι × List (ι × Effect) → State ι × List (ι × Effect)
  | [], s => s
  | event :: events, (s, log) =>
    let (s', effect) := next spin pid event s
    run events (s', (event.process, effect) :: log)

/-- Nobody is in a call and the lock word is 0. -/
def initial (ι : Type) : State ι := ⟨0, fun _ => .idle none⟩

/-- The process has acquired the lock, and it was not released for it since. -/
def Holds (pid : ι → ℕ) (i : ι) : List (ι × Effect) → Prop
  | [] => False
  | (_, .none) :: log => Holds pid i log
  | (j, .acquired) :: log => j = i ∨ Holds pid i log
  | (_, .released holder) :: log => pid i ≠ holder ∧ Holds pid i log

/-- The lock word names the one process that holds the lock. -/
structure Exclusive (pid : ι → ℕ) (s : State ι × List (ι × Effect)) : Prop where
  word : ∀ i, Holds pid i s.2 → s.1.lock = pid i
  held : s.1.lock ≠ 0 → ∃ i, Holds pid i s.2

end

section

variable {ι : Type} [DecidableEq ι] {spin pid : ι → ℕ} {s : State ι} {log : List (ι × Effect)} {i : ι}

theorem atomicCmpSet_cases (lock old set : ℕ) :
    (lock = old ∧ atomicCmpSet lock old set = (true, set)) ∨
      (lock ≠ old ∧ atomicCmpSet lock old set = (false, lock)) := by
  by_cases h : lock = old
  · exact Or.inl ⟨h, if_pos h⟩
  · exact Or.inr ⟨h, if_neg h⟩

/-- What a step does to the lock word is its effect. -/
def Does (pid lock lock' : ℕ) (effect : Effect) : Prop :=
  (effect = .none ∧ lock' = lock) ∨ (effect = .acquired ∧ lock = 0 ∧ lock' = pid) ∨
    (effect = .released lock ∧ lock' = 0)

theorem advance_does (spin pid lock : ℕ) (pc : Pc) :
    Does pid lock (pc.advance spin pid lock).2.1 (pc.advance spin pid lock).2.2 := by
  cases pc with
  | idle result => exact Or.inl ⟨rfl, rfl⟩
  | lockRead spun => exact Or.inl ⟨rfl, rfl⟩
  | pause n i => exact Or.inl ⟨rfl, rfl⟩
  | yield => exact Or.inl ⟨rfl, rfl⟩
  | tryRead => exact Or.inl ⟨rfl, rfl⟩
  | lockSet spun =>
    rcases atomicCmpSet_cases lock 0 pid with ⟨hzero, hset⟩ | ⟨-, hset⟩
    · rw [Pc.advance, hset]
      exact Or.inr (Or.inl ⟨rfl, hzero, rfl⟩)
    · rw [Pc.advance, hset]
      exact Or.inl ⟨rfl, rfl⟩
  | trySet =>
    rcases atomicCmpSet_cases lock 0 pid with ⟨hzero, hset⟩ | ⟨-, hset⟩
    · rw [Pc.advance, hset]
      exact Or.inr (Or.inl ⟨rfl, hzero, rfl⟩)
    · rw [Pc.advance, hset]
      exact Or.inl ⟨rfl, rfl⟩
  | unlockSet =>
    rcases atomicCmpSet_cases lock pid 0 with ⟨rfl, hset⟩ | ⟨-, hset⟩
    · rw [Pc.advance, hset]
      exact Or.inr (Or.inr ⟨rfl, rfl⟩)
    · rw [Pc.advance, hset]
      exact Or.inl ⟨rfl, rfl⟩
  | forceSet holder =>
    rcases atomicCmpSet_cases lock holder 0 with ⟨rfl, hset⟩ | ⟨-, hset⟩
    · rw [Pc.advance, hset]
      exact Or.inr (Or.inr ⟨rfl, rfl⟩)
    · rw [Pc.advance, hset]
      exact Or.inl ⟨rfl, rfl⟩

/-- An event leaves the lock word, or acquires a free lock, or releases the lock. -/
theorem next_does (spin pid : ι → ℕ) (event : Event ι) (s : State ι) :
    Does (pid event.process) s.lock (next spin pid event s).1.lock (next spin pid event s).2 := by
  cases event with
  | call i c => exact Or.inl ⟨rfl, rfl⟩
  | advance i => exact advance_does (spin i) (pid i) s.lock (s.pc i)

omit [DecidableEq ι] in
theorem Exclusive.free (h : Exclusive pid (s, log)) (hzero : ∀ i, pid i ≠ 0) (hlock : s.lock = 0) (i : ι) :
    ¬ Holds pid i log := fun hi => hzero i ((h.word i hi).symm.trans hlock)

/-- Every event keeps the lock exclusive. -/
theorem next_exclusive (hzero : ∀ i, pid i ≠ 0) (h : Exclusive pid (s, log)) (event : Event ι) :
    Exclusive pid ((next spin pid event s).1, (event.process, (next spin pid event s).2) :: log) := by
  rcases next_does spin pid event s with ⟨heffect, hlock⟩ |
    ⟨heffect, hfree, hlock⟩ | ⟨heffect, hlock⟩
  · rw [heffect]
    refine ⟨fun i hi => hlock.trans (h.word i hi), fun hne => h.held ?_⟩
    rwa [← hlock]
  · rw [heffect]
    refine ⟨?_, fun _ => ⟨event.process, Or.inl rfl⟩⟩
    intro i hi
    rcases hi with rfl | hi
    · exact hlock
    · exact absurd hi (h.free hzero hfree i)
  · rw [heffect]
    refine ⟨?_, fun hne => absurd hlock hne⟩
    intro i hi
    exact absurd (h.word i hi.2).symm hi.1

theorem run_exclusive (hzero : ∀ i, pid i ≠ 0) (events : List (Event ι))
    (h : Exclusive pid (s, log)) : Exclusive pid (run spin pid events (s, log)) := by
  induction events generalizing s log with
  | nil => exact h
  | cons event events ih => exact ih (next_exclusive hzero h event)

/-- An unlock by a process that does not hold the lock only returns. -/
theorem Exclusive.unlock_other (h : Exclusive pid (s, log)) (hpid : Function.Injective pid)
    (hzero : ∀ i, pid i ≠ 0) (hpc : s.pc i = .unlockSet) (hother : ¬ Holds pid i log) :
    next spin pid (.advance i) s = (⟨s.lock, Function.update s.pc i (.idle none)⟩, .none) := by
  have hne : s.lock ≠ pid i := by
    intro heq
    obtain ⟨j, hj⟩ := h.held (heq ▸ hzero i)
    obtain rfl : j = i := hpid ((h.word j hj).symm.trans heq)
    exact hother hj
  simp only [next, hpc, Pc.advance, atomicCmpSet, if_neg hne]

theorem Exclusive.unlock_holder (h : Exclusive pid (s, log)) (hpc : s.pc i = .unlockSet)
    (hholds : Holds pid i log) :
    next spin pid (.advance i) s = (⟨0, Function.update s.pc i (.idle none)⟩, .released (pid i)) := by
  simp only [next, hpc, Pc.advance, atomicCmpSet, if_pos (h.word i hholds)]

/-- A forced unlock for a process that holds the lock releases it. -/
theorem Exclusive.force_holder {j : ι} (h : Exclusive pid (s, log)) (hpc : s.pc i = .forceSet (pid j))
    (hholds : Holds pid j log) :
    next spin pid (.advance i) s =
      (⟨0, Function.update s.pc i (.idle (some 1))⟩, .released (pid j)) := by
  simp only [next, hpc, Pc.advance, atomicCmpSet, if_pos (h.word j hholds)]

/-- A forced unlock for anybody else leaves the lock word and its holder. -/
theorem Exclusive.force_other {holder : ℕ} (h : Exclusive pid (s, log)) (hpc : s.pc i = .forceSet holder)
    (hother : ∀ j, Holds pid j log → pid j ≠ holder) :
    (next spin pid (.advance i) s).1.lock = s.lock ∧
      ∀ j, Holds pid j ((i, (next spin pid (.advance i) s).2) :: log) ↔ Holds pid j log := by
  by_cases heq : s.lock = holder
  · have hzero : s.lock = 0 := by
      by_contra hne
      obtain ⟨j, hj⟩ := h.held hne
      exact hother j hj ((h.word j hj).symm.trans heq)
    have hnext : next spin pid (.advance i) s =
        (⟨0, Function.update s.pc i (.idle (some 1))⟩, .released holder) := by
      simp only [next, hpc, Pc.advance, atomicCmpSet, if_pos heq]
    rw [hnext]
    exact ⟨hzero.symm, fun j => ⟨fun hj => hj.2, fun hj => ⟨hother j hj, hj⟩⟩⟩
  · have hnext : next spin pid (.advance i) s =
        (⟨s.lock, Function.update s.pc i (.idle (some 0))⟩, .none) := by
      simp only [next, hpc, Pc.advance, atomicCmpSet, if_neg heq]
    rw [hnext]
    exact ⟨rfl, fun j => Iff.rfl⟩

/-- In every interleaving at most one process holds the lock, the lock word
tells which, and only the holder's unlock or a forced unlock for the holder
releases it. -/
theorem mutual_exclusion (hpid : Function.Injective pid) (hzero : ∀ i, pid i ≠ 0)
    (events : List (Event ι)) {s : State ι} {log : List (ι × Effect)}
    (hrun : run spin pid events (initial ι, []) = (s, log)) :
    (∀ i j, Holds pid i log → Holds pid j log → i = j) ∧
    (s.lock = 0 ↔ ∀ i, ¬ Holds pid i log) ∧
    (∀ i, Holds pid i log → s.lock = pid i) ∧
    (∀ i, s.pc i = .unlockSet → ¬ Holds pid i log →
      next spin pid (.advance i) s = (⟨s.lock, Function.update s.pc i (.idle none)⟩, .none)) ∧
    (∀ i, s.pc i = .unlockSet → Holds pid i log →
      next spin pid (.advance i) s = (⟨0, Function.update s.pc i (.idle none)⟩, .released (pid i))) ∧
    (∀ i holder, s.pc i = .forceSet holder → (∀ j, Holds pid j log → pid j ≠ holder) →
      (next spin pid (.advance i) s).1.lock = s.lock ∧
        ∀ j, Holds pid j ((i, (next spin pid (.advance i) s).2) :: log) ↔ Holds pid j log) ∧
    ∀ i j, s.pc i = .forceSet (pid j) → Holds pid j log →
      next spin pid (.advance i) s =
        (⟨0, Function.update s.pc i (.idle (some 1))⟩, .released (pid j)) := by
  have hstart : Exclusive pid (initial ι, ([] : List (ι × Effect))) :=
    ⟨fun i hi => hi.elim, fun hne => absurd rfl hne⟩
  have h : Exclusive pid (s, log) := by
    rw [← hrun]
    exact run_exclusive hzero events hstart
  refine ⟨fun i j hi hj => hpid ((h.word i hi).symm.trans (h.word j hj)), ⟨h.free hzero, ?_⟩, h.word,
    fun i hpc => h.unlock_other hpid hzero hpc, fun i hpc => h.unlock_holder hpc,
    fun i holder hpc => h.force_other hpc, fun i j hpc => h.force_holder hpc⟩
  intro hnone
  by_contra hne
  obtain ⟨i, hi⟩ := h.held hne
  exact hnone i hi

/-- Two processes with the pids 1 and 2. -/
def pairPid (i : Fin 2) : ℕ := i.val + 1

/-- The second process fails to acquire the lock, forces the first one to release
it, and acquires it. -/
def forcedEvents : List (Event (Fin 2)) :=
  [.call 0 .lock, .advance 0, .call 1 .trylock, .advance 1, .advance 0, .advance 1,
    .call 1 (.forceUnlock 1), .advance 1, .call 1 .trylock, .advance 1, .advance 1]

/-- The state and the log after these events. -/
def forcedRun : State (Fin 2) × List (Fin 2 × Effect) :=
  run (fun _ => 2048) pairPid forcedEvents (initial (Fin 2), [])

theorem mutual_exclusion_forced : forcedRun.1.lock = 2 ∧
    ∀ i j, Holds pairPid i forcedRun.2 → Holds pairPid j forcedRun.2 → i = j := by
  have hpid : Function.Injective pairPid := fun i j hij => Fin.ext (Nat.succ_injective hij)
  have hzero (i : Fin 2) : pairPid i ≠ 0 := Nat.succ_ne_zero i.val
  have hrun : run (fun _ => 2048) pairPid forcedEvents (initial (Fin 2), []) =
      (forcedRun.1, forcedRun.2) := rfl
  exact ⟨by decide, (mutual_exclusion hpid hzero forcedEvents hrun).1⟩

end

end HCore.Shmtx
