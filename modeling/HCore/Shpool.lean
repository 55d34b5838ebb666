import HCore.ShmtxObject
import HCore.SlabRuns

/-!
The pool of shared memory as its callers see it. `hcore_shpool_alloc` and
`hcore_shpool_free` lock the mutex of the pool around one slab operation, and a
caller may lock it around several. All processes have the pool mapped at one
address, as after a fork. Every interleaving gives the answers of the calls one
after another, so the blocks of different processes are as disjoint as those of
one process.
-/

namespace HCore.Shpool

open Machine Base CriticalSection ShmtxObject SlabPool SlabAlloc SlabLayout SlabFreeList SlabRuns

/-- The operations under the lock: `hcore_shpool_alloc_locked` and
`hcore_shpool_free_locked`. -/
inductive SlabCall
  | alloc (size : ℕ)
  | free (p : ℕ)
  deriving DecidableEq, Repr

/-- What an operation does to the pool, and its answer; a release answers 0. -/
def slabAct (P : PageSize) (fuel : ℕ) : SlabCall → Pool → Exec (ℕ × Pool)
  | .alloc size, s => slabAllocLocked P.geometry fuel s size
  | .free p, s => do
    let s ← slabFreeLocked P.geometry s p
    pure (0, s)

/-- The operations of a caller between `hcore_shpool_lock` and
`hcore_shpool_unlock`, and what it takes out of them. -/
abbrev LockedCalls (β : Type) := Client SlabCall ℕ β

def shpoolAlloc (size : ℕ) : LockedCalls ℕ := .call (.alloc size) .ret

def shpoolFree (p : ℕ) : LockedCalls ℕ := .call (.free p) .ret

/-- The calls of a caller, by themselves. -/
def runCalls (P : PageSize) (fuel : ℕ) {β : Type} : LockedCalls β → Pool → Exec (β × Pool) :=
  Client.run (slabAct P fuel)

abbrev PoolSystem (ι β : Type) := System ι (LockedCalls β) Pool Fault β

section

variable {ι β : Type} [DecidableEq ι] {P : PageSize} {fuel : ℕ} {spin pid : ι → ℕ}

/-- In every interleaving the callers that have unlocked the pool got the answers
that they get one after another, in the order of their unlocks; the caller inside
goes on as if it were alone; and a fault is a fault of the calls in a row. -/
theorem shpool_serializable (cut : Cut (slabAct P fuel)) (hpid : Function.Injective pid)
    (hzero : ∀ i, pid i ≠ 0) (s₀ : Pool) (events : List (Event ι (LockedCalls β))) :
    (∀ s : PoolSystem ι β,
      run (cut.clients β) spin pid events (initial ι _ _ _ s₀) = Except.ok s →
      (∀ i j, s.Inside i → s.Inside j → i = j) ∧
      (∃ s₁, Serial (runCalls P fuel) s₀ s.log s₁ ∧ (s.lock = 0 → s.shared = s₁) ∧
        ∀ i calls rest, s.stage i = .inside calls rest →
          rest.solo s.shared = runCalls P fuel calls s₁) ∧
      ∀ more s', run (cut.clients β) spin pid more s = Except.ok s' → s.log <:+ s'.log) ∧
    ∀ e, run (cut.clients β) spin pid events (initial ι _ _ _ s₀) = Except.error e →
      ∃ (log : List (ι × LockedCalls β × β)) (calls : LockedCalls β) (s₁ : Pool),
        Serial (runCalls P fuel) s₀ log s₁ ∧ runCalls P fuel calls s₁ = Except.error e := by
  obtain ⟨hok, herror⟩ := run_serialized (cut.clients β) spin hpid hzero events
    (locked_initial pid s₀) (serialized_start (runCalls P fuel) s₀)
  refine ⟨?_, herror⟩
  intro s hrun
  obtain ⟨hlocked, hser, -⟩ := hok s hrun
  obtain ⟨s₁, hserial, hquiet, hrest⟩ := hser.serial
  refine ⟨fun i j hi hj => hpid ((hlocked.word i hi).symm.trans (hlocked.word j hj)),
    ⟨s₁, hserial, ?_, ?_⟩, ?_⟩
  · intro hfree
    apply hquiet
    intro i hi
    exact hzero i ((hlocked.word i (sections_inside.mp hi)).symm.trans hfree)
  · intro i calls rest hstage
    exact hrest i calls rest (congrArg Stage.place hstage)
  · intro more s' hmore
    obtain ⟨-, -, hlog⟩ := (run_serialized _ spin hpid hzero more hlocked hser).1 s' hmore
    exact hlog

/-- Two callers, with the pids 1 and 2. -/
def first : Fin 2 := ⟨0, Nat.zero_lt_two⟩

def second : Fin 2 := ⟨1, Nat.one_lt_two⟩

/-- The second caller fails to set the lock word, pauses, and gets the lock when
the first one has unlocked. -/
def twoCallers : List (Event (Fin 2) (LockedCalls ℕ)) :=
  [.call first (shpoolAlloc 8), .advance first, .call second (shpoolAlloc 1024), .advance second,
    .advance first, .advance second, .advance first, .advance second, .advance first,
    .advance second, .advance second, .advance second, .advance second, .advance second]

theorem shpool_serializable_two : ∃ (s₀ : Pool) (s : PoolSystem (Fin 2) ℕ),
    createShpool smallPages clearMapping 1 = Except.ok s₀ ∧
    run ((Cut.whole (slabAct smallPages 9)).clients ℕ) (fun _ => 2048) Shmtx.pairPid twoCallers
      (initial (Fin 2) _ _ _ s₀) = Except.ok s ∧
    s.log.map (fun call => (call.1, call.2.2)) = [(second, 71680), (first, 69696)] ∧
    Serial (runCalls smallPages 9) s₀ s.log s.shared := by
  have hpid : Function.Injective Shmtx.pairPid := fun i j hij => Fin.ext (Nat.succ_injective hij)
  have hzero (i : Fin 2) : Shmtx.pairPid i ≠ 0 := Nat.succ_ne_zero i.val
  have htrace : (do
      let s₀ ← createShpool smallPages clearMapping 1
      let s ← run ((Cut.whole (slabAct smallPages 9)).clients ℕ) (fun _ => 2048) Shmtx.pairPid
        twoCallers (initial (Fin 2) _ _ _ s₀)
      pure (s.lock, s.log.map (fun call => (call.1, call.2.2)))) =
        (Except.ok (0, [(second, 71680), (first, 69696)]) : Exec _) := by decide +kernel
  obtain ⟨s₀, hcreated, htrace⟩ := bind_eq_ok.mp htrace
  obtain ⟨s, hrun, htrace⟩ := bind_eq_ok.mp htrace
  simp only [pure_eq_ok, Except.ok.injEq, Prod.mk.injEq] at htrace
  obtain ⟨hlock, hlog⟩ := htrace
  obtain ⟨-, ⟨s₁, hserial, hfree, -⟩, -⟩ := (shpool_serializable
    (Cut.whole (slabAct smallPages 9)) hpid hzero s₀ twoCallers).1 s hrun
  rw [← hfree hlock] at hserial
  exact ⟨s₀, s, hcreated, hrun, hlog, hserial⟩

/-- The blocks that single calls have been granted and have not released. -/
def granted : List (ι × SlabCall × ℕ) → List Block
  | [] => []
  | (_, .alloc size, p) :: log => if p = 0 then granted log else ⟨p, size⟩ :: granted log
  | (_, .free p, _) :: log => (granted log).filter (fun b => b.addr ≠ p)

/-- Every call asked for bytes of a class without a partly used page, or for a
number of pages below 2^32, when its turn came. -/
def FreshTurns (P : PageSize) (fuel : ℕ) (s₀ : Pool) (log : List (ι × SlabCall × ℕ)) : Prop :=
  ∀ i call a earlier s₁, (i, call, a) :: earlier <:+ log →
    Serial (slabAct P fuel) s₀ earlier s₁ →
    ∃ size, call = .alloc size ∧ 0 < size ∧ Fresh P ⟨s₁, granted earlier⟩ (.alloc size)

omit [DecidableEq ι] in
theorem FreshTurns.cons {s₀ s₁ : Pool} {log : List (ι × SlabCall × ℕ)} (h : FreshTurns P fuel s₀ log)
    (hserial : Serial (slabAct P fuel) s₀ log s₁) {i : ι} {a size : ℕ} (hsize : 0 < size)
    (hguard : Fresh P ⟨s₁, granted log⟩ (.alloc size)) :
    FreshTurns P fuel s₀ ((i, .alloc size, a) :: log) := by
  intro j call a' earlier s₂ hsuffix hserial'
  rcases List.suffix_cons_iff.mp hsuffix with heq | hsuffix
  · cases heq
    rw [hserial'.determines hserial]
    exact ⟨size, rfl, hsize, hguard⟩
  · exact h j call a' earlier s₂ hsuffix hserial'

end

end HCore.Shpool
