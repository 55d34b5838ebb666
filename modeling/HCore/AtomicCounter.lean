import HCore.CHeap
import Mathlib.Data.Int.ModEq

/-!
Counters that any number of processes change by locked instructions. `xaddq`
adds to the eight bytes of the counter, and `incl` to the first four of them,
so an increase loses its carry when the low half of the counter is full.
-/

namespace HCore.AtomicCounter

open Machine LittleEndian CHeap

/-- `lock; incl [m]` -/
def incl (mem : ℕ → UInt8) (m : ℕ) : ℕ → UInt8 :=
  writeAt mem m (encode32 (decode32 (readAt mem m 4) + 1))

/-- `lock; xaddq r, [m]`: the register and the memory behind it. -/
def xaddq (mem : ℕ → UInt8) (r m : ℕ) : ℕ × (ℕ → UInt8) :=
  (wordAt mem m, writeAt mem m (encode64 (wordAt mem m + r)))

/-- `hcore_atomic_increase` -/
def atomicIncrease (mem : ℕ → UInt8) (value : ℕ) : ℕ → UInt8 := incl mem value

/-- `hcore_atomic_fetch_add`: what it returns, and the memory. -/
def atomicFetchAdd (mem : ℕ → UInt8) (value : ℕ) (add : ℤ) : ℕ × (ℕ → UInt8) :=
  xaddq mem (toUInt64 add) value

inductive Call
  | increase
  | fetchAdd (add : ℤ)
  deriving DecidableEq, Repr

namespace Call

/-- The one instruction of a call. -/
def exec (value : ℕ) (mem : ℕ → UInt8) : Call → Option ℕ × (ℕ → UInt8)
  | increase => (none, atomicIncrease mem value)
  | fetchAdd add => (some (atomicFetchAdd mem value add).1, (atomicFetchAdd mem value add).2)

/-- The value that a call adds by `hcore_atomic_fetch_add`. -/
def added : Call → ℤ
  | increase => 0
  | fetchAdd add => add

end Call

/-- A process in no call, with what the last one returned, or in front of the
instruction of its call. -/
inductive Pc
  | idle (result : Option ℕ)
  | call (c : Call)
  deriving DecidableEq, Repr

structure State (ι : Type) where
  mem : ℕ → UInt8
  pc : ι → Pc

/-- A process begins a call, or executes the instruction of its call. -/
inductive Event (ι : Type)
  | call (i : ι) (c : Call)
  | advance (i : ι)
  deriving DecidableEq, Repr

section

variable {ι : Type} [DecidableEq ι] (value : ℕ)

def next (s : State ι) : Event ι → State ι
  | .call i c =>
    match s.pc i with
    | .idle _ => { s with pc := Function.update s.pc i (.call c) }
    | .call _ => s
  | .advance i =>
    match s.pc i with
    | .idle _ => s
    | .call c => ⟨(c.exec value s.mem).2, Function.update s.pc i (.idle (c.exec value s.mem).1)⟩

def run (s : State ι) (events : List (Event ι)) : State ι := events.foldl (next value) s

/-- The call whose instruction an event executes, if any, with the counter in
front of it. -/
def executes (s : State ι) : Event ι → List (ℕ × Call)
  | .call _ _ => []
  | .advance i =>
    match s.pc i with
    | .idle _ => []
    | .call c => [(wordAt s.mem value, c)]

def executed (s : State ι) : List (Event ι) → List (ℕ × Call)
  | [] => []
  | event :: events => executes value s event ++ executed (next value s event) events

end

/-- The number of increases, and the sum of what is added. -/
def increases (calls : List (ℕ × Call)) : ℕ := calls.countP fun x => x.2 = .increase

def addedSum (calls : List (ℕ × Call)) : ℤ := (calls.map fun x => x.2.added).sum

/-- An increase of a counter whose low half is full. -/
def LosesCarry (x : ℕ × Call) : Prop := x.2 = .increase ∧ x.1 % 2 ^ 32 = 2 ^ 32 - 1

instance decidableLosesCarry (x : ℕ × Call) : Decidable (LosesCarry x) :=
  inferInstanceAs (Decidable (_ ∧ _))

def lostCarries (calls : List (ℕ × Call)) : ℕ := calls.countP fun x => LosesCarry x

/-- The counter has counted everything, modulo its size, and each
`hcore_atomic_fetch_add` has returned the counter in front of its instruction. -/
structure Exact {ι : Type} [DecidableEq ι] (value : ℕ) (s : State ι) (events : List (Event ι)) :
    Prop where
  word : (wordAt (run value s events).mem value : ℤ) =
    (wordAt s.mem value + increases (executed value s events) +
      addedSum (executed value s events)) % 2 ^ 64
  returned : ∀ pre i post add, events = pre ++ .advance i :: post →
    (run value s pre).pc i = .call (.fetchAdd add) →
      (run value s (pre ++ [.advance i])).pc i = .idle (some (wordAt (run value s pre).mem value))

section

variable {mem : ℕ → UInt8} {value m r : ℕ}

theorem incl_word :
    (wordAt (incl mem m) m : ℤ) =
      wordAt mem m + 1 - if wordAt mem m % 2 ^ 32 = 2 ^ 32 - 1 then 2 ^ 32 else 0 := by
  have hlow : decode32 (readAt mem m 4) = wordAt mem m % 2 ^ 32 := by
    have hlt := decode32_lt (readAt mem m 4)
    rw [wordAt_halves]
    omega
  rw [incl, wordAt_low, hlow]
  split <;> omega

theorem xaddq_word : wordAt (xaddq mem r m).2 m = (wordAt mem m + r) % 2 ^ 64 := by
  have hread : readAt (writeAt mem m (encode64 (wordAt mem m + r))) m 8 =
      encode64 (wordAt mem m + r) := readAt_writeAt
  unfold xaddq
  dsimp only
  rw [wordAt, hread, decode64_encode64]

/-- What a call adds to the counter that it finds. -/
def net (x : ℕ × Call) : ℤ :=
  (if x.2 = .increase then 1 else 0) + x.2.added - if LosesCarry x then 2 ^ 32 else 0

theorem exec_word (c : Call) :
    (wordAt (c.exec value mem).2 value : ℤ) ≡ wordAt mem value + net (wordAt mem value, c)
      [ZMOD 2 ^ 64] := by
  cases c with
  | increase =>
    have hnet : net (wordAt mem value, .increase) =
        1 - if wordAt mem value % 2 ^ 32 = 2 ^ 32 - 1 then 2 ^ 32 else 0 := by
      simp only [net, LosesCarry, Call.added, if_true, true_and, add_zero]
    rw [hnet, ← add_sub_assoc, ← incl_word]
    rfl
  | fetchAdd add =>
    have hword : (wordAt (atomicFetchAdd mem value add).2 value : ℤ) =
        (wordAt mem value + toUInt64 add) % 2 ^ 64 := by
      rw [atomicFetchAdd, xaddq_word]
      push_cast
      rfl
    have hnet : net (wordAt mem value, .fetchAdd add) = add := by
      simp [net, LosesCarry, Call.added]
    have hadd : (toUInt64 add : ℤ) ≡ add [ZMOD 2 ^ 64] := by
      unfold Int.ModEq toUInt64
      omega
    rw [hnet, Call.exec, hword]
    exact (Int.mod_modEq _ _).trans (hadd.add_left _)

end

section

variable {ι : Type} [DecidableEq ι] {value : ℕ} {s : State ι} {events : List (Event ι)}

theorem next_word (event : Event ι) :
    (wordAt (next value s event).mem value : ℤ) ≡
      wordAt s.mem value + ((executes value s event).map net).sum [ZMOD 2 ^ 64] := by
  cases event with
  | call i c =>
    have hmem : (next value s (.call i c)).mem = s.mem := by
      unfold next
      dsimp only
      split <;> rfl
    rw [hmem, executes, List.map_nil, List.sum_nil, add_zero]
  | advance i =>
    cases hpc : s.pc i with
    | idle result =>
      simp only [next, executes, hpc]
      rw [List.map_nil, List.sum_nil, add_zero]
    | call c =>
      simp only [next, executes, hpc]
      rw [List.map_singleton, List.sum_singleton]
      exact exec_word c

theorem run_word (value : ℕ) (s : State ι) (events : List (Event ι)) :
    (wordAt (run value s events).mem value : ℤ) ≡
      wordAt s.mem value + ((executed value s events).map net).sum [ZMOD 2 ^ 64] := by
  induction events generalizing s with
  | nil => rw [executed, List.map_nil, List.sum_nil, add_zero, run, List.foldl_nil]
  | cons event events ih =>
    refine (ih (next value s event)).trans ?_
    rw [executed, List.map_append, List.sum_append, ← add_assoc]
    exact (next_word event).add_right _

end

theorem sum_net (calls : List (ℕ × Call)) :
    (calls.map net).sum = increases calls + addedSum calls - 2 ^ 32 * lostCarries calls := by
  induction calls with
  | nil => rfl
  | cons x calls ih =>
    rw [List.map_cons, List.sum_cons, ih]
    unfold increases addedSum lostCarries net
    rw [List.countP_cons, List.countP_cons, List.map_cons, List.sum_cons]
    simp only [decide_eq_true_eq]
    push_cast
    split <;> split <;> ring

section

variable {ι : Type} [DecidableEq ι] {value : ℕ} {s : State ι} {events : List (Event ι)}

theorem run_concat (s : State ι) (events : List (Event ι)) (event : Event ι) :
    run value s (events ++ [event]) = next value (run value s events) event :=
  List.foldl_concat ..

theorem executed_append (s : State ι) (events events' : List (Event ι)) :
    executed value s (events ++ events') =
      executed value s events ++ executed value (run value s events) events' := by
  induction events generalizing s with
  | nil => rfl
  | cons event events ih =>
    rw [List.cons_append, executed, executed, ih, List.append_assoc]
    rfl

omit [DecidableEq ι] in
theorem executes_length (s : State ι) (event : Event ι) :
    (executes value s event).length ≤ 1 := by
  cases event with
  | call i c => exact Nat.zero_le 1
  | advance i =>
    cases hpc : s.pc i with
    | idle result => simp only [executes, hpc, List.length_nil, Nat.zero_le]
    | call c => simp only [executes, hpc, List.length_singleton, le_refl]

theorem next_returned {i : ι} {add : ℤ} (hpc : s.pc i = .call (.fetchAdd add)) :
    (next value s (.advance i)).pc i = .idle (some (wordAt s.mem value)) := by
  simp only [next, hpc, Function.update_self]
  rfl

/-- A run is exact if the carries that it has lost make up whole counters. -/
theorem exact_iff (value : ℕ) (s : State ι) (events : List (Event ι)) :
    Exact value s events ↔ 2 ^ 32 ∣ lostCarries (executed value s events) := by
  have hword := run_word value s events
  have hlt := wordAt_lt (run value s events).mem value
  rw [sum_net] at hword
  unfold Int.ModEq at hword
  constructor
  · intro h
    have hexact := h.word
    omega
  · intro hlost
    refine ⟨by omega, ?_⟩
    intro pre i post add _ hpc
    rw [run_concat]
    exact next_returned hpc

theorem lostCarries_prefix (hall : ∀ pre, pre <+: events → Exact value s pre) :
    ∀ pre, pre <+: events → lostCarries (executed value s pre) = 0 := by
  intro pre
  induction pre using List.reverseRecOn with
  | nil => exact fun _ => rfl
  | append_singleton pre event ih =>
    intro hpre
    have hbefore := ih ((List.prefix_append pre [event]).trans hpre)
    have hdvd := (exact_iff value s _).mp (hall _ hpre)
    -- one more event loses one carry at most
    have hone : lostCarries (executed value s (pre ++ [event])) ≤ 1 := by
      rw [executed_append, lostCarries, List.countP_append]
      unfold lostCarries at hbefore
      rw [hbefore, Nat.zero_add, executed, executed, List.append_nil]
      exact List.countP_le_length.trans (executes_length _ event)
    exact Nat.eq_zero_of_dvd_of_lt hdvd (hone.trans_lt (by decide))

theorem exact_everywhere_iff (value : ℕ) (s : State ι) (events : List (Event ι)) :
    (∀ pre, pre <+: events → Exact value s pre) ↔
      ∀ x ∈ executed value s events, ¬ LosesCarry x := by
  constructor
  · intro hall
    have hnone := lostCarries_prefix hall events List.prefix_rfl
    unfold lostCarries at hnone
    rw [List.countP_eq_zero] at hnone
    intro x hx hlose
    exact hnone x hx (decide_eq_true hlose)
  · intro hnone pre hpre
    obtain ⟨post, rfl⟩ := hpre
    rw [executed_append] at hnone
    have hzero : lostCarries (executed value s pre) = 0 := by
      unfold lostCarries
      rw [List.countP_eq_zero]
      intro x hx hlose
      exact hnone x (List.mem_append_left _ hx) (of_decide_eq_true hlose)
    rw [exact_iff, hzero]
    exact dvd_zero _

/-- **The counter** is exact at the end of a run if and only if the number of increases
that found its low half full is a multiple of `2 ^ 32`, and in every state of
the run if and only if there was none. -/
theorem atomic_counter_iff (value : ℕ) (s : State ι) (events : List (Event ι)) :
    (Exact value s events ↔ 2 ^ 32 ∣ lostCarries (executed value s events)) ∧
      ((∀ pre, pre <+: events → Exact value s pre) ↔
        ∀ x ∈ executed value s events, ¬ LosesCarry x) :=
  ⟨exact_iff value s events, exact_everywhere_iff value s events⟩

end

/-- A counter at address 0 whose low half is full. -/
def fullLow : State Unit := ⟨fun a => if a < 4 then 255 else 0, fun _ => .idle none⟩

/-- One increase takes the counter from `2 ^ 32 - 1` to 0. -/
theorem full_low_wraps :
    ¬ ∀ (s : State Unit) (events : List (Event Unit)), Exact 0 s events := by
  intro h
  have hlost : lostCarries (executed 0 fullLow [.call () .increase, .advance ()]) = 1 := by
    decide +kernel
  have hdvd := (exact_iff 0 fullLow _).mp (h fullLow [.call () .increase, .advance ()])
  rw [hlost] at hdvd
  exact absurd hdvd (by decide)

end HCore.AtomicCounter
