import Mathlib.Data.Nat.Notation
import Mathlib.Logic.Function.Basic

/-!
Operations on a shared state under a lock. Between acquiring and releasing the
lock an operation runs as a body of atomic steps, and any number of processes
run operations at the same time. Whatever the cut of the operations into steps,
every interleaving has the outcome of the operations one after another, in the
order in which they released the lock. The last section is the rule by which a
process with a rank that its own steps lower gets through under a fair
schedule.
-/

namespace HCore.CriticalSection

/-- A computation on a shared state in atomic steps. A step changes the state or
faults, and what comes next depends on the state that it found. -/
inductive Body (σ ε α : Type)
  | done (a : α)
  | step (effect : σ → Except ε σ) (next : σ → Body σ ε α)

namespace Body

variable {σ ε α β : Type}

/-- The body without steps of others in between. -/
def solo : Body σ ε α → σ → Except ε (α × σ)
  | .done a, s => .ok (a, s)
  | .step effect next, s => do
    let s' ← effect s
    (next s).solo s'

def bind : Body σ ε α → (α → Body σ ε β) → Body σ ε β
  | .done a, f => f a
  | .step effect next, f => .step effect (fun s => (next s).bind f)

/-- An operation in one step. -/
def atom [Inhabited α] (f : σ → Except ε (α × σ)) : Body σ ε α :=
  .step (fun s => (f s).map Prod.snd) (fun s => .done ((f s).toOption.elim default Prod.fst))

/-- What is left of a body after its first step. -/
def After (rest body : Body σ ε α) : Prop :=
  ∃ effect next s, body = .step effect next ∧ rest = next s

theorem solo_bind (body : Body σ ε α) (f : α → Body σ ε β) (s : σ) :
    (body.bind f).solo s = (do
      let r ← body.solo s
      (f r.1).solo r.2) := by
  induction body generalizing s with
  | done a => rfl
  | step effect next ih =>
    simp only [bind, solo]
    cases effect s with
    | error e => rfl
    | ok s' => exact ih s s'

theorem solo_atom [Inhabited α] (f : σ → Except ε (α × σ)) (s : σ) :
    (atom f : Body σ ε α).solo s = f s := by
  simp only [atom, solo]
  cases f s with
  | error e => rfl
  | ok r => rfl

end Body

/-- A cut of every operation into steps that do together what the operation
does. -/
structure Cut {Op σ ε α : Type} (act : Op → σ → Except ε (α × σ)) where
  body : Op → Body σ ε α
  solo_body : ∀ op s, (body op).solo s = act op s

/-- Every operation in one step. -/
def Cut.whole {Op σ ε α : Type} [Inhabited α] (act : Op → σ → Except ε (α × σ)) : Cut act :=
  ⟨fun op => Body.atom (act op), fun op => Body.solo_atom (act op)⟩

/-- Operations in a row under one lock, each chosen by the answers before it. -/
inductive Client (Op α β : Type)
  | ret (b : β)
  | call (op : Op) (next : α → Client Op α β)

namespace Client

variable {Op σ ε α β : Type} {act : Op → σ → Except ε (α × σ)}

def run (act : Op → σ → Except ε (α × σ)) : Client Op α β → σ → Except ε (β × σ)
  | .ret b, s => .ok (b, s)
  | .call op next, s => do
    let r ← act op s
    (next r.1).run act r.2

def body (cut : Cut act) : Client Op α β → Body σ ε β
  | .ret b => .done b
  | .call op next => (cut.body op).bind (fun a => (next a).body cut)

theorem solo_body (cut : Cut act) (client : Client Op α β) (s : σ) :
    (client.body cut).solo s = client.run act s := by
  induction client generalizing s with
  | ret b => rfl
  | call op next ih =>
    rw [body, Body.solo_bind, cut.solo_body, Client.run]
    cases act op s with
    | error e => rfl
    | ok r => exact ih r.1 r.2

end Client

/-- The clients of an object are operations of their own. -/
def Cut.clients {Op σ ε α : Type} {act : Op → σ → Except ε (α × σ)} (cut : Cut act) (β : Type) :
    Cut (@Client.run Op σ ε α β act) :=
  ⟨Client.body cut, Client.solo_body cut⟩

/-- Where a process stands with its operation. -/
inductive Place (Op σ ε α : Type)
  | outside
  | waiting (op : Op)
  | inside (op : Op) (rest : Body σ ε α)

/-- The shared state, the processes, and the operations that were finished with
their answers, the last one first. -/
structure State (ι Op σ ε α : Type) where
  shared : σ
  place : ι → Place Op σ ε α
  log : List (ι × Op × α)

def State.Inside {ι Op σ ε α : Type} (s : State ι Op σ ε α) (i : ι) : Prop :=
  ∃ op rest, s.place i = .inside op rest

section

variable {ι Op σ ε α : Type} [DecidableEq ι] {act : Op → σ → Except ε (α × σ)}

/-- One step of one process. The lock is free when nobody is inside. -/
inductive Step (cut : Cut act) : State ι Op σ ε α → State ι Op σ ε α → Prop
  | begin {s : State ι Op σ ε α} {i : ι} (op : Op) (hplace : s.place i = .outside) :
      Step cut s { s with place := Function.update s.place i (.waiting op) }
  | enter {s : State ι Op σ ε α} {i : ι} {op : Op} (hplace : s.place i = .waiting op)
      (hfree : ∀ j, ¬ s.Inside j) :
      Step cut s { s with place := Function.update s.place i (.inside op (cut.body op)) }
  | advance {s : State ι Op σ ε α} {i : ι} {op : Op} {effect : σ → Except ε σ}
      {next : σ → Body σ ε α} {shared : σ} (hplace : s.place i = .inside op (.step effect next))
      (heffect : effect s.shared = .ok shared) :
      Step cut s ⟨shared, Function.update s.place i (.inside op (next s.shared)), s.log⟩
  | leave {s : State ι Op σ ε α} {i : ι} {op : Op} {a : α}
      (hplace : s.place i = .inside op (.done a)) :
      Step cut s ⟨s.shared, Function.update s.place i .outside, (i, op, a) :: s.log⟩

/-- The operations of the log one after another, with their answers. -/
inductive Serial (act : Op → σ → Except ε (α × σ)) (s : σ) : List (ι × Op × α) → σ → Prop
  | nil : Serial act s [] s
  | cons {log : List (ι × Op × α)} {i : ι} {op : Op} {a : α} {s' s'' : σ}
      (h : Serial act s log s') (hact : act op s' = .ok (a, s'')) :
      Serial act s ((i, op, a) :: log) s''

/-- The operations of the log lead to a state from which the process inside, if
there is one, continues with the rest of its operation. -/
structure Serialized (act : Op → σ → Except ε (α × σ)) (s₀ : σ) (s : State ι Op σ ε α) : Prop where
  alone : ∀ i j, s.Inside i → s.Inside j → i = j
  serial : ∃ s₁, Serial act s₀ s.log s₁ ∧ ((∀ i, ¬ s.Inside i) → s.shared = s₁) ∧
    ∀ i op rest, s.place i = .inside op rest → rest.solo s.shared = act op s₁

end

section

variable {ι Op σ ε α : Type} [DecidableEq ι] {act : Op → σ → Except ε (α × σ)} {cut : Cut act}
  {s₀ : σ} {s s' : State ι Op σ ε α} {i j : ι}

/-- The place of a process after a step of this or another one. -/
theorem update_cases {place : ι → Place Op σ ε α} {p q : Place Op σ ε α}
    (h : Function.update place i p j = q) : (j = i ∧ p = q) ∨ (j ≠ i ∧ place j = q) := by
  by_cases hj : j = i
  · subst hj
    rw [Function.update_self] at h
    exact Or.inl ⟨rfl, h⟩
  · rw [Function.update_of_ne hj] at h
    exact Or.inr ⟨hj, h⟩

omit [DecidableEq ι] in
theorem Serial.determines {log : List (ι × Op × α)} {s₁ s₂ : σ} (h : Serial act s₀ log s₁)
    (h' : Serial act s₀ log s₂) : s₁ = s₂ := by
  induction h generalizing s₂ with
  | nil =>
    cases h'
    rfl
  | cons h hact ih =>
    cases h' with
    | cons h' hact' =>
      rw [ih h', hact'] at hact
      cases hact
      rfl

omit [DecidableEq ι] in
theorem serialized_start (act : Op → σ → Except ε (α × σ)) (s₀ : σ) :
    Serialized act s₀ (⟨s₀, fun _ => .outside, []⟩ : State ι Op σ ε α) := by
  refine ⟨?_, s₀, Serial.nil, fun _ => rfl, ?_⟩
  · intro i j hi
    obtain ⟨op, rest, hplace⟩ := hi
    cases hplace
  · intro i op rest hplace
    cases hplace

/-- Only a process that was inside, or one that enters, is inside after an update. -/
theorem inside_update {shared : σ} {log : List (ι × Op × α)} {p : Place Op σ ε α}
    (h : (⟨shared, Function.update s.place i p, log⟩ : State ι Op σ ε α).Inside j) :
    (j = i ∧ ∃ op rest, p = .inside op rest) ∨ (j ≠ i ∧ s.Inside j) := by
  obtain ⟨op, rest, hplace⟩ := h
  rcases update_cases hplace with ⟨rfl, hp⟩ | ⟨hj, hp⟩
  · exact Or.inl ⟨rfl, op, rest, hp⟩
  · exact Or.inr ⟨hj, op, rest, hp⟩

/-- A process that begins an operation changes nobody's view. -/
theorem Serialized.begin (h : Serialized act s₀ s) (op : Op) (hplace : s.place i = .outside) :
    Serialized act s₀ { s with place := Function.update s.place i (.waiting op) } := by
  have hback {j : ι} (hj : State.Inside { s with place := Function.update s.place i (.waiting op) } j) :
      s.Inside j := by
    rcases inside_update hj with ⟨-, op', rest, hp⟩ | ⟨-, hj⟩
    · cases hp
    · exact hj
  obtain ⟨s₁, hserial, hquiet, hrest⟩ := h.serial
  refine ⟨fun j k hj hk => h.alone j k (hback hj) (hback hk), s₁, hserial, ?_, ?_⟩
  · intro hnone
    apply hquiet
    intro j hj
    obtain ⟨op', rest, hp⟩ := hj
    have hne : j ≠ i := by
      rintro rfl
      rw [hplace] at hp
      cases hp
    exact hnone j ⟨op', rest, (Function.update_of_ne hne ..).trans hp⟩
  · intro j op' rest hp
    rcases update_cases hp with ⟨-, hp⟩ | ⟨-, hp⟩
    · cases hp
    · exact hrest j op' rest hp

/-- The first one inside starts from the state that the log leads to. -/
theorem Serialized.enter (h : Serialized act s₀ s) {op : Op} (hfree : ∀ j, ¬ s.Inside j) :
    Serialized act s₀
      { s with place := Function.update s.place i (.inside op (cut.body op)) } := by
  have hback {j : ι} (hj : State.Inside
      { s with place := Function.update s.place i (.inside op (cut.body op)) } j) : j = i := by
    rcases inside_update hj with ⟨hj, -⟩ | ⟨-, hj⟩
    · exact hj
    · exact absurd hj (hfree j)
  obtain ⟨s₁, hserial, hquiet, -⟩ := h.serial
  refine ⟨fun j k hj hk => (hback hj).trans (hback hk).symm, s₁, hserial, ?_, ?_⟩
  · intro _
    exact hquiet hfree
  · intro j op' rest hp
    rcases update_cases hp with ⟨-, hp⟩ | ⟨-, hp⟩
    · cases hp
      dsimp only
      rw [cut.solo_body, hquiet hfree]
    · exact absurd ⟨op', rest, hp⟩ (hfree j)

/-- A step inside leaves less of the same operation. -/
theorem Serialized.advance (h : Serialized act s₀ s) {op : Op} {effect : σ → Except ε σ}
    {next : σ → Body σ ε α} {shared : σ} (hplace : s.place i = .inside op (.step effect next))
    (heffect : effect s.shared = .ok shared) :
    Serialized act s₀
      ⟨shared, Function.update s.place i (.inside op (next s.shared)), s.log⟩ := by
  have hin : s.Inside i := ⟨op, _, hplace⟩
  have hback {j : ι} (hj : State.Inside
      (⟨shared, Function.update s.place i (.inside op (next s.shared)), s.log⟩ :
        State ι Op σ ε α) j) : j = i := by
    rcases inside_update hj with ⟨hj, -⟩ | ⟨-, hj⟩
    · exact hj
    · exact h.alone j i hj hin
  obtain ⟨s₁, hserial, -, hrest⟩ := h.serial
  refine ⟨fun j k hj hk => (hback hj).trans (hback hk).symm, s₁, hserial, ?_, ?_⟩
  · intro hnone
    exact absurd ⟨op, _, Function.update_self ..⟩ (hnone i)
  · intro j op' rest hp
    obtain rfl : j = i := hback ⟨op', rest, hp⟩
    rcases update_cases hp with ⟨-, hp⟩ | ⟨hne, -⟩
    · cases hp
      have hsolo := hrest j op _ hplace
      rw [Body.solo, heffect] at hsolo
      exact hsolo
    · exact absurd rfl hne

/-- Leaving appends the operation, with its answer, to the log. -/
theorem Serialized.leave (h : Serialized act s₀ s) {op : Op} {a : α}
    (hplace : s.place i = .inside op (.done a)) :
    Serialized act s₀ ⟨s.shared, Function.update s.place i .outside, (i, op, a) :: s.log⟩ := by
  have hin : s.Inside i := ⟨op, _, hplace⟩
  have hback (j : ι) : ¬ State.Inside
      (⟨s.shared, Function.update s.place i .outside, (i, op, a) :: s.log⟩ :
        State ι Op σ ε α) j := by
    intro hj
    rcases inside_update hj with ⟨-, op', rest, hp⟩ | ⟨hne, hj⟩
    · cases hp
    · exact hne (h.alone j i hj hin)
  obtain ⟨s₁, hserial, -, hrest⟩ := h.serial
  have hact : act op s₁ = .ok (a, s.shared) := (hrest i op _ hplace).symm
  refine ⟨fun j k hj => absurd hj (hback j), s.shared, hserial.cons hact, fun _ => rfl, ?_⟩
  intro j op' rest hp
  exact absurd ⟨op', rest, hp⟩ (hback j)

theorem Step.serialized (h : Serialized act s₀ s) (hstep : Step cut s s') :
    Serialized act s₀ s' := by
  cases hstep with
  | begin op hplace => exact h.begin op hplace
  | enter hplace hfree => exact h.enter hfree
  | advance hplace heffect => exact h.advance hplace heffect
  | leave hplace => exact h.leave hplace

omit [DecidableEq ι] in
/-- A step of the body that faults is a fault of the operation by itself. -/
theorem Serialized.fault (h : Serialized act s₀ s) {op : Op} {effect : σ → Except ε σ}
    {next : σ → Body σ ε α} {e : ε} (hplace : s.place i = .inside op (.step effect next))
    (heffect : effect s.shared = .error e) :
    ∃ s₁, Serial act s₀ s.log s₁ ∧ act op s₁ = .error e := by
  obtain ⟨s₁, hserial, -, hrest⟩ := h.serial
  refine ⟨s₁, hserial, ?_⟩
  rw [← hrest i op _ hplace, Body.solo, heffect]
  rfl

end

end HCore.CriticalSection
