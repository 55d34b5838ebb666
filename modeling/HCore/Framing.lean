import Mathlib.Data.List.Basic
import Mathlib.Tactic.Ring

/-!
Decoders that consume their input in pieces. A machine says how long the next
piece is and what it does to the state. A run takes pieces as long as the
input holds them; it ends with a state and the input left over, or with a
piece that the machine rejects. A run can be cut at any point of the input.
-/

namespace HCore.Framing

/-- `need` is the length of the next piece, or `none` in a final state. A piece
that the machine rejects has no next state. -/
structure Machine (σ β : Type*) where
  need : σ → Option ℕ
  step : σ → List β → Option σ

inductive Outcome (σ β : Type*)
  | stop (s : σ) (rest : List β)
  | reject

variable {σ τ β : Type*}

/-- The pieces of `input` take `s` to `s'`, and nothing is left over. -/
inductive Reads (M : Machine σ β) : σ → List β → σ → Prop
  | nil {s : σ} : Reads M s [] s
  | piece {s t s' : σ} {bytes rest : List β} (hneed : M.need s = some bytes.length)
      (hstep : M.step s bytes = some t) (hrest : Reads M t rest s') : Reads M s (bytes ++ rest) s'

inductive Runs (M : Machine σ β) : σ → List β → Outcome σ β → Prop
  | final {s : σ} {input : List β} (hneed : M.need s = none) : Runs M s input (.stop s input)
  | wait {s : σ} {input : List β} {n : ℕ} (hneed : M.need s = some n) (hlen : input.length < n) :
      Runs M s input (.stop s input)
  | reject {s : σ} {bytes rest : List β} (hneed : M.need s = some bytes.length)
      (hstep : M.step s bytes = none) : Runs M s (bytes ++ rest) .reject
  | piece {s t : σ} {bytes rest : List β} {out : Outcome σ β}
      (hneed : M.need s = some bytes.length) (hstep : M.step s bytes = some t)
      (hrest : Runs M t rest out) : Runs M s (bytes ++ rest) out

variable {M : Machine σ β} {s t s' : σ} {input input' : List β} {out out' : Outcome σ β}

theorem Reads.single {bytes : List β} (hneed : M.need s = some bytes.length)
    (hstep : M.step s bytes = some t) : Reads M s bytes t := by
  have h := Reads.piece hneed hstep Reads.nil
  rwa [List.append_nil] at h

theorem Reads.trans (h : Reads M s input t) (h' : Reads M t input' s') :
    Reads M s (input ++ input') s' := by
  induction h with
  | nil => exact h'
  | piece hneed hstep _ ih =>
    rw [List.append_assoc]
    exact .piece hneed hstep (ih h')

/-- A run goes on where the pieces read so far end. -/
theorem Reads.runs (h : Reads M s input t) (h' : Runs M t input' out) :
    Runs M s (input ++ input') out := by
  induction h with
  | nil => exact h'
  | piece hneed hstep _ ih =>
    rw [List.append_assoc]
    exact .piece hneed hstep (ih h')

/-- A property of the state and of the pieces read so far. -/
theorem Reads.invariant {P : σ → List β → Prop}
    (hstep : ∀ s t before bytes, P s before → M.need s = some bytes.length →
      M.step s bytes = some t → P t (before ++ bytes))
    (h : Reads M s input s') {before : List β} (h0 : P s before) : P s' (before ++ input) := by
  induction h generalizing before with
  | nil => rwa [List.append_nil]
  | piece hneed hs _ ih =>
    rw [← List.append_assoc]
    exact ih (hstep _ _ _ _ h0 hneed hs)

/-- What a run leaves over follows the pieces it has read. -/
theorem Runs.reads (h : Runs M s input (.stop s' input')) :
    ∃ before, input = before ++ input' ∧ Reads M s before s' := by
  generalize hout : Outcome.stop s' input' = out at h
  induction h with
  | final | wait =>
    cases hout
    exact ⟨[], rfl, .nil⟩
  | reject => cases hout
  | piece hneed hstep _ ih =>
    obtain ⟨before, hinput, hreads⟩ := ih hout
    exact ⟨_, by rw [hinput, List.append_assoc], .piece hneed hstep hreads⟩

/-- What a run leaves over does not hold the next piece. -/
theorem Runs.stopped (h : Runs M s input (.stop s' input')) :
    M.need s' = none ∨ ∃ n, M.need s' = some n ∧ input'.length < n := by
  generalize hout : Outcome.stop s' input' = out at h
  induction h with
  | final hneed =>
    cases hout
    exact Or.inl hneed
  | wait hneed hlen =>
    cases hout
    exact Or.inr ⟨_, hneed, hlen⟩
  | reject => cases hout
  | piece _ _ _ ih => exact ih hout

theorem append_inj_of_need {bytes bytes' rest rest' : List β} (hneed : M.need s = some bytes.length)
    (hneed' : M.need s = some bytes'.length) (h : bytes ++ rest = bytes' ++ rest') :
    bytes = bytes' ∧ rest = rest' := by
  rw [hneed] at hneed'
  exact List.append_inj h (Option.some.inj hneed')

theorem Runs.deterministic (h : Runs M s input out) (h' : Runs M s input out') : out = out' := by
  induction h generalizing out' with
  | final hneed =>
    cases h' with
    | final => rfl
    | wait hneed' => simp [hneed] at hneed'
    | reject hneed' => simp [hneed] at hneed'
    | piece hneed' => simp [hneed] at hneed'
  | wait hneed hlen =>
    cases h' with
    | final hneed' => simp [hneed] at hneed'
    | wait => rfl
    | reject hneed' =>
      rw [hneed] at hneed'
      simp only [Option.some.injEq, List.length_append] at hneed' hlen
      omega
    | piece hneed' =>
      rw [hneed] at hneed'
      simp only [Option.some.injEq, List.length_append] at hneed' hlen
      omega
  | @reject s bytes rest hneed hstep =>
    generalize hinput : bytes ++ rest = input at h'
    cases h' with
    | final hneed' => simp [hneed] at hneed'
    | wait hneed' hlen =>
      rw [hneed] at hneed'
      simp only [Option.some.injEq] at hneed'
      simp only [← hinput, List.length_append] at hlen
      omega
    | reject => rfl
    | piece hneed' hstep' =>
      obtain ⟨rfl, rfl⟩ := append_inj_of_need hneed hneed' hinput
      simp [hstep] at hstep'
  | @piece s t bytes rest out hneed hstep _ ih =>
    generalize hinput : bytes ++ rest = input at h'
    cases h' with
    | final hneed' => simp [hneed] at hneed'
    | wait hneed' hlen =>
      rw [hneed] at hneed'
      simp only [Option.some.injEq] at hneed'
      simp only [← hinput, List.length_append] at hlen
      omega
    | reject hneed' hstep' =>
      obtain ⟨rfl, rfl⟩ := append_inj_of_need hneed hneed' hinput
      simp [hstep] at hstep'
    | piece hneed' hstep' hrest' =>
      obtain ⟨rfl, rfl⟩ := append_inj_of_need hneed hneed' hinput
      rw [hstep] at hstep'
      cases hstep'
      exact ih hrest'

/-- A rejected piece stays rejected however the input goes on. -/
theorem Runs.reject_append (h : Runs M s input .reject) (more : List β) :
    Runs M s (input ++ more) .reject := by
  generalize hout : Outcome.reject = out at h
  induction h with
  | final => cases hout
  | wait => cases hout
  | reject hneed hstep =>
    rw [List.append_assoc]
    exact .reject hneed hstep
  | piece hneed hstep _ ih =>
    rw [List.append_assoc]
    exact .piece hneed hstep (ih hout)

/-- A property of the state and of the input that is still to come. -/
def Kept (M : Machine σ β) (P : σ → List β → Prop) : Prop :=
  ∀ s bytes rest t, P s (bytes ++ rest) → M.need s = some bytes.length →
    M.step s bytes = some t → P t rest

theorem Kept.reads {P : σ → List β → Prop} (h : Kept M P) (hreads : Reads M s input s')
    {rest : List β} (hs : P s (input ++ rest)) : P s' rest := by
  induction hreads with
  | nil => exact hs
  | piece hneed hstep _ ih =>
    rw [List.append_assoc] at hs
    exact ih (h _ _ _ _ hs hneed hstep)

/-- Twice the length of the input, and one more when an empty piece is next. -/
def rounds (M : Machine σ β) (s : σ) (input : List β) : ℕ :=
  2 * input.length + if M.need s = some 0 then 1 else 0

/-- No two pieces in a row are empty. -/
def Productive (M : Machine σ β) (P : σ → List β → Prop) : Prop :=
  ∀ s rest t, P s rest → M.need s = some 0 → M.step s [] = some t → M.need t ≠ some 0

theorem rounds_lt {P : σ → List β → Prop} (hprod : Productive M P) {bytes rest : List β}
    (hs : P s (bytes ++ rest)) (hneed : M.need s = some bytes.length)
    (hstep : M.step s bytes = some t) : rounds M t rest < rounds M s (bytes ++ rest) := by
  unfold rounds
  rw [List.length_append]
  rcases Nat.eq_zero_or_pos bytes.length with hnil | hpos
  · obtain rfl := List.eq_nil_of_length_eq_zero hnil
    have hzero : M.need s = some 0 := hneed
    rw [if_neg (hprod s _ t hs hzero hstep), if_pos hzero]
    omega
  · split <;> omega

/-- Every input has a run. -/
theorem Kept.runs {P : σ → List β → Prop} (h : Kept M P) (hprod : Productive M P) (s : σ)
    (input : List β) (hs : P s input) : ∃ out, Runs M s input out := by
  have hmeasure : ∀ n s (input : List β), P s input → rounds M s input < n →
      ∃ out, Runs M s input out := by
    intro n
    induction n with
    | zero => intro s input _ hn; omega
    | succ n ih =>
      intro s input hs hn
      cases hneed : M.need s with
      | none => exact ⟨_, .final hneed⟩
      | some k =>
        rcases Nat.lt_or_ge input.length k with hlen | hlen
        · exact ⟨_, .wait hneed hlen⟩
        · have hneed' : M.need s = some (input.take k).length := by
            rw [hneed, List.length_take, Nat.min_eq_left hlen]
          rw [← List.take_append_drop k input] at hs hn ⊢
          cases hstep : M.step s (input.take k) with
          | none => exact ⟨_, .reject hneed' hstep⟩
          | some t =>
            have hlt := rounds_lt hprod hs hneed' hstep
            obtain ⟨out, hrun⟩ := ih t _ (h _ _ _ _ hs hneed' hstep) (by omega)
            exact ⟨out, .piece hneed' hstep hrun⟩
  exact hmeasure _ s input hs (Nat.lt_succ_self _)

variable {N : Machine τ β}

/-- A map of states that keeps the length and the effect of every piece that is
accepted. -/
theorem Reads.map {f : σ → τ} (hneed : ∀ s, N.need (f s) = M.need s)
    (hstep : ∀ s t bytes, M.need s = some bytes.length → M.step s bytes = some t →
      N.step (f s) bytes = some (f t))
    (h : Reads M s input s') : Reads N (f s) input (f s') := by
  induction h with
  | nil => exact .nil
  | piece hn hs _ ih => exact .piece ((hneed _).trans hn) (hstep _ _ _ hn hs) ih

end HCore.Framing
