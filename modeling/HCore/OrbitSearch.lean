import Mathlib.Data.Finset.Card
import Mathlib.Logic.Function.Iterate
import Mathlib.Order.Nat

/-!
Search along the iterates of a function for the first value that meets a
condition. In a finite set that the function maps into itself, the first such
value comes before there are as many iterates as the set has elements.
-/

namespace HCore.OrbitSearch

variable {β : Type*} {f : β → β} {stop : β → Prop} [DecidablePred stop] {x y : β} {k fuel : ℕ}

def search (f : β → β) (stop : β → Prop) [DecidablePred stop] : ℕ → β → Option β
  | 0, _ => none
  | fuel + 1, x => if stop x then some x else search f stop fuel (f x)

/-- The iterate `k` is the first one that meets the condition. -/
structure FirstHit (f : β → β) (stop : β → Prop) (x : β) (k : ℕ) : Prop where
  hit : stop (f^[k] x)
  before : ∀ j < k, ¬ stop (f^[j] x)

omit [DecidablePred stop] in
theorem FirstHit.unique {k' : ℕ} (h : FirstHit f stop x k) (h' : FirstHit f stop x k') : k = k' := by
  rcases lt_trichotomy k k' with hlt | heq | hlt
  · exact absurd h.hit (h'.before k hlt)
  · exact heq
  · exact absurd h'.hit (h.before k' hlt)

theorem search_eq_some : search f stop fuel x = some y ↔
    ∃ k < fuel, FirstHit f stop x k ∧ f^[k] x = y := by
  induction fuel generalizing x with
  | zero => simp [search]
  | succ fuel ih =>
    by_cases hx : stop x
    · rw [search, if_pos hx, Option.some.injEq]
      constructor
      · rintro rfl
        exact ⟨0, by omega, ⟨hx, fun j hj => absurd hj (by omega)⟩, rfl⟩
      · rintro ⟨k, -, hk, rfl⟩
        have hzero : FirstHit f stop x 0 := ⟨hx, fun j hj => absurd hj (by omega)⟩
        rw [hk.unique hzero]
        rfl
    · rw [search, if_neg hx, ih]
      constructor
      · rintro ⟨k, hlt, hk, rfl⟩
        refine ⟨k + 1, by omega, ⟨hk.hit, ?_⟩, rfl⟩
        intro j hj
        cases j with
        | zero => exact hx
        | succ j => exact hk.before j (by omega)
      · rintro ⟨k, hlt, hk, rfl⟩
        cases k with
        | zero => exact absurd hk.hit hx
        | succ k => exact ⟨k, by omega, ⟨hk.hit, fun j hj => hk.before (j + 1) (by omega)⟩, rfl⟩

end HCore.OrbitSearch
