import Mathlib.Data.List.Basic
import Mathlib.Order.Defs.Unbundled

/-!
Reference-counted maps, whose keys are the classes of an equivalence, and the
rows of slots that hold them: a slot is free or holds a datum with its count,
and no two slots hold equal data. A row keeps holding the map when the one slot
of a datum changes as the count of the datum does.
-/

namespace HCore.RefMaps

/-- The count of every datum, and how many data have one. -/
@[ext] structure RefMap (α : Type*) where
  count : α → ℕ
  present : ℕ

section

def RefMap.empty (α : Type*) : RefMap α := ⟨fun _ => 0, 0⟩

variable {α : Type*} (same : α → α → Prop) [DecidableRel same]

/-- One more reference to `d`. -/
def RefMap.add (M : RefMap α) (d : α) : RefMap α where
  count a := if same a d then M.count a + 1 else M.count a
  present := if M.count d = 0 then M.present + 1 else M.present

/-- One reference less to `d`. -/
def RefMap.drop (M : RefMap α) (d : α) : RefMap α where
  count a := if same a d then M.count a - 1 else M.count a
  present := if M.count d = 1 then M.present - 1 else M.present

end

section

variable {α : Type*} (same : α → α → Prop)

/-- The slots hold exactly the data of the map, each once, with its count. -/
structure Holds (slots : List (Option (α × ℕ))) (M : RefMap α) : Prop where
  refs : ∀ (i : ℕ) a n, slots[i]? = some (some (a, n)) → M.count a = n ∧ 0 < n
  found : ∀ d, 0 < M.count d → ∃ (i : ℕ) (a : α) (n : ℕ), slots[i]? = some (some (a, n)) ∧ same a d
  unique : ∀ (i j : ℕ) a b n k, slots[i]? = some (some (a, n)) → slots[j]? = some (some (b, k)) →
    same a b → i = j
  respects : ∀ a b, same a b → M.count a = M.count b
  present_eq : M.present = slots.countP Option.isSome

variable {same} {slots : List (Option (α × ℕ))} {M M' : RefMap α} {d : α} {i : ℕ}
  {old new : Option (α × ℕ)}

theorem holds_empty (h : ∀ x ∈ slots, x = none) : Holds same slots (RefMap.empty α) := by
  have hnone {i : ℕ} {a : α} {n : ℕ} (hi : slots[i]? = some (some (a, n))) : False := by
    cases h _ (List.mem_of_getElem? hi)
  refine ⟨fun i a n hi => (hnone hi).elim, fun d hd => absurd hd (Nat.lt_irrefl 0),
    fun i j a b n k hi => (hnone hi).elim, fun a b _ => rfl, ?_⟩
  refine (List.countP_eq_zero.mpr fun x hx => ?_).symm
  rw [h x hx]
  simp

/-- The slot of a datum that the map has. -/
theorem Holds.slot (h : Holds same slots M) (hd : 0 < M.count d) :
    ∃ (i : ℕ) (a : α), slots[i]? = some (some (a, M.count d)) ∧ same a d := by
  obtain ⟨i, a, n, hi, ha⟩ := h.found d hd
  have hn := (h.refs i a n hi).1
  rw [h.respects a d ha] at hn
  rw [hn]
  exact ⟨i, a, hi, ha⟩

/-- The other slots hold other data. -/
theorem Holds.other (h : Holds same slots M) (heq : Equivalence same) (hi : slots[i]? = some old)
    (hold : ∀ a n, old = some (a, n) → same a d) (hfree : old = none → M.count d = 0) {j : ℕ} {b : α}
    {k : ℕ} (hj : slots[j]? = some (some (b, k))) (hne : j ≠ i) : ¬ same b d := by
  intro hb
  obtain ⟨hk, hpos⟩ := h.refs j b k hj
  cases old with
  | none =>
    rw [h.respects b d hb, hfree rfl] at hk
    omega
  | some x =>
    obtain ⟨a, n⟩ := x
    exact hne (h.unique j i b a k n hj hi (heq.trans hb (heq.symm (hold a n rfl))))

/-- The slot of `d` changes as the count of `d` does. -/
theorem Holds.set (d : α) (h : Holds same slots M) (heq : Equivalence same) (hi : slots[i]? = some old)
    (hold : ∀ a n, old = some (a, n) → same a d) (hfree : old = none → M.count d = 0)
    (hnew : ∀ a n, new = some (a, n) → same a d ∧ M'.count d = n ∧ 0 < n)
    (hfree' : new = none → M'.count d = 0)
    (hcount : ∀ a, ¬ same a d → M'.count a = M.count a)
    (hrespects : ∀ a b, same a b → M'.count a = M'.count b)
    (hpresent : M'.present + old.isSome.toNat = M.present + new.isSome.toNat) :
    Holds same (slots.set i new) M' := by
  have hlt : i < slots.length := (List.getElem?_eq_some_iff.mp hi).1
  have hself : (slots.set i new)[i]? = some new := List.getElem?_set_self hlt
  have hcases {j : ℕ} {a : α} {n : ℕ} (hj : (slots.set i new)[j]? = some (some (a, n))) :
      (j = i ∧ new = some (a, n)) ∨ (j ≠ i ∧ slots[j]? = some (some (a, n)) ∧ ¬ same a d) := by
    by_cases hji : j = i
    · subst hji
      rw [hself] at hj
      exact Or.inl ⟨rfl, Option.some.inj hj⟩
    · rw [List.getElem?_set_ne (Ne.symm hji)] at hj
      exact Or.inr ⟨hji, hj, h.other heq hi hold hfree hj hji⟩
  refine ⟨?_, ?_, ?_, hrespects, ?_⟩
  · intro j a n hj
    rcases hcases hj with ⟨-, hj⟩ | ⟨-, hj, had⟩
    · obtain ⟨had, hn, hpos⟩ := hnew a n hj
      exact ⟨(hrespects a d had).trans hn, hpos⟩
    · rw [hcount a had]
      exact h.refs j a n hj
  · intro b hb
    by_cases hbd : same b d
    · cases hx : new with
      | none =>
        rw [hrespects b d hbd, hfree' hx] at hb
        omega
      | some x =>
        obtain ⟨a, n⟩ := x
        refine ⟨i, a, n, hx ▸ hself, ?_⟩
        exact heq.trans (hnew a n hx).1 (heq.symm hbd)
    · rw [hcount b hbd] at hb
      obtain ⟨j, a, n, hj, ha⟩ := h.found b hb
      have hji : j ≠ i := by
        rintro rfl
        rw [hi] at hj
        exact hbd (heq.trans (heq.symm ha) (hold a n (Option.some.inj hj)))
      exact ⟨j, a, n, (List.getElem?_set_ne (Ne.symm hji)).trans hj, ha⟩
  · intro j j' a b n k hj hj' hab
    rcases hcases hj with ⟨rfl, ha⟩ | ⟨-, ha, had⟩
    · rcases hcases hj' with ⟨rfl, hb⟩ | ⟨-, hb, hbd⟩
      · rfl
      · exact absurd (heq.trans (heq.symm hab) (hnew a n ha).1) hbd
    · rcases hcases hj' with ⟨rfl, hb⟩ | ⟨-, hb, hbd⟩
      · exact absurd (heq.trans hab (hnew b k hb).1) had
      · exact h.unique j j' a b n k ha hb hab
  · have hold' : slots[i] = old := by
      rw [List.getElem?_eq_getElem hlt] at hi
      exact Option.some.inj hi
    have hle : (if slots[i].isSome then 1 else 0) ≤ slots.countP Option.isSome :=
      List.boole_getElem_le_countP hlt
    rw [List.countP_set hlt]
    rw [hold'] at hle ⊢
    have hp := h.present_eq
    revert hpresent hle
    cases old <;> cases new <;>
      simp only [Option.isSome_none, Option.isSome_some, Bool.toNat_true, Bool.toNat_false,
        Bool.false_eq_true, if_true, if_false] <;> omega

end

section

variable {α : Type*} {same : α → α → Prop} [DecidableRel same] {slots : List (Option (α × ℕ))}
  {M : RefMap α} {d : α} {i : ℕ}

theorem Holds.respects_add (h : Holds same slots M) (heq : Equivalence same) (a b : α) (hab : same a b) :
    (M.add same d).count a = (M.add same d).count b := by
  have hiff : same a d ↔ same b d := ⟨heq.trans (heq.symm hab), heq.trans hab⟩
  simp only [RefMap.add, hiff, h.respects a b hab]

/-- The datum of a slot is added again. -/
theorem Holds.increase {a : α} {n : ℕ} (h : Holds same slots M) (heq : Equivalence same)
    (hi : slots[i]? = some (some (a, n))) (ha : same a d) :
    Holds same (slots.set i (some (a, n + 1))) (M.add same d) := by
  obtain ⟨hn, hpos⟩ := h.refs i a n hi
  rw [h.respects a d ha] at hn
  refine Holds.set d h heq hi ?_ (by simp) ?_ (by simp) ?_ (h.respects_add heq) ?_
  · intro b k hb
    cases hb
    exact ha
  · intro b k hb
    cases hb
    exact ⟨ha, by simp [RefMap.add, heq.refl d, hn], Nat.succ_pos n⟩
  · intro b hb
    simp [RefMap.add, hb]
  · have hne : M.count d ≠ 0 := by omega
    simp [RefMap.add, hne]

end

end HCore.RefMaps
