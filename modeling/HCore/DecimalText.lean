import Mathlib.Data.List.TakeWhile
import Mathlib.Tactic.Ring

/-!
Decimal numbers in byte strings, as hand-written scanners read them: the
value is kept while the digits are read from left to right, so a bound that
holds for the number holds at each of its digits.
-/

namespace HCore.DecimalText

/-- The characters from `0` to `9`. -/
def IsDigit (c : UInt8) : Prop := 48 ≤ c ∧ c ≤ 57

instance decidableIsDigit (c : UInt8) : Decidable (IsDigit c) := inferInstanceAs (Decidable (_ ∧ _))

def digitValue (c : UInt8) : ℕ := (c - 48).toNat

theorem IsDigit.value_eq {c : UInt8} (h : IsDigit c) : digitValue c = c.toNat - 48 :=
  UInt8.toNat_sub_of_le _ _ h.1

theorem IsDigit.value_le {c : UInt8} (h : IsDigit c) : digitValue c ≤ 9 := by
  have hle : c.toNat ≤ 57 := h.2
  rw [h.value_eq]
  omega

/-- The number that is read when `v` has been read before `ds`. -/
def decimalFrom (v : ℕ) : List UInt8 → ℕ
  | [] => v
  | c :: ds => decimalFrom (v * 10 + digitValue c) ds

def decimal (ds : List UInt8) : ℕ := decimalFrom 0 ds

@[simp] theorem decimalFrom_nil (v : ℕ) : decimalFrom v [] = v := rfl

@[simp] theorem decimalFrom_cons (v : ℕ) (c : UInt8) (ds : List UInt8) :
    decimalFrom v (c :: ds) = decimalFrom (v * 10 + digitValue c) ds := rfl

theorem decimalFrom_append (v : ℕ) (ds ds' : List UInt8) :
    decimalFrom v (ds ++ ds') = decimalFrom (decimalFrom v ds) ds' := by
  induction ds generalizing v with
  | nil => rfl
  | cons c ds ih => exact ih _

theorem le_decimalFrom (v : ℕ) (ds : List UInt8) : v ≤ decimalFrom v ds := by
  induction ds generalizing v with
  | nil => exact le_rfl
  | cons c ds ih => exact le_trans (by omega) (ih (v * 10 + digitValue c))

/-- The digits at the beginning of a text. -/
def digitRun (text : List UInt8) : List UInt8 := text.takeWhile (fun c => decide (IsDigit c))

/-- What follows the digits at the beginning. -/
def afterRun (text : List UInt8) : List UInt8 := text.dropWhile (fun c => decide (IsDigit c))

theorem digitRun_append_afterRun (text : List UInt8) : digitRun text ++ afterRun text = text :=
  List.takeWhile_append_dropWhile

theorem isDigit_of_mem_digitRun {text : List UInt8} {c : UInt8} (h : c ∈ digitRun text) :
    IsDigit c := by
  unfold digitRun at h
  simpa using List.mem_takeWhile_imp h

/-- A run that ends before another character is the run at the beginning. -/
theorem digitRun_eq {ds rest : List UInt8} (hds : ∀ c ∈ ds, IsDigit c)
    (hrest : ∀ c ∈ rest.head?, ¬ IsDigit c) : digitRun (ds ++ rest) = ds := by
  induction ds with
  | nil =>
    cases rest with
    | nil => rfl
    | cons c rest =>
      have hc : ¬ IsDigit c := hrest c rfl
      simp [digitRun, hc]
  | cons c ds ih =>
    have hc : IsDigit c := hds c (List.mem_cons_self ..)
    have htail := ih (fun x hx => hds x (List.mem_cons_of_mem _ hx))
    unfold digitRun at *
    rw [List.cons_append, List.takeWhile_cons_of_pos (by simpa using hc), htail]

theorem afterRun_eq {ds rest : List UInt8} (hds : ∀ c ∈ ds, IsDigit c)
    (hrest : ∀ c ∈ rest.head?, ¬ IsDigit c) : afterRun (ds ++ rest) = rest := by
  have hsplit := digitRun_append_afterRun (ds ++ rest)
  rw [digitRun_eq hds hrest] at hsplit
  exact List.append_cancel_left hsplit

/-- What follows the digits does not begin with one. -/
theorem not_isDigit_of_afterRun {text rest : List UInt8} {c : UInt8}
    (h : afterRun text = c :: rest) : ¬ IsDigit c := by
  have hne : afterRun text ≠ [] := by simp [h]
  have hhead := List.head_dropWhile_not (fun c => decide (IsDigit c)) hne
  change decide (IsDigit ((afterRun text).head hne)) = false at hhead
  simpa [h] using hhead

/-- The digits `ds` are a number, and its value is `v`. -/
def Number (ds : List UInt8) (v : ℕ) : Prop := ds ≠ [] ∧ (∀ c ∈ ds, IsDigit c) ∧ decimal ds = v

end HCore.DecimalText
