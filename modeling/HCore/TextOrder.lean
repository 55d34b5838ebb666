import HCore.DecimalText
import Mathlib.Data.List.Basic

/-!
Texts in the order of a dictionary. Texts that begin with parts of one length
compare as these parts do first, and decimal numbers of one length compare as
the numbers they stand for.
-/

namespace HCore.TextOrder

open DecimalText

section

variable {α : Type*} [LT α] {x y u v : List α}

/-- The first of two texts decides if its beginning, of the same length, does. -/
theorem append_lt_append (hlength : x.length = y.length) (h : x < y) : x ++ u < y ++ v := by
  induction x generalizing y with
  | nil =>
    obtain rfl := List.length_eq_zero_iff.mp hlength.symm
    exact absurd h (List.not_lt_nil [])
  | cons a x ih =>
    cases y with
    | nil => exact absurd hlength (Nat.succ_ne_zero _)
    | cons b y =>
      rw [List.cons_append, List.cons_append, List.cons_lt_cons_iff]
      rcases List.cons_lt_cons_iff.mp h with hlt | ⟨heq, hlt⟩
      · exact Or.inl hlt
      · exact Or.inr ⟨heq, ih (Nat.succ_inj.mp hlength) hlt⟩

/-- A part that is not behind another one, of the same length, leaves the order to the rest. -/
theorem append_lt_append_of_le (hlength : x.length = y.length) (h : x < y ∨ x = y ∧ u < v) :
    x ++ u < y ++ v := by
  rcases h with hlt | ⟨rfl, hlt⟩
  · exact append_lt_append hlength hlt
  · exact List.append_left_lt hlt

end

section

variable {ds ds' : List UInt8}

/-- The digits behind a number add less than one to its last place. -/
theorem decimalFrom_bounds (hds : ∀ c ∈ ds, IsDigit c) (v : ℕ) :
    v * 10 ^ ds.length ≤ decimalFrom v ds ∧ decimalFrom v ds < (v + 1) * 10 ^ ds.length := by
  induction ds generalizing v with
  | nil => simp
  | cons c ds ih =>
    have hc := (hds c List.mem_cons_self).value_le
    obtain ⟨hlow, hhigh⟩ := ih (fun x hx => hds x (List.mem_cons_of_mem _ hx)) (v * 10 + digitValue c)
    rw [decimalFrom_cons, List.length_cons, pow_succ']
    constructor
    · calc
        v * (10 * 10 ^ ds.length) = v * 10 * 10 ^ ds.length := by ring
        _ ≤ (v * 10 + digitValue c) * 10 ^ ds.length := Nat.mul_le_mul_right _ (by omega)
        _ ≤ _ := hlow
    · calc
        _ < (v * 10 + digitValue c + 1) * 10 ^ ds.length := hhigh
        _ ≤ (v * 10 + 10) * 10 ^ ds.length := Nat.mul_le_mul_right _ (by omega)
        _ = (v + 1) * (10 * 10 ^ ds.length) := by ring

theorem IsDigit.lt_of_value {a b : UInt8} (ha : IsDigit a) (hb : IsDigit b)
    (h : digitValue a < digitValue b) : a < b := by
  have hlow : 48 ≤ a.toNat := ha.1
  have hlow' : 48 ≤ b.toNat := hb.1
  rw [ha.value_eq, hb.value_eq] at h
  rw [UInt8.lt_iff_toNat_lt]
  omega

/-- Of two numbers with as many digits the smaller one comes first. -/
theorem lt_of_decimalFrom_lt (hds : ∀ c ∈ ds, IsDigit c) (hds' : ∀ c ∈ ds', IsDigit c)
    (hlength : ds.length = ds'.length) (v : ℕ) (h : decimalFrom v ds < decimalFrom v ds') :
    ds < ds' := by
  induction ds generalizing ds' v with
  | nil =>
    obtain rfl := List.length_eq_zero_iff.mp hlength.symm
    exact absurd h (lt_irrefl v)
  | cons a ds ih =>
    cases ds' with
    | nil => exact absurd hlength (Nat.succ_ne_zero _)
    | cons b ds' =>
      have ha := hds a List.mem_cons_self
      have hb := hds' b List.mem_cons_self
      have hrest := fun c hc => hds c (List.mem_cons_of_mem a hc)
      have hrest' := fun c hc => hds' c (List.mem_cons_of_mem b hc)
      have hlen := Nat.succ_inj.mp hlength
      rw [decimalFrom_cons, decimalFrom_cons] at h
      rw [List.cons_lt_cons_iff]
      rcases Nat.lt_trichotomy (digitValue a) (digitValue b) with hlt | heq | hgt
      · exact Or.inl (IsDigit.lt_of_value ha hb hlt)
      · have hab : a = b := by
          have hlow : 48 ≤ a.toNat := ha.1
          have hlow' : 48 ≤ b.toNat := hb.1
          rw [ha.value_eq, hb.value_eq] at heq
          exact UInt8.toNat_inj.mp (by omega)
        subst hab
        exact Or.inr ⟨rfl, ih hrest hrest' hlen _ h⟩
      · have hlow := (decimalFrom_bounds hrest (v * 10 + digitValue a)).1
        have hhigh := (decimalFrom_bounds hrest' (v * 10 + digitValue b)).2
        have hmono : (v * 10 + digitValue b + 1) * 10 ^ ds'.length ≤
            (v * 10 + digitValue a) * 10 ^ ds'.length := Nat.mul_le_mul_right _ (by omega)
        rw [hlen] at hlow
        omega

end

end HCore.TextOrder
