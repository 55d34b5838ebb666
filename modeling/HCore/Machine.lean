import Mathlib.Logic.Function.Basic
import Mathlib.Tactic.Ring

/-!
The abstract C machine under the models of stateful code. An execution ends
with a value, with undefined behaviour, or without steps left: a loop of the
source that is not bounded by its own counter takes a step budget, and it
runs for ever exactly when every budget is too small. Memory is one mapped
range of 64-bit words; an access outside it, such as through NULL, is
undefined. Shifts by the width of their operand or more are undefined.
-/

namespace HCore.Machine

/-- Why an execution has no value. -/
inductive Fault
  | undefined
  | outOfFuel
  deriving DecidableEq, Repr

abbrev Exec := Except Fault

instance decidableEqExcept {ε α : Type*} [DecidableEq ε] [DecidableEq α] : DecidableEq (Except ε α)
  | .ok a, .ok b => decidable_of_iff (a = b) ⟨congrArg _, Except.ok.inj⟩
  | .error a, .error b => decidable_of_iff (a = b) ⟨congrArg _, Except.error.inj⟩
  | .ok _, .error _ => isFalse nofun
  | .error _, .ok _ => isFalse nofun

@[simp] theorem ok_bind {α β : Type} (a : α) (f : α → Exec β) :
    ((Except.ok a : Exec α) >>= f) = f a := rfl

@[simp] theorem error_bind {α β : Type} (e : Fault) (f : α → Exec β) :
    ((Except.error e : Exec α) >>= f) = Except.error e := rfl

@[simp] theorem pure_eq_ok {α : Type} (a : α) : (pure a : Exec α) = Except.ok a := rfl

theorem bind_eq_ok {α β : Type} {x : Exec α} {f : α → Exec β} {b : β} :
    (x >>= f) = Except.ok b ↔ ∃ a, x = Except.ok a ∧ f a = Except.ok b := by
  cases x with
  | error e => simp
  | ok a => simp

theorem bind_of_ok {α β : Type} {x : Exec α} {f : α → Exec β} {a : α} {r : Exec β}
    (h : x = Except.ok a) (h' : f a = r) : (x >>= f) = r := by
  rw [h, ok_bind, h']

/-- A conditional before a common continuation. -/
theorem ite_bind {α β : Type} (c : Prop) [Decidable c] (x y : Exec α) (f : α → Exec β) :
    (if c then x >>= f else y >>= f) = (if c then x else y) >>= f := by
  split <;> rfl

def undefined {α : Type} : Exec α := Except.error Fault.undefined

def outOfFuel {α : Type} : Exec α := Except.error Fault.outOfFuel

/-- `x >> count` on a 64-bit operand. -/
def shiftRight64 (x count : ℕ) : Exec ℕ :=
  if count < 64 then pure (x >>> count) else undefined

/-- `x << count` on a 64-bit unsigned operand. -/
def shiftLeft64 (x count : ℕ) : Exec ℕ :=
  if count < 64 then pure ((x <<< count) % 2 ^ 64) else undefined

/-- Conversion to a 32-bit unsigned integer. -/
def toUInt32 (x : ℤ) : ℕ := (x % 2 ^ 32).toNat

/-- Conversion to a 32-bit signed integer. -/
def toInt32 (x : ℤ) : ℤ := x.bmod (2 ^ 32)

/-- Conversion to a 64-bit unsigned integer. -/
def toUInt64 (x : ℤ) : ℕ := (x % 2 ^ 64).toNat

theorem toUInt32_of_lt {x : ℕ} (h : x < 2 ^ 32) : toUInt32 x = x := by
  unfold toUInt32
  omega

theorem toUInt32_le (x : ℕ) : toUInt32 x ≤ x := by
  unfold toUInt32
  omega

theorem toUInt32_lt (x : ℤ) : toUInt32 x < 2 ^ 32 := by
  unfold toUInt32
  omega

theorem toUInt32_sub {x y : ℕ} (hy : y ≤ x) (hx : x < 2 ^ 32) : toUInt32 ((x : ℤ) - y) = x - y := by
  unfold toUInt32
  omega

theorem toInt32_of_range {x : ℤ} (hlow : -2 ^ 31 ≤ x) (hhigh : x < 2 ^ 31) : toInt32 x = x := by
  unfold toInt32
  exact Int.bmod_eq_of_le_mul_two (by omega) (by omega)

theorem toUInt64_of_lt {x : ℕ} (h : x < 2 ^ 64) : toUInt64 x = x := by
  unfold toUInt64
  omega

/-- One mapping `[lo, hi)` of 64-bit words at their byte addresses. -/
structure Memory where
  lo : ℕ
  hi : ℕ
  word : ℕ → ℕ

namespace Memory

def Valid (m : Memory) (a : ℕ) : Prop := m.lo ≤ a ∧ a + 8 ≤ m.hi ∧ a % 8 = 0

instance (m : Memory) (a : ℕ) : Decidable (m.Valid a) := inferInstanceAs (Decidable (_ ∧ _ ∧ _))

def load (m : Memory) (a : ℕ) : Exec ℕ := if m.Valid a then pure (m.word a) else undefined

def set (m : Memory) (a v : ℕ) : Memory :=
  ⟨m.lo, m.hi, fun b => if b = a then v else m.word b⟩

def store (m : Memory) (a v : ℕ) : Exec Memory := if m.Valid a then pure (m.set a v) else undefined

/-- `memset(a, 0, n)`. -/
def zero (m : Memory) (a n : ℕ) : Exec Memory :=
  if m.lo ≤ a ∧ a + n ≤ m.hi then
    pure ⟨m.lo, m.hi, fun b => if a ≤ b ∧ b < a + n then 0 else m.word b⟩
  else undefined

theorem load_of_valid {m : Memory} {a : ℕ} (h : m.Valid a) : m.load a = Except.ok (m.word a) :=
  if_pos h

theorem load_of_not_valid {m : Memory} {a : ℕ} (h : ¬ m.Valid a) : m.load a = undefined :=
  if_neg h

theorem store_of_valid {m : Memory} {a v : ℕ} (h : m.Valid a) :
    m.store a v = Except.ok (m.set a v) := if_pos h

theorem zero_of_valid {m : Memory} {a n : ℕ} (hlo : m.lo ≤ a) (hhi : a + n ≤ m.hi) :
    m.zero a n =
      Except.ok ⟨m.lo, m.hi, fun b => if a ≤ b ∧ b < a + n then 0 else m.word b⟩ :=
  if_pos ⟨hlo, hhi⟩

@[simp] theorem set_lo (m : Memory) (a v : ℕ) : (m.set a v).lo = m.lo := rfl

@[simp] theorem set_hi (m : Memory) (a v : ℕ) : (m.set a v).hi = m.hi := rfl

@[simp] theorem set_valid (m : Memory) (a v b : ℕ) : (m.set a v).Valid b ↔ m.Valid b := Iff.rfl

@[simp] theorem set_same (m : Memory) (a v : ℕ) : (m.set a v).word a = v := by simp [set]

theorem set_other (m : Memory) {a b : ℕ} (v : ℕ) (h : b ≠ a) : (m.set a v).word b = m.word b := by
  simp [set, h]

end Memory

end HCore.Machine
