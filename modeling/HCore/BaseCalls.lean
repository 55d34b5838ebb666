import HCore.Base
import Mathlib.Algebra.Order.Ring.Int

/-!
The page-size getters over whole call histories. The sizes come out the same
whenever they are asked for, but both shifts are wrong from the first time on:
that of the page size stays one too small, and that of the exact class is
counted further with every `hcore_init_slab`, which starts from the old value.
-/

namespace HCore.BaseCalls

open Machine Base

inductive Call
  | processInvokeOnce
  | getpagesize
  | getpagesizeShift
  | getSlabMaxSize
  | getSlabExactSize
  | getSlabExactShift
  deriving DecidableEq, Repr

/-- What a call returns, and the globals that it leaves. -/
def Call.perform (system : ℤ) (g : Globals) : Call → Option ℤ × Globals
  | .processInvokeOnce => (none, Base.processInvokeOnce system g)
  | .getpagesize => (some (Base.getpagesize system g).1, (Base.getpagesize system g).2)
  | .getpagesizeShift =>
    (some (Base.getpagesizeShift system g).1, (Base.getpagesizeShift system g).2)
  | .getSlabMaxSize => (some (Base.getSlabMaxSize system g).1, (Base.getSlabMaxSize system g).2)
  | .getSlabExactSize =>
    (some (Base.getSlabExactSize system g).1, (Base.getSlabExactSize system g).2)
  | .getSlabExactShift =>
    (some (Base.getSlabExactShift system g).1, (Base.getSlabExactShift system g).2)

/-- A call whose counting loop does not run past the largest `int`. -/
def Call.run (system : ℤ) (g : Globals) (c : Call) : Exec (Option ℤ × Globals) :=
  if (c.perform system g).2.slabExactShift ≤ 2147483647 then pure (c.perform system g)
  else undefined

/-- The values that a sequence of calls returns, each with its call. -/
def returns (system : ℤ) : List Call → Globals → Exec (List (Call × ℤ))
  | [], _ => pure []
  | c :: calls, g => do
    let r ← c.run system g
    let rest ← returns system calls r.2
    pure ((r.1.map (c, ·)).toList ++ rest)

/-- The value is the one that the page size `2 ^ k` asks for. -/
def Right (k : ℕ) : Call → ℤ → Prop
  | .getpagesize, v => v = 2 ^ k
  | .getpagesizeShift, v => ∃ n : ℕ, v = n ∧ 2 ^ n = 2 ^ k
  | .getSlabExactSize, v => v = 2 ^ k / 64
  | .getSlabExactShift, v => ∃ n : ℕ, v = n ∧ 2 ^ n = 2 ^ k / 64
  | _, _ => True

/-- A sequence of calls returns right values only, and each getter always the
same one. -/
def Consistent (k : ℕ) (calls : List Call) : Prop :=
  ∃ rs, returns (2 ^ k : ℕ) calls Globals.initial = Except.ok rs ∧
    (∀ r ∈ rs, Right k r.1 r.2) ∧ ∀ r ∈ rs, ∀ r' ∈ rs, r.1 = r'.1 → r.2 = r'.2

/-- How often `hcore_init_slab` has run, after a call. -/
def initsAfter (j : ℕ) : Call → ℕ
  | .processInvokeOnce => j + 1
  | .getpagesize => j
  | .getpagesizeShift => j
  | .getSlabMaxSize => max j 1
  | .getSlabExactSize => max j 1
  | .getSlabExactShift => max j 1

/-- How often a sequence of calls runs `hcore_init_slab`. -/
def slabInits (calls : List Call) : ℕ := calls.foldl initsAfter 0

/-- The globals after `hcore_init_slab` has run `j` times. -/
structure Reached (k j : ℕ) (g : Globals) : Prop where
  pagesize : g.pagesize = -1 ∨ g.pagesize = 2 ^ k
  pagesizeShift : g.pagesizeShift = -1 ∨ g.pagesizeShift = k - 1
  slabMaxSize : g.slabMaxSize = if j = 0 then -1 else 2 ^ (k - 1)
  slabExactSize : g.slabExactSize = if j = 0 then -1 else 2 ^ (k - 6)
  slabExactShift : g.slabExactShift = j * (k - 6) - 1

/-- The globals after a sequence of calls. -/
def globalsAfter (k : ℕ) (calls : List Call) : Globals :=
  calls.foldl (fun g c => (c.perform (2 ^ k : ℕ) g).2) Globals.initial

/-- What the slab functions read after a sequence of calls. -/
def geometryAfter (k : ℕ) (calls : List Call) : Geometry :=
  readGeometry (2 ^ k : ℕ) (globalsAfter k calls)

/-- What a call returns after `hcore_init_slab` has run `j` times. -/
def valueOf (k j : ℕ) : Call → Option ℤ
  | .processInvokeOnce => none
  | .getpagesize => some (2 ^ k)
  | .getpagesizeShift => some (k - 1)
  | .getSlabMaxSize => some (2 ^ (k - 1))
  | .getSlabExactSize => some (2 ^ (k - 6))
  | .getSlabExactShift => some ((max j 1 : ℕ) * (k - 6) - 1)

section

variable {k j : ℕ} {g : Globals}

theorem Reached.initial (k : ℕ) : Reached k 0 Globals.initial :=
  ⟨Or.inl rfl, Or.inl rfl, rfl, rfl, by simp [Globals.initial]⟩

theorem two_pow_ne (k : ℕ) : (2 ^ k : ℤ) ≠ -1 := by
  have hpos : (0 : ℤ) < 2 ^ k := pow_pos (by norm_num) k
  omega

/-- The page size is filled in, and nothing else changes. -/
theorem Reached.getpagesize (h : Reached k j g) :
    Base.getpagesize (2 ^ k : ℕ) g = (2 ^ k, { g with pagesize := 2 ^ k }) := by
  obtain ⟨a, b, c, d, e⟩ := g
  unfold Base.getpagesize
  rcases h.pagesize with hsize | hsize
  · dsimp only at hsize
    subst hsize
    simp
  · dsimp only at hsize
    subst hsize
    simp [two_pow_ne k]

/-- The shift is counted once, from -1 on. -/
theorem Reached.getpagesizeShift (h : Reached k j g) (hk : 12 ≤ k) (hk' : k ≤ 30) :
    Base.getpagesizeShift (2 ^ k : ℕ) g =
      ((k : ℤ) - 1, { g with pagesize := 2 ^ k, pagesizeShift := k - 1 }) := by
  obtain ⟨a, b, c, d, e⟩ := g
  have hcount : countShifts (2 ^ k) (-1) = k - 1 := by
    have hcount := PageSize.countShifts_two_pow k (by omega) (-1)
    push_cast at hcount
    omega
  unfold Base.getpagesizeShift
  rw [h.getpagesize]
  rcases h.pagesizeShift with hshift | hshift
  · dsimp only at hshift
    subst hshift
    simp [hcount]
  · dsimp only at hshift
    subst hshift
    have hne : (k : ℤ) - 1 ≠ -1 := by omega
    simp only [if_neg hne]

/-- The sizes are set again, and the shift of the exact class grows. -/
theorem Reached.initSlab (h : Reached k j g) (hk : 12 ≤ k) (hk' : k ≤ 30) :
    Base.initSlab (2 ^ k : ℕ) g =
      ⟨2 ^ k, g.pagesizeShift, 2 ^ (k - 1), 2 ^ (k - 6), (j + 1 : ℕ) * (k - 6) - 1⟩ := by
  have hmax : (2 ^ k : ℤ) / 2 = 2 ^ (k - 1) := by
    rw [show k = k - 1 + 1 by omega, pow_succ, Nat.add_sub_cancel]
    exact Int.mul_ediv_cancel _ (by norm_num)
  have hexact : (2 ^ k : ℤ) / (8 * 8) = 2 ^ (k - 6) := by
    rw [show k = k - 6 + 6 by omega, pow_add, Nat.add_sub_cancel]
    exact Int.mul_ediv_cancel _ (by norm_num)
  have hcount : countShifts (2 ^ (k - 6)) (j * (k - 6) - 1) = (j + 1 : ℕ) * (k - 6) - 1 := by
    have hcount := PageSize.countShifts_two_pow (k - 6) (by omega) (j * (k - 6) - 1)
    push_cast [show 6 ≤ k by omega] at hcount ⊢
    rw [hcount]
    ring
  unfold Base.initSlab
  rw [h.getpagesize]
  simp only [hmax, hexact, h.slabExactShift, hcount]

theorem Reached.of_initSlab (h : Reached k j g) (hk : 12 ≤ k) (hk' : k ≤ 30) :
    Reached k (j + 1) (Base.initSlab (2 ^ k : ℕ) g) := by
  rw [h.initSlab hk hk']
  exact ⟨Or.inr rfl, h.pagesizeShift, rfl, rfl, rfl⟩

/-- A getter of the slab sizes runs `hcore_init_slab` at most once. -/
theorem Reached.filled (h : Reached k j g) (hk : 12 ≤ k) (hk' : k ≤ 30) (v : ℤ)
    (hv : v = -1 ↔ j = 0) :
    Reached k (max j 1) (if v = -1 then Base.initSlab (2 ^ k : ℕ) g else g) := by
  by_cases hj : j = 0
  · rw [if_pos (hv.mpr hj), hj]
    rw [hj] at h
    exact h.of_initSlab hk hk'
  · rw [if_neg (fun hv' => hj (hv.mp hv')), Nat.max_eq_left (by omega)]
    exact h

/-- What a call returns, and how it changes the globals. -/
theorem Reached.perform (h : Reached k j g) (hk : 12 ≤ k) (hk' : k ≤ 30) (c : Call) :
    (c.perform (2 ^ k : ℕ) g).1 = valueOf k j c ∧
      Reached k (initsAfter j c) (c.perform (2 ^ k : ℕ) g).2 := by
  have hsizes {i : ℕ} {g' : Globals} (h' : Reached k i g') (hi : i ≠ 0) :
      g'.slabMaxSize = 2 ^ (k - 1) ∧ g'.slabExactSize = 2 ^ (k - 6) := by
    rw [h'.slabMaxSize, h'.slabExactSize, if_neg hi, if_neg hi]
    exact ⟨rfl, rfl⟩
  have hmax : max j 1 ≠ 0 := by omega
  cases c with
  | processInvokeOnce =>
    have hshift := h.getpagesizeShift hk hk'
    have h1 : Reached k j { g with pagesize := 2 ^ k } :=
      ⟨Or.inr rfl, h.pagesizeShift, h.slabMaxSize, h.slabExactSize, h.slabExactShift⟩
    have h2 : Reached k j { g with pagesize := 2 ^ k, pagesizeShift := (k : ℤ) - 1 } :=
      ⟨Or.inr rfl, Or.inr rfl, h.slabMaxSize, h.slabExactSize, h.slabExactShift⟩
    refine ⟨rfl, ?_⟩
    have hrun : (Call.perform (2 ^ k : ℕ) g .processInvokeOnce).2 =
        Base.initSlab (2 ^ k : ℕ) { g with pagesize := 2 ^ k, pagesizeShift := (k : ℤ) - 1 } := by
      simp only [Call.perform, Base.processInvokeOnce]
      rw [h.getpagesize, h1.getpagesizeShift hk hk']
    rw [hrun]
    exact h2.of_initSlab hk hk'
  | getpagesize =>
    simp only [Call.perform, h.getpagesize]
    exact ⟨rfl, Or.inr rfl, h.pagesizeShift, h.slabMaxSize, h.slabExactSize, h.slabExactShift⟩
  | getpagesizeShift =>
    simp only [Call.perform, h.getpagesizeShift hk hk']
    exact ⟨rfl, Or.inr rfl, Or.inr rfl, h.slabMaxSize, h.slabExactSize, h.slabExactShift⟩
  | getSlabMaxSize =>
    have h' := h.filled hk hk' g.slabMaxSize (by
      rw [h.slabMaxSize]
      split <;> simp_all [two_pow_ne])
    exact ⟨congrArg some (hsizes h' hmax).1, h'⟩
  | getSlabExactSize =>
    have h' := h.filled hk hk' g.slabExactSize (by
      rw [h.slabExactSize]
      split <;> simp_all [two_pow_ne])
    exact ⟨congrArg some (hsizes h' hmax).2, h'⟩
  | getSlabExactShift =>
    have h' := h.filled hk hk' g.slabExactShift (by
      rw [h.slabExactShift]
      constructor
      · intro heq
        have hzero : (j : ℤ) * (k - 6) = 0 := by omega
        rcases mul_eq_zero.mp hzero with hj | hk''
        · exact_mod_cast hj
        · omega
      · intro hj
        rw [hj]
        simp)
    exact ⟨congrArg some h'.slabExactShift, h'⟩

theorem Reached.foldl (h : Reached k j g) (hk : 12 ≤ k) (hk' : k ≤ 30) (calls : List Call) :
    Reached k (calls.foldl initsAfter j)
      (calls.foldl (fun g c => (c.perform (2 ^ k : ℕ) g).2) g) := by
  induction calls generalizing j g with
  | nil => exact h
  | cons c calls ih => exact ih (h.perform hk hk' c).2

theorem Reached.readGeometry (h : Reached k j g) (hk : 12 ≤ k) (hk' : k ≤ 30) :
    (Base.readGeometry (2 ^ k : ℕ) g).pagesize = 2 ^ k ∧
      (Base.readGeometry (2 ^ k : ℕ) g).pagesizeShift = k - 1 := by
  have h1 : Reached k j { g with pagesize := 2 ^ k } :=
    ⟨Or.inr rfl, h.pagesizeShift, h.slabMaxSize, h.slabExactSize, h.slabExactShift⟩
  have hpow : ((2 : ℤ) ^ k).toNat = 2 ^ k := by
    rw [show (2 : ℤ) ^ k = ((2 ^ k : ℕ) : ℤ) by push_cast; rfl, Int.toNat_natCast]
  simp only [Base.readGeometry, h.getpagesize, h1.getpagesizeShift hk hk', hpow]
  exact ⟨trivial, by omega⟩

/-- In every process the slab functions see the page size, and a shift that is
one too small. -/
theorem geometryAfter_pagesize (hk : 12 ≤ k) (hk' : k ≤ 30) (calls : List Call) :
    (geometryAfter k calls).pagesize = 2 ^ k ∧
      (geometryAfter k calls).pagesizeShift = k - 1 :=
  ((Reached.initial k).foldl hk hk' calls).readGeometry hk hk'

theorem le_initsAfter (j : ℕ) (c : Call) : j ≤ initsAfter j c := by
  cases c <;> simp [initsAfter]

theorem le_foldl_initsAfter (calls : List Call) (j : ℕ) : j ≤ calls.foldl initsAfter j := by
  induction calls generalizing j with
  | nil => exact Nat.le_refl j
  | cons c calls ih => exact (le_initsAfter j c).trans (ih _)

/-- The values that calls return after `hcore_init_slab` has run `j` times. -/
def valuesFrom (k : ℕ) : ℕ → List Call → List (Call × ℤ)
  | _, [] => []
  | j, c :: calls =>
    ((valueOf k j c).map (c, ·)).toList ++ valuesFrom k (initsAfter j c) calls

/-- A sequence of calls returns while the last count is an `int`. -/
theorem Reached.returns_eq (h : Reached k j g) (hk : 12 ≤ k) (hk' : k ≤ 30) (calls : List Call)
    (hcount : calls.foldl initsAfter j * (k - 6) ≤ 2 ^ 31) :
    returns (2 ^ k : ℕ) calls g = Except.ok (valuesFrom k j calls) := by
  induction calls generalizing j g with
  | nil => rfl
  | cons c calls ih =>
    obtain ⟨hvalue, hnext⟩ := h.perform hk hk' c
    have hle : initsAfter j c * (k - 6) ≤ 2 ^ 31 :=
      (Nat.mul_le_mul_right _ (le_foldl_initsAfter calls _)).trans hcount
    have hrange : (c.perform (2 ^ k : ℕ) g).2.slabExactShift ≤ 2147483647 := by
      rw [hnext.slabExactShift]
      have hcast : ((initsAfter j c * (k - 6) : ℕ) : ℤ) ≤ 2 ^ 31 := by exact_mod_cast hle
      push_cast [show 6 ≤ k by omega] at hcast
      omega
    rw [returns, Call.run, if_pos hrange, pure_eq_ok, ok_bind, ih hnext hcount, hvalue]
    rfl

/-- It does not return when the count passes the largest `int`. -/
theorem Reached.returns_undefined (h : Reached k j g) (hk : 12 ≤ k) (hk' : k ≤ 30)
    (hj : j * (k - 6) ≤ 2 ^ 31) (calls : List Call)
    (hcount : 2 ^ 31 < calls.foldl initsAfter j * (k - 6)) :
    returns (2 ^ k : ℕ) calls g = undefined := by
  induction calls generalizing j g with
  | nil =>
    rw [List.foldl_nil] at hcount
    omega
  | cons c calls ih =>
    obtain ⟨-, hnext⟩ := h.perform hk hk' c
    have hshift := hnext.slabExactShift
    have hcast : ((initsAfter j c * (k - 6) : ℕ) : ℤ) = initsAfter j c * (k - 6) := by
      push_cast [show 6 ≤ k by omega]
      rfl
    rw [returns, Call.run]
    by_cases hle : initsAfter j c * (k - 6) ≤ 2 ^ 31
    · rw [if_pos (by omega), pure_eq_ok, ok_bind, ih hnext hle hcount]
      rfl
    · rw [if_neg (by omega)]
      rfl

theorem mem_valuesFrom {calls : List Call} {r : Call × ℤ} (h : r ∈ valuesFrom k j calls) :
    r.1 ∈ calls ∧ ∃ i, valueOf k i r.1 = some r.2 := by
  induction calls generalizing j with
  | nil => cases h
  | cons c calls ih =>
    rw [valuesFrom, List.mem_append, Option.mem_toList] at h
    rcases h with h | h
    · obtain ⟨v, hv, rfl⟩ := Option.map_eq_some_iff.mp h
      exact ⟨List.mem_cons_self .., j, hv⟩
    · obtain ⟨hmem, i, hi⟩ := ih h
      exact ⟨List.mem_cons_of_mem _ hmem, i, hi⟩

/-- Every getter of the sequence returns something. -/
theorem exists_mem_valuesFrom {calls : List Call} {c : Call} (hc : c ∈ calls)
    (hsome : ∀ i, (valueOf k i c).isSome = true) :
    ∃ i v, valueOf k i c = some v ∧ (c, v) ∈ valuesFrom k j calls := by
  induction calls generalizing j with
  | nil => cases hc
  | cons c' calls ih =>
    rw [valuesFrom]
    rcases List.mem_cons.mp hc with rfl | hc
    · obtain ⟨v, hv⟩ := Option.isSome_iff_exists.mp (hsome j)
      refine ⟨j, v, hv, List.mem_append_left _ ?_⟩
      rw [hv]
      exact List.mem_singleton_self _
    · obtain ⟨i, v, hv, hmem⟩ := ih hc
      exact ⟨i, v, hv, List.mem_append_right _ hmem⟩

end

/-- The shifts are the only values that are wrong, and always are. -/
theorem right_iff {k : ℕ} (hk : 12 ≤ k) (i : ℕ) (c : Call) (v : ℤ) (hv : valueOf k i c = some v) :
    Right k c v ↔ c ≠ .getpagesizeShift ∧ c ≠ .getSlabExactShift := by
  have hexact : (2 ^ k : ℤ) / 64 = 2 ^ (k - 6) := by
    rw [show k = k - 6 + 6 by omega, pow_add, Nat.add_sub_cancel]
    exact Int.mul_ediv_cancel _ (by norm_num)
  have hexact' : 2 ^ k / 64 = 2 ^ (k - 6) := by
    rw [show k = k - 6 + 6 by omega, pow_add, Nat.add_sub_cancel]
    exact Nat.mul_div_cancel _ (by norm_num)
  cases c with
  | processInvokeOnce => cases hv
  | getpagesize =>
    cases hv
    simp [Right]
  | getpagesizeShift =>
    cases hv
    simp only [Right, ne_eq, not_true_eq_false, false_and, iff_false]
    rintro ⟨n, hn, hpow⟩
    have hn' := Nat.pow_right_injective (Nat.le_refl 2) hpow
    omega
  | getSlabMaxSize => simp [Right]
  | getSlabExactSize =>
    cases hv
    simp [Right, hexact]
  | getSlabExactShift =>
    cases hv
    simp only [Right, ne_eq, not_true_eq_false, and_false, iff_false]
    rintro ⟨n, hn, hpow⟩
    rw [hexact'] at hpow
    have hn' := Nat.pow_right_injective (Nat.le_refl 2) hpow
    subst hn'
    -- the count is a multiple of `k - 6`, less one
    have hdvd : ((k - 6 : ℕ) : ℤ) ∣ 1 := by
      have hcast : ((k - 6 : ℕ) : ℤ) = k - 6 := by omega
      rw [hcast] at hn ⊢
      refine ⟨(max i 1 : ℕ) - 1, ?_⟩
      rw [mul_sub, mul_one, mul_comm]
      omega
    have hle := Int.le_of_dvd (by norm_num) hdvd
    omega

/-- When all values of a sequence of calls are consistent. -/
theorem consistent_iff (k : ℕ) (hk : 12 ≤ k) (hk' : k ≤ 30) (calls : List Call) :
    Consistent k calls ↔ .getpagesizeShift ∉ calls ∧ .getSlabExactShift ∉ calls ∧
      slabInits calls * (k - 6) ≤ 2 ^ 31 := by
  have hinit := Reached.initial k
  constructor
  · rintro ⟨rs, hrun, hright, -⟩
    have hcount : slabInits calls * (k - 6) ≤ 2 ^ 31 := by
      by_contra hlt
      rw [hinit.returns_undefined hk hk' (by omega) calls (Nat.not_le.mp hlt)] at hrun
      cases hrun
    rw [hinit.returns_eq hk hk' calls hcount] at hrun
    cases hrun
    refine ⟨?_, ?_, hcount⟩
    · intro hmem
      obtain ⟨i, v, hv, hmem⟩ := exists_mem_valuesFrom (k := k) (j := 0) hmem (fun _ => rfl)
      exact ((right_iff hk i _ v hv).mp (hright _ hmem)).1 rfl
    · intro hmem
      obtain ⟨i, v, hv, hmem⟩ := exists_mem_valuesFrom (k := k) (j := 0) hmem (fun _ => rfl)
      exact ((right_iff hk i _ v hv).mp (hright _ hmem)).2 rfl
  · rintro ⟨hshift, hexact, hcount⟩
    have hne {r : Call × ℤ} (hr : r.1 ∈ calls) :
        r.1 ≠ .getpagesizeShift ∧ r.1 ≠ .getSlabExactShift :=
      ⟨fun heq => hshift (heq ▸ hr), fun heq => hexact (heq ▸ hr)⟩
    refine ⟨_, hinit.returns_eq hk hk' calls hcount, ?_, ?_⟩
    · intro r hr
      obtain ⟨hmem, i, hi⟩ := mem_valuesFrom hr
      exact (right_iff hk i r.1 r.2 hi).mpr (hne hmem)
    · rintro ⟨c, v⟩ hr ⟨c', v'⟩ hr' heq
      obtain ⟨hmem, i, hi⟩ := mem_valuesFrom hr
      obtain ⟨-, i', hi'⟩ := mem_valuesFrom hr'
      obtain ⟨hshift', hexact'⟩ := hne hmem
      dsimp only at heq hi hi' hshift' hexact' ⊢
      subst heq
      -- but for the shift of the exact class, a value does not depend on the count
      cases c with
      | getSlabExactShift => exact absurd rfl hexact'
      | _ => exact Option.some.inj (hi.symm.trans hi')

/-- Pages of 4096 bytes. -/
theorem consistent_iff_sizes :
    Consistent 12 [.getSlabMaxSize, .processInvokeOnce, .getpagesize, .getSlabExactSize] ∧
      ¬ Consistent 12 [.getpagesizeShift] := by
  refine ⟨?_, ?_⟩
  · rw [consistent_iff 12 (by omega) (by omega)]
    decide
  · rw [consistent_iff 12 (by omega) (by omega)]
    decide

/-- The shift of pages of 4096 bytes is 11. -/
theorem first_shift_wrong : ¬ ∀ k, 12 ≤ k → k ≤ 30 → ∀ calls, Consistent k calls := by
  intro h
  obtain ⟨rs, hrun, hright, -⟩ := h 12 (by omega) (by omega) [.getpagesizeShift]
  have hvalue : returns (2 ^ 12 : ℕ) [.getpagesizeShift] Globals.initial =
      Except.ok [(.getpagesizeShift, 11)] := by decide
  rw [hvalue] at hrun
  cases hrun
  obtain ⟨n, hn, hpow⟩ := hright (.getpagesizeShift, 11) (List.mem_singleton_self _)
  obtain rfl : n = 11 := by omega
  exact absurd hpow (by decide)

end HCore.BaseCalls
