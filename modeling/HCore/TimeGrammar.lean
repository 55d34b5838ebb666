import HCore.DecimalText
import Mathlib.Algebra.BigOperators.Group.List.Basic
import Mathlib.Algebra.Order.BigOperators.Group.List

/-!
Time expressions: numbers with units, the blanks behind a unit, and a last
number without one. A blank that does not follow a unit is itself a unit and
counts seconds. The characters `ms` are always one unit, and all blanks behind
a unit belong to it, so a text splits in one way only.
-/

namespace HCore.TimeGrammar

open DecimalText

inductive TimeUnit
  | year
  | month
  | week
  | day
  | hour
  | min
  | sec
  | msec
  | blank
  deriving DecidableEq, Repr

namespace TimeUnit

/-- The order of the units, from the longest to the shortest. -/
def rank : TimeUnit → ℕ
  | year => 1
  | month => 2
  | week => 3
  | day => 4
  | hour => 5
  | min => 6
  | sec | blank => 7
  | msec => 8

/-- The order behind which the next unit has to come; none comes behind a
blank. -/
def behind (u : TimeUnit) : ℕ := if u = blank then 9 else u.rank

def chars : TimeUnit → List UInt8
  | year => [121]
  | month => [77]
  | week => [119]
  | day => [100]
  | hour => [104]
  | min => [109]
  | sec => [115]
  | msec => [109, 115]
  | blank => [32]

/-- What one of the unit counts, in seconds or in milliseconds. -/
def factor (isSec : Bool) (u : TimeUnit) : ℕ :=
  let seconds := match u with
    | year => 60 * 60 * 24 * 365
    | month => 60 * 60 * 24 * 30
    | week => 60 * 60 * 24 * 7
    | day => 60 * 60 * 24
    | hour => 60 * 60
    | min => 60
    | sec | msec | blank => 1
  if isSec ∨ u = msec then seconds else seconds * 1000

theorem rank_le (u : TimeUnit) : u.rank ≤ 8 := by
  cases u <;> decide

theorem rank_le_behind (u : TimeUnit) : u.rank ≤ u.behind := by
  cases u <;> decide

theorem behind_lt (u v : TimeUnit) : u.behind < v.rank ↔ u ≠ blank ∧ u.rank < v.rank := by
  have hle := v.rank_le
  unfold behind
  by_cases hu : u = blank
  · rw [if_pos hu]
    exact iff_of_false (by omega) (fun h => h.1 hu)
  · rw [if_neg hu, and_iff_right hu]

theorem factor_pos (isSec : Bool) (u : TimeUnit) : 1 ≤ u.factor isSec := by
  cases isSec <;> cases u <;> decide

end TimeUnit

structure Component where
  digits : List UInt8
  unit : TimeUnit
  blanks : ℕ
  deriving DecidableEq, Repr

def Component.text (c : Component) : List UInt8 :=
  c.digits ++ (c.unit.chars ++ List.replicate c.blanks 32)

/-- The text consists of the components and the digits `last`. What follows a
component takes no blank from it, and does not make its `m` an `ms`. -/
def Splits : List Component → List UInt8 → List UInt8 → Prop
  | [], last, text => text = last ∧ ∀ x ∈ last, IsDigit x
  | c :: cs, last, text => ∃ t, text = c.text ++ t ∧ (∀ x ∈ c.digits, IsDigit x) ∧
      t.head? ≠ some 32 ∧ (c.unit = .min → c.blanks = 0 → t.head? ≠ some 115) ∧
      Splits cs last t

/-- The largest value of a 32-bit integer. -/
def largest : ℕ := 2 ^ 31 - 1

def Component.value (isSec : Bool) (c : Component) : ℕ := decimal c.digits * c.unit.factor isSec

/-- The last number counts seconds. -/
def lastValue (isSec : Bool) (last : List UInt8) : ℕ := decimal last * TimeUnit.sec.factor isSec

def sum (isSec : Bool) (comps : List Component) : ℕ := (comps.map (Component.value isSec)).sum

/-- Years and months only in seconds, milliseconds only in milliseconds; the
units grow shorter, and none comes after a blank that is one. -/
structure Legal (isSec : Bool) (comps : List Component) : Prop where
  long : ∀ c ∈ comps, c.unit = .year ∨ c.unit = .month → isSec = true
  short : ∀ c ∈ comps, c.unit = .msec → isSec = false
  order : comps.Pairwise (fun c c' => c.unit ≠ .blank ∧ c.unit.rank < c'.unit.rank)

/-- Every number, every product and every partial sum is a 32-bit integer. -/
structure Fits (isSec : Bool) (comps : List Component) (last : List UInt8) : Prop where
  number : ∀ c ∈ comps, decimal c.digits ≤ largest
  product : ∀ c ∈ comps, c.value isSec ≤ largest
  lastNumber : decimal last ≤ largest
  lastProduct : lastValue isSec last ≤ largest
  partialSum : ∀ n, sum isSec (comps.take n) ≤ largest
  total : sum isSec comps + lastValue isSec last ≤ largest

def HasDigit (comps : List Component) (last : List UInt8) : Prop :=
  (∃ c ∈ comps, c.digits ≠ []) ∨ last ≠ []

/-- The value of a text. -/
def Denotes (isSec : Bool) (text : List UInt8) (v : ℕ) : Prop :=
  ∃ comps last, Splits comps last text ∧ Legal isSec comps ∧ HasDigit comps last ∧
    Fits isSec comps last ∧ v = sum isSec comps + lastValue isSec last

section

variable {isSec : Bool} {comps : List Component} {last text rest ds : List UInt8} {c : UInt8}

theorem sum_cons (isSec : Bool) (c : Component) (comps : List Component) :
    sum isSec (c :: comps) = c.value isSec + sum isSec comps := by
  rw [sum, List.map_cons, List.sum_cons, sum]

theorem le_value (isSec : Bool) (c : Component) : decimal c.digits ≤ c.value isSec :=
  Nat.le_mul_of_pos_right _ (c.unit.factor_pos isSec)

theorem le_lastValue (isSec : Bool) (last : List UInt8) : decimal last ≤ lastValue isSec last :=
  Nat.le_mul_of_pos_right _ (TimeUnit.factor_pos isSec .sec)

theorem value_le_sum {x : Component} (h : x ∈ comps) : x.value isSec ≤ sum isSec comps :=
  List.single_le_sum (fun _ _ => Nat.zero_le _) _ (List.mem_map_of_mem h)

theorem sum_take_le (isSec : Bool) (comps : List Component) (n : ℕ) :
    sum isSec (comps.take n) ≤ sum isSec comps := by
  have hsplit := List.take_append_drop n comps
  calc
    sum isSec (comps.take n) ≤ sum isSec (comps.take n) + sum isSec (comps.drop n) :=
      Nat.le_add_right _ _
    _ = sum isSec comps := by
      rw [sum, sum, ← List.sum_append, ← List.map_append, hsplit, sum]

/-- The bound on the total is the bound on all of them. -/
theorem fits_iff : Fits isSec comps last ↔ sum isSec comps + lastValue isSec last ≤ largest := by
  refine ⟨Fits.total, fun h => ?_⟩
  have hvalue (x : Component) (hx : x ∈ comps) : x.value isSec ≤ largest :=
    le_trans (value_le_sum hx) (by omega)
  exact {
    number := fun x hx => le_trans (le_value isSec x) (hvalue x hx)
    product := hvalue
    lastNumber := le_trans (le_lastValue isSec last) (by omega)
    lastProduct := by omega
    partialSum := fun n => le_trans (sum_take_le isSec comps n) (by omega)
    total := h }

/-- The unit that begins with `c`, and what follows it. -/
def unitToken (c : UInt8) (rest : List UInt8) : Option (TimeUnit × List UInt8) :=
  if c = 121 then some (.year, rest)
  else if c = 77 then some (.month, rest)
  else if c = 119 then some (.week, rest)
  else if c = 100 then some (.day, rest)
  else if c = 104 then some (.hour, rest)
  else if c = 109 then
    if rest.head? = some 115 then some (.msec, rest.tail) else some (.min, rest)
  else if c = 115 then some (.sec, rest)
  else if c = 32 then some (.blank, rest)
  else none

theorem unitToken_eq_some (c : UInt8) (rest : List UInt8) (u : TimeUnit) (t : List UInt8) :
    unitToken c rest = some (u, t) ↔
      c :: rest = u.chars ++ t ∧ (u = .min → t.head? ≠ some 115) := by
  constructor
  · intro h
    unfold unitToken at h
    repeat' split at h
    all_goals simp only [Option.some.injEq, Prod.mk.injEq, reduceCtorEq] at h
    case isTrue.isTrue hm hs =>
      obtain ⟨rfl, rfl⟩ := h
      obtain ⟨r, rfl⟩ : ∃ r, rest = 115 :: r := List.head?_eq_some_iff.mp hs
      simp [hm, TimeUnit.chars]
    all_goals
      obtain ⟨rfl, rfl⟩ := h
      simp_all [TimeUnit.chars]
  · rintro ⟨h, hm⟩
    cases u
    all_goals simp only [TimeUnit.chars, List.cons_append, List.nil_append, List.cons.injEq] at h
    all_goals obtain ⟨rfl, rfl⟩ := h
    all_goals simp_all [unitToken]

/-- The blanks at the beginning of a text. -/
def blankCount (t : List UInt8) : ℕ := (t.takeWhile (fun x => decide (x = 32))).length

def skipBlanks (t : List UInt8) : List UInt8 := t.dropWhile (fun x => decide (x = 32))

theorem blanks_split (t : List UInt8) :
    t = List.replicate (blankCount t) 32 ++ skipBlanks t ∧ (skipBlanks t).head? ≠ some 32 := by
  induction t with
  | nil => exact ⟨rfl, by simp [skipBlanks]⟩
  | cons x t ih =>
    unfold blankCount skipBlanks at *
    by_cases hx : x = 32
    · rw [List.takeWhile_cons_of_pos (by simpa using hx),
        List.dropWhile_cons_of_pos (by simpa using hx), List.length_cons, List.replicate_succ,
        List.cons_append, ← ih.1]
      exact ⟨by rw [hx], ih.2⟩
    · rw [List.takeWhile_cons_of_neg (by simpa using hx),
        List.dropWhile_cons_of_neg (by simpa using hx)]
      exact ⟨rfl, by simpa using hx⟩

theorem blanks_eq {t : List UInt8} (n : ℕ) (h : t.head? ≠ some 32) :
    blankCount (List.replicate n 32 ++ t) = n ∧ skipBlanks (List.replicate n 32 ++ t) = t := by
  induction n with
  | zero =>
    cases t with
    | nil => exact ⟨rfl, rfl⟩
    | cons x t =>
      have hx : x ≠ 32 := by simpa using h
      simp [blankCount, skipBlanks, hx]
  | succ n ih =>
    unfold blankCount skipBlanks at *
    rw [List.replicate_succ, List.cons_append, List.takeWhile_cons_of_pos rfl,
      List.dropWhile_cons_of_pos rfl, List.length_cons, ih.1]
    exact ⟨rfl, ih.2⟩

theorem chars_head (u : TimeUnit) (t : List UInt8) : ∀ x ∈ (u.chars ++ t).head?, ¬ IsDigit x := by
  cases u <;> simp [TimeUnit.chars] <;> decide

/-- The digits at the beginning are those of the first component, or the last
number. -/
theorem Splits.digitRun_eq (h : Splits comps last text) :
    (comps = [] ∧ text = last ∧ digitRun text = last) ∨
      ∃ x cs, comps = x :: cs ∧ digitRun text = x.digits := by
  cases comps with
  | nil =>
    obtain ⟨rfl, hlast⟩ := h
    have hrun : digitRun (text ++ []) = text := DecimalText.digitRun_eq hlast (by simp)
    rw [List.append_nil] at hrun
    exact Or.inl ⟨rfl, rfl, hrun⟩
  | cons x cs =>
    obtain ⟨t, rfl, hdigits, -⟩ := h
    refine Or.inr ⟨x, cs, rfl, ?_⟩
    rw [Component.text, List.append_assoc, List.append_assoc]
    exact DecimalText.digitRun_eq hdigits (chars_head x.unit _)

theorem hasDigit_cons {x : Component} :
    HasDigit (x :: comps) last ↔ x.digits ≠ [] ∨ HasDigit comps last := by
  simp [HasDigit, or_assoc]

theorem Splits.hasDigit (h : Splits comps last (ds ++ text)) (hds : ∀ x ∈ ds, IsDigit x)
    (hne : ds ≠ []) : HasDigit comps last := by
  have hrun : digitRun (ds ++ text) = ds ++ digitRun text :=
    List.takeWhile_append_of_pos (fun x hx => by simpa using hds x hx)
  have hrunne : digitRun (ds ++ text) ≠ [] := by simp [hrun, hne]
  rcases h.digitRun_eq with ⟨-, -, hlast⟩ | ⟨x, cs, rfl, hfirst⟩
  · exact Or.inr (hlast ▸ hrunne)
  · exact Or.inl ⟨x, List.mem_cons_self .., hfirst ▸ hrunne⟩

/-- The value is at least the number that a text begins with. -/
theorem Splits.decimal_le (h : Splits comps last (ds ++ text)) (hds : ∀ x ∈ ds, IsDigit x) :
    decimal ds ≤ sum isSec comps + lastValue isSec last := by
  have hrun : digitRun (ds ++ text) = ds ++ digitRun text :=
    List.takeWhile_append_of_pos (fun x hx => by simpa using hds x hx)
  have hle : decimal ds ≤ decimal (digitRun (ds ++ text)) := by
    rw [hrun, decimal, decimal, decimalFrom_append]
    exact le_decimalFrom _ _
  rcases h.digitRun_eq with ⟨-, -, hlast⟩ | ⟨x, cs, rfl, hfirst⟩
  · have hvalue := le_lastValue isSec last
    rw [hlast] at hle
    omega
  · have hvalue := le_value isSec x
    rw [hfirst] at hle
    rw [sum_cons]
    omega

/-- A text of digits is a last number. -/
theorem splits_digits (hds : ∀ x ∈ ds, IsDigit x) :
    Splits comps last ds ↔ comps = [] ∧ last = ds := by
  constructor
  · intro h
    cases comps with
    | nil => exact ⟨rfl, h.1.symm⟩
    | cons x cs =>
      obtain ⟨t, rfl, -⟩ := h
      obtain ⟨y, hy⟩ : ∃ y, y ∈ x.unit.chars.head? := by
        cases x.unit <;> exact ⟨_, rfl⟩
      have hmem : y ∈ x.unit.chars := List.mem_of_mem_head? hy
      have hdigit := hds y (by simp [Component.text, hmem])
      have hchars := chars_head x.unit [] y (by rwa [List.append_nil])
      exact absurd hdigit hchars
  · rintro ⟨rfl, rfl⟩
    exact ⟨rfl, hds⟩

/-- Digits and a character that is none are the beginning of a component. -/
theorem splits_unit (hds : ∀ x ∈ ds, IsDigit x) (hc : ¬ IsDigit c) :
    Splits comps last (ds ++ c :: rest) ↔ ∃ u t cs, unitToken c rest = some (u, t) ∧
      comps = ⟨ds, u, blankCount t⟩ :: cs ∧ Splits cs last (skipBlanks t) := by
  have hrun : digitRun (ds ++ c :: rest) = ds := DecimalText.digitRun_eq hds (by simpa using hc)
  constructor
  · intro h
    cases comps with
    | nil =>
      obtain ⟨rfl, hlast⟩ := h
      exact absurd (hlast c (by simp)) hc
    | cons x cs =>
      have hfirst : x.digits = ds := by
        rcases h.digitRun_eq with ⟨hnil, -⟩ | ⟨y, ys, hcons, hfirst⟩
        · cases hnil
        · obtain ⟨rfl, -⟩ := List.cons.inj hcons
          rw [← hfirst, hrun]
      obtain ⟨t, htext, -, hblank, hmin, hrest⟩ := h
      rw [Component.text, hfirst, List.append_assoc, List.append_assoc] at htext
      have htail := List.append_cancel_left htext
      obtain ⟨hcount, hskip⟩ := blanks_eq x.blanks hblank
      refine ⟨x.unit, List.replicate x.blanks 32 ++ t, cs, (unitToken_eq_some ..).mpr
        ⟨htail, fun hm => ?_⟩, ?_, ?_⟩
      · cases hb : x.blanks with
        | zero => exact hmin hm hb
        | succ n => simp [List.replicate_succ]
      · rw [hcount, ← hfirst]
      · rw [hskip]
        exact hrest
  · rintro ⟨u, t, cs, htoken, rfl, hrest⟩
    obtain ⟨htail, hmin⟩ := (unitToken_eq_some ..).mp htoken
    obtain ⟨hsplit, hblank⟩ := blanks_split t
    refine ⟨skipBlanks t, ?_, hds, hblank, fun hm hzero => ?_, hrest⟩
    · rw [Component.text, List.append_assoc, List.append_assoc, ← hsplit, htail]
    · have hzero : blankCount t = 0 := hzero
      rw [hzero, List.replicate_zero, List.nil_append] at hsplit
      rw [← hsplit]
      exact hmin hm

/-- The units as they come, when the order has reached `pos`. -/
def Follows (isSec : Bool) : ℕ → List Component → Prop
  | _, [] => True
  | pos, x :: cs => pos < x.unit.rank ∧ (x.unit = .msec → isSec = false) ∧
      Follows isSec x.unit.behind cs

theorem follows_iff (pos : ℕ) : Follows isSec pos comps ↔
    (∀ x ∈ comps, pos < x.unit.rank) ∧ (∀ x ∈ comps, x.unit = .msec → isSec = false) ∧
      comps.Pairwise (fun x y => x.unit ≠ .blank ∧ x.unit.rank < y.unit.rank) := by
  induction comps generalizing pos with
  | nil => simp [Follows]
  | cons x cs ih =>
    rw [Follows, ih, List.forall_mem_cons, List.forall_mem_cons, List.pairwise_cons]
    simp only [TimeUnit.behind_lt]
    constructor
    · rintro ⟨hpos, hshort, hnext, hshorts, horder⟩
      exact ⟨⟨hpos, fun y hy => lt_trans hpos (hnext y hy).2⟩, ⟨hshort, hshorts⟩, hnext, horder⟩
    · rintro ⟨⟨hpos, -⟩, ⟨hshort, hshorts⟩, hnext, horder⟩
      exact ⟨hpos, hshort, hnext, hshorts, horder⟩

/-- Where the order starts decides about years and months. -/
theorem legal_iff : Legal isSec comps ↔ Follows isSec (if isSec = true then 0 else 2) comps := by
  have hlong (x : Component) : (if isSec = true then 0 else 2) < x.unit.rank ↔
      (x.unit = .year ∨ x.unit = .month → isSec = true) := by
    cases isSec <;> cases x.unit <;> simp [TimeUnit.rank]
  rw [follows_iff]
  simp only [hlong]
  exact ⟨fun h => ⟨h.long, h.short, h.order⟩, fun h => ⟨h.1, h.2.1, h.2.2⟩⟩

end

end HCore.TimeGrammar
