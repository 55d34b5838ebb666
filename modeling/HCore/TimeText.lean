import HCore.Machine
import HCore.BitMap
import HCore.TimeGrammar

/-!
The time parser. It reads a text once, with one character of lookahead, and
every operation on its 32-bit integers is checked. The state says how much of
a text has been read: the digits of the number that is open, the units so far
by the last of them, and the sum. From such a state the parser returns the
value of the rest or finds that the text has none.
-/

namespace HCore.TimeText

open Machine BitMap DecimalText TimeGrammar

/-- The result of an operation on 32-bit integers, which must be one. -/
def int32 (x : ℤ) : Exec ℤ := if -2 ^ 31 ≤ x ∧ x < 2 ^ 31 then pure x else undefined

theorem int32_ok {x : ℤ} (h : -2 ^ 31 ≤ x ∧ x < 2 ^ 31) : int32 x = Except.ok x := if_pos h

inductive Step
  | start
  | year
  | month
  | week
  | day
  | hour
  | min
  | sec
  | msec
  | last
  deriving DecidableEq, Repr

/-- The order of the enumerators. -/
def Step.index : Step → ℕ
  | start => 0
  | year => 1
  | month => 2
  | week => 3
  | day => 4
  | hour => 5
  | min => 6
  | sec => 7
  | msec => 8
  | last => 9

/-- `HCORE_MAX_INT_T_VALUE`. -/
def maxInt : ℤ := 2 ^ 31 - 1

/-- What the switch sets, and the text behind the unit. -/
structure Found where
  step : Step
  max : ℤ
  scale : ℤ
  rest : List UInt8

/-- The switch; there is no result where it returns `HCORE_ERROR`. -/
def unitOf (isSec : Bool) (step : Step) (c : UInt8) (rest : List UInt8) : Option Found :=
  if c = 121 then
    if Step.start.index < step.index then none
    else some ⟨.year, maxInt / (60 * 60 * 24 * 365), 60 * 60 * 24 * 365, rest⟩
  else if c = 77 then
    if Step.month.index ≤ step.index then none
    else some ⟨.month, maxInt / (60 * 60 * 24 * 30), 60 * 60 * 24 * 30, rest⟩
  else if c = 119 then
    if Step.week.index ≤ step.index then none
    else some ⟨.week, maxInt / (60 * 60 * 24 * 7), 60 * 60 * 24 * 7, rest⟩
  else if c = 100 then
    if Step.day.index ≤ step.index then none
    else some ⟨.day, maxInt / (60 * 60 * 24), 60 * 60 * 24, rest⟩
  else if c = 104 then
    if Step.hour.index ≤ step.index then none
    else some ⟨.hour, maxInt / (60 * 60), 60 * 60, rest⟩
  else if c = 109 then
    if rest.head? = some 115 then
      if isSec = true ∨ Step.msec.index ≤ step.index then none
      else some ⟨.msec, maxInt, 1, rest.tail⟩
    else if Step.min.index ≤ step.index then none
    else some ⟨.min, maxInt / 60, 60, rest⟩
  else if c = 115 then
    if Step.sec.index ≤ step.index then none else some ⟨.sec, maxInt, 1, rest⟩
  else if c = 32 then
    if Step.sec.index ≤ step.index then none else some ⟨.last, maxInt, 1, rest⟩
  else none

/-- The variables of the loop. -/
structure Reader where
  value : ℤ
  total : ℤ
  valid : Bool
  step : Step
  deriving DecidableEq, Repr

/-- `scale` in milliseconds, unless seconds are asked for. -/
def scaleOf (isSec : Bool) (u : Found) : Exec ℤ :=
  if u.step ≠ .msec ∧ isSec = false then int32 (u.scale * 1000) else pure u.scale

def maxOf (isSec : Bool) (u : Found) : ℤ :=
  if u.step ≠ .msec ∧ isSec = false then u.max / 1000 else u.max

/-- What follows the switch, without result where it returns `HCORE_ERROR`. -/
def addComponent (isSec : Bool) (s : Reader) (u : Found) : Exec (Option Reader) := do
  let scale ← scaleOf isSec u
  if maxOf isSec u < s.value then pure none
  else do
    let value ← int32 (s.value * scale)
    let room ← int32 (maxInt - value)
    if room < s.total then pure none
    else do
      let total ← int32 (s.total + value)
      pure (some { s with value := 0, total := total, step := u.step })

def lastValueOf (isSec : Bool) (s : Reader) : Exec ℤ :=
  if isSec = false then int32 (s.value * 1000) else pure s.value

/-- What follows the loop. -/
def finish (isSec : Bool) (s : Reader) : Exec ℤ :=
  if s.valid = false then pure hcoreError
  else if isSec = false ∧ maxInt / 1000 < s.value then pure hcoreError
  else do
    let value ← lastValueOf isSec s
    let room ← int32 (maxInt - value)
    if room < s.total then pure hcoreError else int32 (s.total + value)

/-- The step that a unit leads to. -/
def stepOf : TimeUnit → Step
  | .year => .year
  | .month => .month
  | .week => .week
  | .day => .day
  | .hour => .hour
  | .min => .min
  | .sec => .sec
  | .msec => .msec
  | .blank => .last

theorem stepOf_index (u : TimeUnit) : (stepOf u).index = u.behind := by
  cases u <;> rfl

theorem stepOf_msec (u : TimeUnit) : stepOf u = .msec ↔ u = .msec := by
  cases u <;> simp [stepOf]

def foundOf (u : TimeUnit) (t : List UInt8) : Found :=
  ⟨stepOf u, maxInt / u.factor true, u.factor true, t⟩

theorem allowed_iff (isSec : Bool) (step : Step) {u : TimeUnit} (h : u ≠ .msec) {n : ℕ}
    (hn : n = u.rank) : (step.index < u.rank ∧ (u = .msec → isSec = false)) ↔ ¬ n ≤ step.index := by
  rw [hn, Nat.not_le]
  exact and_iff_left (fun hu => absurd hu h)

/-- The switch finds the unit of the text, if the order allows it. -/
theorem unitOf_eq (isSec : Bool) (step : Step) (c : UInt8) (rest : List UInt8) :
    unitOf isSec step c rest = (unitToken c rest).bind (fun r =>
      if step.index < r.1.rank ∧ (r.1 = .msec → isSec = false) then some (foundOf r.1 r.2)
      else none) := by
  have hite (u : TimeUnit) (hu : u ≠ .msec) (n : ℕ) (hn : n = u.rank) (t : List UInt8) :
      (if n ≤ step.index then none else some (foundOf u t)) =
        if step.index < u.rank ∧ (u = .msec → isSec = false) then some (foundOf u t) else none := by
    rw [if_congr (allowed_iff isSec step hu hn) rfl rfl, ite_not]
  unfold unitOf unitToken
  by_cases hyear : c = 121
  · rw [if_pos hyear, if_pos hyear]
    exact hite .year (by decide) 1 rfl rest
  rw [if_neg hyear, if_neg hyear]
  by_cases hmonth : c = 77
  · rw [if_pos hmonth, if_pos hmonth]
    exact hite .month (by decide) 2 rfl rest
  rw [if_neg hmonth, if_neg hmonth]
  by_cases hweek : c = 119
  · rw [if_pos hweek, if_pos hweek]
    exact hite .week (by decide) 3 rfl rest
  rw [if_neg hweek, if_neg hweek]
  by_cases hday : c = 100
  · rw [if_pos hday, if_pos hday]
    exact hite .day (by decide) 4 rfl rest
  rw [if_neg hday, if_neg hday]
  by_cases hhour : c = 104
  · rw [if_pos hhour, if_pos hhour]
    exact hite .hour (by decide) 5 rfl rest
  rw [if_neg hhour, if_neg hhour]
  by_cases hmin : c = 109
  · rw [if_pos hmin, if_pos hmin]
    by_cases hms : rest.head? = some 115
    · rw [if_pos hms, if_pos hms, Option.bind_some]
      have hiff : (step.index < TimeUnit.msec.rank ∧ (TimeUnit.msec = .msec → isSec = false)) ↔
          ¬ (isSec = true ∨ Step.msec.index ≤ step.index) := by
        rw [not_or, Nat.not_le, Bool.not_eq_true]
        exact ⟨fun h => ⟨h.2 rfl, h.1⟩, fun h => ⟨h.2, fun _ => h.1⟩⟩
      dsimp only
      rw [if_congr hiff rfl rfl, ite_not]
      rfl
    · rw [if_neg hms, if_neg hms]
      exact hite .min (by decide) 6 rfl rest
  rw [if_neg hmin, if_neg hmin]
  by_cases hsec : c = 115
  · rw [if_pos hsec, if_pos hsec]
    exact hite .sec (by decide) 7 rfl rest
  rw [if_neg hsec, if_neg hsec]
  by_cases hblank : c = 32
  · rw [if_pos hblank, if_pos hblank]
    exact hite .blank (by decide) 7 rfl rest
  rw [if_neg hblank, if_neg hblank, Option.bind_none]

theorem unitToken_length {c : UInt8} {rest t : List UInt8} {u : TimeUnit}
    (h : unitToken c rest = some (u, t)) : t.length ≤ rest.length := by
  have hchars := congrArg List.length ((unitToken_eq_some ..).mp h).1
  have hone : 1 ≤ u.chars.length := by cases u <;> decide
  rw [List.length_cons, List.length_append] at hchars
  omega

theorem exists_unit_iff {c : UInt8} {rest t : List UInt8} {u : TimeUnit}
    {P : TimeUnit → List UInt8 → Prop} (h : unitToken c rest = some (u, t)) :
    (∃ u' t', unitToken c rest = some (u', t') ∧ P u' t') ↔ P u t := by
  constructor
  · rintro ⟨u', t', h', hp⟩
    rw [h, Option.some.injEq, Prod.mk.injEq] at h'
    obtain ⟨rfl, rfl⟩ := h'
    exact hp
  · exact fun hp => ⟨u, t, h, hp⟩

theorem unitOf_length {isSec : Bool} {step : Step} {c : UInt8} {rest : List UInt8} {u : Found}
    (h : unitOf isSec step c rest = some u) : u.rest.length ≤ rest.length := by
  rw [unitOf_eq, Option.bind_eq_some_iff] at h
  obtain ⟨⟨v, t⟩, htoken, h⟩ := h
  dsimp only at h
  split at h
  · cases h
    exact unitToken_length htoken
  · cases h

theorem skipBlanks_length (t : List UInt8) : (skipBlanks t).length ≤ t.length :=
  (List.dropWhile_sublist _).length_le

/-- The loop over the text. -/
def parseTimeFrom (isSec : Bool) (s : Reader) : List UInt8 → Exec ℤ
  | [] => finish isSec s
  | c :: rest =>
    if IsDigit c then
      if maxInt / 10 ≤ s.value ∧ (maxInt / 10 < s.value ∨ maxInt % 10 < digitValue c) then
        pure hcoreError
      else do
        let product ← int32 (s.value * 10)
        let value ← int32 (product + digitValue c)
        parseTimeFrom isSec { s with value := value, valid := true } rest
    else
      match _h : unitOf isSec s.step c rest with
      | none => pure hcoreError
      | some u => do
        match ← addComponent isSec s u with
        | none => pure hcoreError
        | some s => parseTimeFrom isSec s (skipBlanks u.rest)
termination_by text => text.length
decreasing_by
  · simp
  · have hrest := unitOf_length (by assumption)
    have hskip := skipBlanks_length u.rest
    simp only [List.length_cons]
    omega

def parseTime (isSec : Bool) (line : List UInt8) : Exec ℤ :=
  parseTimeFrom isSec ⟨0, 0, false, if isSec = true then .start else .month⟩ line

/-- The call returns the value of `D`, or the error if there is none. -/
def Agrees (r : Exec ℤ) (D : ℕ → Prop) : Prop :=
  (∀ v, D v → r = Except.ok (v : ℤ)) ∧ ((∀ v, ¬ D v) → r = Except.ok hcoreError)

theorem Agrees.congr {r : Exec ℤ} {D D' : ℕ → Prop} (h : Agrees r D) (hD : ∀ v, D' v ↔ D v) :
    Agrees r D' :=
  ⟨fun v hv => h.1 v ((hD v).mp hv), fun hn => h.2 (fun v hv => hn v ((hD v).mpr hv))⟩

theorem agrees_error {D : ℕ → Prop} (h : ∀ v, ¬ D v) : Agrees (Except.ok hcoreError) D :=
  ⟨fun v hv => absurd hv (h v), fun _ => rfl⟩

theorem agrees_value {D : ℕ → Prop} {n : ℕ} (h : ∀ v, D v ↔ v = n) :
    Agrees (Except.ok (n : ℤ)) D :=
  ⟨fun v hv => by rw [(h v).mp hv], fun hn => absurd ((h n).mpr rfl) (hn n)⟩

/-- A legal unit counts a number that is a 32-bit integer. -/
theorem factor_le {isSec : Bool} {u : TimeUnit} (h : isSec = false → 2 < u.rank) :
    u.factor isSec ≤ largest := by
  cases isSec with
  | true => cases u <;> decide
  | false =>
    have hrank := h rfl
    cases u <;> revert hrank <;> decide

/-- In milliseconds every unit but `ms` itself counts a thousand times more. -/
theorem factor_eq (isSec : Bool) (u : TimeUnit) : u.factor isSec =
    if u ≠ .msec ∧ isSec = false then u.factor true * 1000 else u.factor true := by
  cases isSec <;> cases u <;> rfl

theorem scaled_iff (isSec : Bool) (u : TimeUnit) (t : List UInt8) :
    ((foundOf u t).step ≠ .msec ∧ isSec = false) ↔ u ≠ .msec ∧ isSec = false :=
  and_congr_left' (not_congr (stepOf_msec u))

theorem maxInt_eq : maxInt = (largest : ℤ) := rfl

theorem scaleOf_eq {isSec : Bool} {u : TimeUnit} {t : List UInt8}
    (hu : isSec = false → 2 < u.rank) :
    scaleOf isSec (foundOf u t) = Except.ok (u.factor isSec : ℤ) := by
  have hfactor := factor_le hu
  have hlargest : largest = 2147483647 := rfl
  have hscale : (foundOf u t).scale = (u.factor true : ℤ) := rfl
  rw [scaleOf, if_congr (scaled_iff isSec u t) rfl rfl, hscale]
  rw [factor_eq isSec u] at hfactor ⊢
  by_cases h : u ≠ .msec ∧ isSec = false
  · rw [if_pos h] at hfactor ⊢
    rw [if_pos h, int32_ok (by omega), Nat.cast_mul]
    rfl
  · rw [if_neg h, if_neg h]
    rfl

theorem maxOf_eq (isSec : Bool) (u : TimeUnit) (t : List UInt8) :
    maxOf isSec (foundOf u t) = maxInt / u.factor isSec := by
  rw [maxOf, if_congr (scaled_iff isSec u t) rfl rfl, factor_eq isSec u]
  by_cases h : u ≠ .msec ∧ isSec = false
  · rw [if_pos h, if_pos h, Nat.cast_mul]
    exact Int.ediv_ediv_of_nonneg (Int.natCast_nonneg _)
  · rw [if_neg h, if_neg h]
    rfl

/-- The guards on the product and on the sum are exact, and no operation
behind them overflows. -/
theorem addComponent_eq {isSec : Bool} {s : Reader} {u : TimeUnit} {t : List UInt8} {n total : ℕ}
    (hu : isSec = false → 2 < u.rank) (hvalue : s.value = n) (htotal : s.total = total) :
    addComponent isSec s (foundOf u t) = Except.ok
      (if total + n * u.factor isSec ≤ largest then
        some ⟨0, ((total + n * u.factor isSec : ℕ) : ℤ), s.valid, stepOf u⟩
      else none) := by
  have hpos : 0 < u.factor isSec := u.factor_pos isSec
  have hlargest : largest = 2147483647 := rfl
  have hguard : maxInt / (u.factor isSec : ℤ) < s.value ↔ largest < n * u.factor isSec := by
    rw [hvalue, maxInt_eq, Int.ediv_lt_iff_lt_mul (by omega)]
    exact_mod_cast Iff.rfl
  have hproduct : s.value * (u.factor isSec : ℤ) = ((n * u.factor isSec : ℕ) : ℤ) := by
    rw [hvalue, Nat.cast_mul]
  unfold addComponent
  rw [scaleOf_eq hu, ok_bind, maxOf_eq, if_congr hguard rfl rfl, hproduct]
  generalize n * u.factor isSec = m at *
  by_cases hlarge : largest < m
  · rw [if_pos hlarge, if_neg (by omega)]
    rfl
  · rw [if_neg hlarge, int32_ok (by omega), ok_bind, int32_ok (by rw [maxInt_eq]; omega), ok_bind,
      htotal]
    by_cases hroom : total + m ≤ largest
    · rw [if_neg (by rw [maxInt_eq]; omega), int32_ok (by omega), ok_bind, if_pos hroom]
      rfl
    · rw [if_pos (by rw [maxInt_eq]; omega), if_neg hroom]
      rfl

/-- The guard of the last number is exact. -/
theorem lastGuard_iff {isSec : Bool} {s : Reader} {n : ℕ} (hvalue : s.value = n)
    (hn : n ≤ largest) : (isSec = false ∧ maxInt / 1000 < s.value) ↔
      largest < n * TimeUnit.sec.factor isSec := by
  have hlargest : largest = 2147483647 := rfl
  rw [hvalue, maxInt_eq]
  cases isSec with
  | true =>
    have hfactor : TimeUnit.sec.factor true = 1 := rfl
    rw [hfactor]
    exact iff_of_false (by simp) (by omega)
  | false =>
    have hfactor : TimeUnit.sec.factor false = 1000 := rfl
    rw [hfactor, and_iff_right rfl]
    omega

theorem lastValueOf_eq {isSec : Bool} {s : Reader} {n : ℕ} (hvalue : s.value = n)
    (hfits : n * TimeUnit.sec.factor isSec ≤ largest) :
    lastValueOf isSec s = Except.ok ((n * TimeUnit.sec.factor isSec : ℕ) : ℤ) := by
  have hlargest : largest = 2147483647 := rfl
  cases isSec with
  | true =>
    have hfactor : TimeUnit.sec.factor true = 1 := rfl
    rw [lastValueOf, if_neg (by simp), hvalue, hfactor, Nat.mul_one]
    rfl
  | false =>
    have hfactor : TimeUnit.sec.factor false = 1000 := rfl
    rw [hfactor] at hfits
    rw [lastValueOf, if_pos rfl, hvalue, int32_ok (by omega), hfactor, Nat.cast_mul]
    rfl

theorem finish_eq {isSec : Bool} {s : Reader} {n total : ℕ} (hvalue : s.value = n)
    (htotal : s.total = total) (hn : n ≤ largest) : finish isSec s =
      if s.valid = true ∧ total + n * TimeUnit.sec.factor isSec ≤ largest then
        Except.ok ((total + n * TimeUnit.sec.factor isSec : ℕ) : ℤ)
      else Except.ok hcoreError := by
  have hlargest : largest = 2147483647 := rfl
  unfold finish
  cases hvalid : s.valid with
  | false => rfl
  | true =>
    have hlast (hfits : n * TimeUnit.sec.factor isSec ≤ largest) := lastValueOf_eq hvalue hfits
    rw [if_neg (by simp), if_congr (lastGuard_iff hvalue hn) rfl rfl]
    generalize n * TimeUnit.sec.factor isSec = m at *
    by_cases hlarge : largest < m
    · rw [if_pos hlarge, if_neg (fun h => absurd h.2 (by omega))]
      rfl
    · rw [if_neg hlarge, hlast (Nat.le_of_not_lt hlarge), ok_bind,
        int32_ok (by rw [maxInt_eq]; omega), ok_bind, htotal]
      by_cases hroom : total + m ≤ largest
      · rw [if_neg (by rw [maxInt_eq]; omega), int32_ok (by omega), if_pos ⟨rfl, hroom⟩,
          Nat.cast_add]
      · rw [if_pos (by rw [maxInt_eq]; omega), if_neg (fun h => hroom h.2)]
        rfl

/-- What has been read: the digits `pend` of the open number and units of the
sum `total`. -/
structure Reading (isSec : Bool) (s : Reader) (total : ℕ) (pend : List UInt8) : Prop where
  digits : ∀ x ∈ pend, IsDigit x
  value : s.value = decimal pend
  fits : decimal pend ≤ largest
  added : s.total = total
  room : total ≤ largest
  valid : pend ≠ [] → s.valid = true
  order : isSec = false → 2 ≤ s.step.index

/-- The values that the text `text` can complete. -/
def Continues (isSec : Bool) (s : Reader) (total : ℕ) (pend text : List UInt8) (v : ℕ) : Prop :=
  ∃ comps last, Splits comps last (pend ++ text) ∧ Follows isSec s.step.index comps ∧
    (s.valid = true ∨ HasDigit comps last) ∧
    v = total + (sum isSec comps + lastValue isSec last) ∧ v ≤ largest

section

variable {isSec : Bool} {s : Reader} {total v : ℕ} {pend rest t : List UInt8} {c : UInt8}

theorem Reading.digits_snoc (h : Reading isSec s total pend) (hc : IsDigit c) :
    ∀ x ∈ pend ++ [c], IsDigit x := by
  intro x hx
  rcases List.mem_append.mp hx with hx | hx
  · exact h.digits x hx
  · rwa [List.mem_singleton.mp hx]

theorem Reading.continues_nil (h : Reading isSec s total pend) :
    Continues isSec s total pend [] v ↔
      (s.valid = true ∧ total + lastValue isSec pend ≤ largest) ∧
        v = total + lastValue isSec pend := by
  have hsum : sum isSec [] = 0 := rfl
  unfold Continues
  rw [List.append_nil]
  constructor
  · rintro ⟨comps, last, hsplit, -, hvalid, rfl, hle⟩
    obtain ⟨rfl, rfl⟩ := (splits_digits h.digits).mp hsplit
    rw [hsum, Nat.zero_add] at hle ⊢
    have hread : s.valid = true := by
      rcases hvalid with hvalid | ⟨x, hx, -⟩ | hne
      · exact hvalid
      · cases hx
      · exact h.valid hne
    exact ⟨⟨hread, hle⟩, rfl⟩
  · rintro ⟨⟨hvalid, hle⟩, rfl⟩
    refine ⟨[], pend, (splits_digits h.digits).mpr ⟨rfl, rfl⟩, trivial, Or.inl hvalid, ?_, hle⟩
    rw [hsum, Nat.zero_add]

theorem Reading.continues_digit (h : Reading isSec s total pend) (hc : IsDigit c) (value : ℤ) :
    Continues isSec s total pend (c :: rest) v ↔
      Continues isSec { s with value := value, valid := true } total (pend ++ [c]) rest v := by
  unfold Continues
  rw [List.append_cons]
  constructor
  · rintro ⟨comps, last, hsplit, hfollows, -, hv⟩
    exact ⟨comps, last, hsplit, hfollows, Or.inl rfl, hv⟩
  · rintro ⟨comps, last, hsplit, hfollows, -, hv⟩
    exact ⟨comps, last, hsplit, hfollows, Or.inr (hsplit.hasDigit (h.digits_snoc hc) (by simp)),
      hv⟩

/-- The product of the open number and the unit is added. -/
theorem Reading.continues_unit (h : Reading isSec s total pend) (hc : ¬ IsDigit c) :
    Continues isSec s total pend (c :: rest) v ↔ ∃ u t, unitToken c rest = some (u, t) ∧
      (s.step.index < u.rank ∧ (u = .msec → isSec = false)) ∧
      Continues isSec ⟨0, ((total + decimal pend * u.factor isSec : ℕ) : ℤ), s.valid, stepOf u⟩
        (total + decimal pend * u.factor isSec) [] (skipBlanks t) v := by
  have hvalid (u : TimeUnit) (n : ℕ) (cs : List Component) (last : List UInt8) :
      (s.valid = true ∨ HasDigit (⟨pend, u, n⟩ :: cs) last) ↔
        (s.valid = true ∨ HasDigit cs last) := by
    rw [hasDigit_cons]
    have hpend := h.valid
    tauto
  have hproduct (u : TimeUnit) (n : ℕ) :
      Component.value isSec ⟨pend, u, n⟩ = decimal pend * u.factor isSec := rfl
  unfold Continues
  constructor
  · rintro ⟨comps, last, hsplit, hfollows, hread, rfl, hle⟩
    obtain ⟨u, t, cs, htoken, rfl, hrest⟩ := (splits_unit h.digits hc).mp hsplit
    rw [sum_cons] at hle ⊢
    rw [Follows] at hfollows
    obtain ⟨hrank, hmsec, hnext⟩ := hfollows
    refine ⟨u, t, htoken, ⟨hrank, hmsec⟩, cs, last, hrest, ?_, (hvalid ..).mp hread, ?_, hle⟩
    · rw [stepOf_index]
      exact hnext
    · rw [hproduct]
      omega
  · rintro ⟨u, t, htoken, ⟨hrank, hmsec⟩, cs, last, hrest, hnext, hread, rfl, hle⟩
    rw [stepOf_index] at hnext
    refine ⟨⟨pend, u, blankCount t⟩ :: cs, last, (splits_unit h.digits hc).mpr
      ⟨u, t, cs, htoken, rfl, hrest⟩, ⟨hrank, hmsec, hnext⟩, (hvalid ..).mpr hread, ?_, hle⟩
    rw [sum_cons, hproduct]
    omega

theorem Reading.agrees_nil (h : Reading isSec s total pend) :
    Agrees (parseTimeFrom isSec s []) (Continues isSec s total pend []) := by
  rw [parseTimeFrom, finish_eq h.value h.added h.fits]
  by_cases hok : s.valid = true ∧ total + lastValue isSec pend ≤ largest
  · rw [lastValue] at hok
    rw [if_pos hok]
    exact agrees_value (fun v => by rw [h.continues_nil]; exact and_iff_right hok)
  · rw [lastValue] at hok
    rw [if_neg hok]
    exact agrees_error (fun v hv => hok (h.continues_nil.mp hv).1)

/-- The guard of the digits is exact. -/
theorem Reading.overflow_iff (h : Reading isSec s total pend) (hc : IsDigit c) :
    (maxInt / 10 ≤ s.value ∧ (maxInt / 10 < s.value ∨ maxInt % 10 < digitValue c)) ↔
      largest < decimal (pend ++ [c]) := by
  have hdigit := hc.value_le
  have hlargest : largest = 2147483647 := rfl
  rw [decimal, decimalFrom_append, decimalFrom_cons, decimalFrom_nil, ← decimal, h.value, maxInt_eq]
  omega

theorem Reading.digit (h : Reading isSec s total pend) (hc : IsDigit c)
    (hfits : decimal (pend ++ [c]) ≤ largest) :
    Reading isSec { s with value := (decimal (pend ++ [c]) : ℤ), valid := true } total
      (pend ++ [c]) where
  digits := h.digits_snoc hc
  value := rfl
  fits := hfits
  added := h.added
  room := h.room
  valid := fun _ => rfl
  order := h.order

theorem Reading.unit (h : Reading isSec s total pend) {u : TimeUnit}
    (hu : s.step.index < u.rank) (hroom : total + decimal pend * u.factor isSec ≤ largest) :
    Reading isSec ⟨0, ((total + decimal pend * u.factor isSec : ℕ) : ℤ), s.valid, stepOf u⟩
      (total + decimal pend * u.factor isSec) [] where
  digits := by simp
  value := rfl
  fits := Nat.zero_le _
  added := rfl
  room := hroom
  valid := fun hne => absurd rfl hne
  order := by
    intro hsec
    have horder := h.order hsec
    have hbehind := u.rank_le_behind
    rw [stepOf_index]
    omega

/-- One digit is read. -/
theorem Reading.agrees_digit (h : Reading isSec s total pend) (hc : IsDigit c)
    (ih : ∀ s total pend, Reading isSec s total pend →
      Agrees (parseTimeFrom isSec s rest) (Continues isSec s total pend rest)) :
    Agrees (parseTimeFrom isSec s (c :: rest)) (Continues isSec s total pend (c :: rest)) := by
  rw [parseTimeFrom, if_pos hc, if_congr (h.overflow_iff hc) rfl rfl]
  by_cases hlarge : largest < decimal (pend ++ [c])
  · rw [if_pos hlarge]
    refine agrees_error (fun v hv => ?_)
    obtain ⟨comps, last, hsplit, -, -, rfl, hle⟩ := hv
    rw [List.append_cons] at hsplit
    have hnumber : decimal (pend ++ [c]) ≤ TimeGrammar.sum isSec comps + lastValue isSec last :=
      hsplit.decimal_le (h.digits_snoc hc)
    omega
  · have hnext := h.digit hc (Nat.le_of_not_lt hlarge)
    have hdigit : s.value * 10 + digitValue c = (decimal (pend ++ [c]) : ℤ) := by
      rw [h.value, decimal, decimal, decimalFrom_append]
      push_cast [decimalFrom_cons, decimalFrom_nil]
      rfl
    have hlargest : largest = 2147483647 := rfl
    have hvalue := h.value
    rw [if_neg hlarge, int32_ok (by omega), ok_bind, hdigit, int32_ok (by omega), ok_bind]
    exact (ih _ _ _ hnext).congr (fun v => h.continues_digit hc _)

/-- One unit is read, with the blanks behind it. -/
theorem Reading.agrees_unit (h : Reading isSec s total pend) (hc : ¬ IsDigit c)
    (ih : ∀ s total t, t.length ≤ rest.length → Reading isSec s total [] →
      Agrees (parseTimeFrom isSec s t) (Continues isSec s total [] t)) :
    Agrees (parseTimeFrom isSec s (c :: rest)) (Continues isSec s total pend (c :: rest)) := by
  refine Agrees.congr ?_ (fun v => h.continues_unit hc)
  rw [parseTimeFrom, if_neg hc]
  split
  case h_1 hnone =>
    rw [unitOf_eq] at hnone
    refine agrees_error ?_
    rintro v ⟨u, t, htoken, horder, -⟩
    rw [htoken, Option.bind_some, if_pos horder] at hnone
    cases hnone
  case h_2 found hfound =>
    rw [unitOf_eq, Option.bind_eq_some_iff] at hfound
    obtain ⟨⟨u, t⟩, htoken, hfound⟩ := hfound
    by_cases horder : s.step.index < u.rank ∧ (u = .msec → isSec = false)
    · rw [if_pos horder, Option.some.injEq] at hfound
      subst hfound
      have hlong (hsec : isSec = false) : 2 < u.rank := lt_of_le_of_lt (h.order hsec) horder.1
      have hlength := unitToken_length htoken
      have hskip := skipBlanks_length t
      refine Agrees.congr ?_ (fun v => exists_unit_iff htoken)
      rw [addComponent_eq hlong h.value h.added, ok_bind]
      by_cases hroom : total + decimal pend * u.factor isSec ≤ largest
      · rw [if_pos hroom]
        exact (ih _ _ (skipBlanks t) (by omega) (h.unit horder.1 hroom)).congr (fun v => and_iff_right horder)
      · rw [if_neg hroom]
        refine agrees_error ?_
        rintro v ⟨-, comps, last, -, -, -, rfl, hle⟩
        omega
    · rw [if_neg horder] at hfound
      cases hfound

/-- From every state that the loop reaches, it returns what the text can still
become. -/
theorem Reading.agrees (h : Reading isSec s total pend) (text : List UInt8) :
    Agrees (parseTimeFrom isSec s text) (Continues isSec s total pend text) := by
  induction hlength : text.length using Nat.strong_induction_on generalizing s total pend text with
  | _ n ih =>
    cases text with
    | nil => exact h.agrees_nil
    | cons c rest =>
      rw [List.length_cons] at hlength
      by_cases hc : IsDigit c
      · exact h.agrees_digit hc (fun s total pend hs => ih rest.length (by omega) hs rest rfl)
      · exact h.agrees_unit hc (fun s total t ht hs => ih t.length (by omega) hs t rfl)

end

theorem parseTime_agrees (isSec : Bool) (line : List UInt8) :
    Agrees (parseTime isSec line) (Denotes isSec line) := by
  have hstart : Reading isSec ⟨0, 0, false, if isSec = true then .start else .month⟩ 0 [] := {
    digits := by simp
    value := rfl
    fits := Nat.zero_le _
    added := rfl
    room := Nat.zero_le _
    valid := fun hne => absurd rfl hne
    order := by
      rintro rfl
      exact le_rfl }
  refine (hstart.agrees line).congr (fun v => ?_)
  have hindex : (if isSec = true then Step.start else Step.month).index =
      if isSec = true then 0 else 2 := by
    cases isSec <;> rfl
  unfold Denotes Continues
  rw [List.nil_append]
  dsimp only
  simp only [legal_iff, fits_iff, hindex]
  constructor
  · rintro ⟨comps, last, hsplit, hlegal, hdigit, hfits, rfl⟩
    exact ⟨comps, last, hsplit, hlegal, Or.inr hdigit, (Nat.zero_add _).symm, hfits⟩
  · rintro ⟨comps, last, hsplit, hlegal, hread, rfl, hfits⟩
    rw [Nat.zero_add] at hfits ⊢
    refine ⟨comps, last, hsplit, hlegal, ?_, hfits, rfl⟩
    exact hread.resolve_left (by simp)

/-- **The time parser is exact**: it returns the value of the text, or the error if
the text has none, and no operation on its 32-bit integers overflows. -/
theorem parse_time_exact (isSec : Bool) (line : List UInt8) :
    (∀ v, Denotes isSec line v → parseTime isSec line = Except.ok (v : ℤ)) ∧
      ((∀ v, ¬ Denotes isSec line v) → parseTime isSec line = Except.ok hcoreError) ∧
      parseTime isSec line ≠ undefined := by
  have hexact := parseTime_agrees isSec line
  refine ⟨hexact.1, hexact.2, fun hundefined => ?_⟩
  by_cases hdenotes : ∃ v, Denotes isSec line v
  · obtain ⟨v, hv⟩ := hdenotes
    rw [hexact.1 v hv] at hundefined
    cases hundefined
  · rw [hexact.2 (fun v hv => hdenotes ⟨v, hv⟩)] at hundefined
    cases hundefined

end HCore.TimeText
