import HCore.NetMask
import HCore.NumberText

/-!
Ports and ranges of them. The end of a range is read before its beginning,
and `-1`, which no port can be, says that there is no end.
-/

namespace HCore.PortRange

open Machine BitMap DecimalText NetMask NumberText

/-- The text is the number of a port. -/
def Port (text : List UInt8) (p : ℕ) : Prop := Number text p ∧ 1 ≤ p ∧ p ≤ 65535

theorem Port.unique {text : List UInt8} {p q : ℕ} (hp : Port text p) (hq : Port text q) : p = q :=
  hp.1.2.2.symm.trans hq.1.2.2

theorem Port.isDigit {text : List UInt8} {p : ℕ} (h : Port text p) : ∀ c ∈ text, IsDigit c := h.1.2.1

theorem Port.not_mem {text : List UInt8} {p : ℕ} (h : Port text p) {c : UInt8}
    (hc : ¬ IsDigit c) : c ∉ text := fun hmem => hc (h.isDigit c hmem)

theorem Port.atoi_eq {text : List UInt8} {p : ℕ} (h : Port text p) :
    atoi text = Except.ok (p : ℤ) := by
  have hle := h.2.2
  refine ato_number (by decide) h.1 ?_
  unfold maxInt
  omega

/-- What is no port is refused behind the scanner. -/
theorem atoi_cases (text : List UInt8) :
    (∃ p, Port text p ∧ atoi text = Except.ok (p : ℤ)) ∨
      ((∀ p, ¬ Port text p) ∧ ∃ n, atoi text = Except.ok n ∧ (n < 1 ∨ 65535 < n)) := by
  by_cases h : ∃ p, Port text p
  · obtain ⟨p, hp⟩ := h
    exact Or.inl ⟨p, hp, hp.atoi_eq⟩
  · push Not at h
    refine Or.inr ⟨h, ?_⟩
    rcases ato_cases (show (0 : ℤ) ≤ maxInt by decide) text with ⟨v, hv, -, hrun⟩ | ⟨-, hrun⟩
    · refine ⟨v, hrun, ?_⟩
      by_contra hrange
      exact h v ⟨hv, by omega, by omega⟩
    · exact ⟨hcoreError, hrun, by decide⟩

/-- What follows the end of the range; `ep` is `-1` where there is none. -/
def parsePortBegin (portBegin portEnd ep : ℤ) (data : List UInt8) : Exec (ℤ × ℤ × ℤ) := do
  let bp ← atoi data
  if bp < 1 ∨ 65535 < bp then pure (hcoreError, portBegin, portEnd)
  else if ep ≠ -1 ∧ ep < bp then pure (hcoreError, portBegin, portEnd)
  else if ep = -1 then pure (hcoreOk, bp, bp)
  else pure (hcoreOk, bp, ep)

/-- The result with what then lies at the two pointers. -/
def parsePortRange (portBegin portEnd : ℤ) (data : List UInt8) : Exec (ℤ × ℤ × ℤ) :=
  match strlchr data 45 with
  | some p => do
    let ep ← atoi (data.drop (p + 1))
    if ep < 1 ∨ 65535 < ep then pure (hcoreError, portBegin, portEnd)
    else parsePortBegin portBegin portEnd ep (data.take p)
  | none => parsePortBegin portBegin portEnd (-1) data

/-- The text is one port, or two in their order with a dash between them. -/
inductive RangeText : List UInt8 → ℕ → ℕ → Prop
  | single {text : List UInt8} {p : ℕ} (h : Port text p) : RangeText text p p
  | range {a b : List UInt8} {p q : ℕ} (ha : Port a p) (hb : Port b q) (hle : p ≤ q) :
    RangeText (a ++ 45 :: b) p q

section

variable {portBegin portEnd : ℤ} {a b text : List UInt8} {p q : ℕ}

theorem dash_not_digit : ¬ IsDigit 45 := by decide

theorem rangeText_single (htext : 45 ∉ text) : RangeText text p q ↔ Port text p ∧ p = q := by
  constructor
  · intro h
    cases h with
    | single h => exact ⟨h, rfl⟩
    | range ha hb hle => exact absurd (by simp) htext
  · rintro ⟨h, rfl⟩
    exact RangeText.single h

theorem rangeText_range (ha : 45 ∉ a) :
    RangeText (a ++ 45 :: b) p q ↔ Port a p ∧ Port b q ∧ p ≤ q := by
  constructor
  · intro h
    generalize htext : a ++ 45 :: b = text at h
    cases h with
    | single h =>
      subst htext
      exact absurd (by simp) (h.not_mem dash_not_digit)
    | @range a' b' _ _ ha' hb' hle =>
      obtain ⟨rfl, rfl⟩ := split_unique ha (ha'.not_mem dash_not_digit) htext
      exact ⟨ha', hb', hle⟩
  · rintro ⟨ha', hb', hle⟩
    exact RangeText.range ha' hb' hle

theorem parsePortBegin_ok (h : Port text p) (hle : p ≤ q) :
    parsePortBegin portBegin portEnd q text = Except.ok (hcoreOk, (p : ℤ), (q : ℤ)) := by
  obtain ⟨hlow, hhigh⟩ := h.2
  rw [parsePortBegin, h.atoi_eq, ok_bind, if_neg (by omega), if_neg (by omega), if_neg (by omega),
    pure_eq_ok]

theorem parsePortBegin_single (h : Port text p) :
    parsePortBegin portBegin portEnd (-1) text = Except.ok (hcoreOk, (p : ℤ), (p : ℤ)) := by
  obtain ⟨hlow, hhigh⟩ := h.2
  rw [parsePortBegin, h.atoi_eq, ok_bind, if_neg (by omega), if_neg (by omega), if_pos rfl,
    pure_eq_ok]

theorem parsePortBegin_error {ep : ℤ} (h : ∀ p : ℕ, Port text p → ep ≠ -1 ∧ ep < p) :
    parsePortBegin portBegin portEnd ep text = Except.ok (hcoreError, portBegin, portEnd) := by
  rw [parsePortBegin]
  rcases atoi_cases text with ⟨p, hp, hrun⟩ | ⟨-, n, hrun, hn⟩
  · obtain ⟨hlow, hhigh⟩ := hp.2
    rw [hrun, ok_bind, if_neg (by omega), if_pos (h p hp), pure_eq_ok]
  · rw [hrun, ok_bind, if_pos hn, pure_eq_ok]

theorem parsePortRange_dash (ha : 45 ∉ a) :
    parsePortRange portBegin portEnd (a ++ 45 :: b) =
      (atoi b >>= fun ep =>
        if ep < 1 ∨ 65535 < ep then Except.ok (hcoreError, portBegin, portEnd)
        else parsePortBegin portBegin portEnd ep a) := by
  unfold parsePortRange
  rw [strlchr_append ha]
  dsimp only
  rw [List.take_left, drop_append_cons, pure_eq_ok]

end

/-- **The port range parser is exact**: it stores the range that the text gives, and
leaves what the pointers hold where the text gives none. -/
theorem parse_port_range_exact (portBegin portEnd : ℤ) (data : List UInt8) :
    (∀ p q, RangeText data p q →
        parsePortRange portBegin portEnd data = Except.ok (hcoreOk, (p : ℤ), (q : ℤ))) ∧
      ((∀ p q, ¬ RangeText data p q) →
        parsePortRange portBegin portEnd data = Except.ok (hcoreError, portBegin, portEnd)) := by
  rcases strlchr_cases data 45 with ⟨a, b, rfl, ha⟩ | ⟨hdash, hnone⟩
  · simp only [rangeText_range ha]
    rw [parsePortRange_dash ha]
    rcases atoi_cases b with ⟨ep, hep, hrun⟩ | ⟨hnot, n, hrun, hn⟩
    · obtain ⟨hlow, hhigh⟩ := hep.2
      rw [hrun, ok_bind, if_neg (by omega)]
      constructor
      · rintro p q ⟨hp, hq, hle⟩
        obtain rfl := hep.unique hq
        exact parsePortBegin_ok hp hle
      · intro h
        refine parsePortBegin_error (fun p hp => ⟨by omega, ?_⟩)
        by_contra hle
        exact h p ep ⟨hp, hep, by omega⟩
    · rw [hrun, ok_bind, if_pos hn]
      exact ⟨fun p q h => absurd h.2.1 (hnot q), fun _ => rfl⟩
  · simp only [rangeText_single hdash]
    have hparse : parsePortRange portBegin portEnd data =
        parsePortBegin portBegin portEnd (-1) data := by
      unfold parsePortRange
      rw [hnone]
    rw [hparse]
    constructor
    · rintro p q ⟨hp, rfl⟩
      exact parsePortBegin_single hp
    · exact fun h => parsePortBegin_error (fun p hp => absurd ⟨hp, rfl⟩ (h p p))

end HCore.PortRange
