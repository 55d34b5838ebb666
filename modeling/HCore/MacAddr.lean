import HCore.NetMask

/-!
The parser of hardware addresses with what lies in memory behind its text. It
reads two digits at a time and asks only whether the first of them is in the
text, and it takes either separator at each place. The run without readable
memory behind the text is the one of the netmask parser; where that one is
defined, nothing behind the text is read.
-/

namespace HCore.MacAddr

open Machine BitMap NetMask

/-- `hcore_hextoi(p, 2)` at the last character of the text. -/
def hexPairAtEnd (c : UInt8) : List UInt8 → Exec ℤ
  | [] => if hextoi [c] = hcoreError then pure hcoreError else undefined
  | c' :: _ => pure (hextoi [c, c'])

/-- The loop of `hcore_parse_mac` on a text before the bytes `behind`. -/
def parseMacIn (behind : List UInt8) (i : ℕ) (sep : Bool) (mac : ℕ → UInt8) :
    List UInt8 → Exec (ℤ × (ℕ → UInt8))
  | [] => pure (if i ≠ 6 then hcoreError else hcoreOk, mac)
  | c :: rest =>
    if i = 6 then pure (hcoreError, mac)
    else if sep then
      if c = 58 ∨ c = 45 then parseMacIn behind i false mac rest else pure (hcoreError, mac)
    else
      match rest with
      | [] => do
        let value ← hexPairAtEnd c behind
        if value = hcoreError then pure (hcoreError, mac)
        else
          -- the pointer is one behind the end, and the loop is over
          pure (if i + 1 ≠ 6 then hcoreError else hcoreOk,
            Function.update mac i (UInt8.ofNat value.toNat))
      | c' :: rest =>
        if hextoi [c, c'] = hcoreError then pure (hcoreError, mac)
        else
          parseMacIn behind (i + 1) true
            (Function.update mac i (UInt8.ofNat (hextoi [c, c']).toNat)) rest

def parseMacBefore (mac : ℕ → UInt8) (text behind : List UInt8) : Exec (ℤ × (ℕ → UInt8)) :=
  parseMacIn behind 0 false mac text

/-- Pairs of hexadecimal digits with this separator between them, and the
bytes they stand for. -/
inductive Pairs (sep : UInt8) : List UInt8 → List UInt8 → Prop
  | last {c c' : UInt8} {x y : ℕ} (hx : hexDigit c = some x) (hy : hexDigit c' = some y) :
    Pairs sep [c, c'] [UInt8.ofNat (x * 16 + y)]
  | more {c c' : UInt8} {x y : ℕ} {text vals : List UInt8} (hx : hexDigit c = some x)
    (hy : hexDigit c' = some y) (h : Pairs sep text vals) :
    Pairs sep (c :: c' :: sep :: text) (UInt8.ofNat (x * 16 + y) :: vals)

/-- Six pairs separated by `:` throughout or by `-` throughout. -/
def MacAddress (text vals : List UInt8) : Prop :=
  vals.length = 6 ∧ (Pairs 58 text vals ∨ Pairs 45 text vals)

/-- The result is that of the text alone, and the parser takes exactly the
addresses and stores their bytes. -/
def ParsesMac (text : List UInt8) : Prop :=
  (∀ mac behind behind', parseMacBefore mac text behind = parseMacBefore mac text behind') ∧
    ∀ mac behind, ∃ code mac', parseMacBefore mac text behind = Except.ok (code, mac') ∧
      (code = hcoreOk ↔ ∃ vals, MacAddress text vals) ∧
      ∀ vals, MacAddress text vals → sixBytes mac' = vals

/-- Six pairs with both separators among them. -/
def Mixed (text : List UInt8) : Prop :=
  ∃ vals, MacText text vals ∧ vals.length = 6 ∧ 58 ∈ text ∧ 45 ∈ text

/-- So many pairs, each with a separator behind it, and then one digit. -/
inductive Cut : ℕ → List UInt8 → Prop
  | digit {c : UInt8} {x : ℕ} (hx : hexDigit c = some x) : Cut 0 [c]
  | more {n : ℕ} {c c' s : UInt8} {x y : ℕ} {text : List UInt8} (hx : hexDigit c = some x)
    (hy : hexDigit c' = some y) (hs : s = 58 ∨ s = 45) (h : Cut n text) :
    Cut (n + 1) (c :: c' :: s :: text)

def CutShort (text : List UInt8) : Prop := ∃ n, n < 6 ∧ Cut n text

section

variable {text vals behind : List UInt8} {sep : UInt8} {i n : ℕ} {mac : ℕ → UInt8}

theorem hexDigit_ne_sep {c : UInt8} {x : ℕ} (hx : hexDigit c = some x) : c ≠ 58 ∧ c ≠ 45 := by
  constructor
  · rintro rfl
    exact absurd (hx.symm.trans (show hexDigit 58 = none by decide)) (by simp)
  · rintro rfl
    exact absurd (hx.symm.trans (show hexDigit 45 = none by decide)) (by simp)

theorem Pairs.macText (hsep : sep = 58 ∨ sep = 45) (h : Pairs sep text vals) :
    MacText text vals := by
  induction h with
  | last hx hy => exact MacText.last hx hy
  | more hx hy h ih => exact MacText.more hx hy hsep ih

/-- The other separator does not occur. -/
theorem Pairs.not_mem (h : Pairs sep text vals) {s : UInt8} (hs : s = 58 ∨ s = 45) (hne : s ≠ sep) :
    s ∉ text := by
  have hdigit {c : UInt8} {x : ℕ} (hx : hexDigit c = some x) : s ≠ c := by
    rintro rfl
    exact hs.elim (hexDigit_ne_sep hx).1 (hexDigit_ne_sep hx).2
  induction h with
  | last hx hy => simp [hdigit hx, hdigit hy]
  | more hx hy h ih => simp [hdigit hx, hdigit hy, hne, ih]

theorem pairs_of_macText (h : MacText text vals) {s : UInt8} (hs : s ∉ text)
    (hsep : ∀ c, c = 58 ∨ c = 45 → c ≠ s → c = sep) : Pairs sep text vals := by
  induction h with
  | last hx hy => exact Pairs.last hx hy
  | more hx hy hsep' h ih =>
    simp only [List.mem_cons, not_or] at hs
    obtain rfl := hsep _ hsep' (Ne.symm hs.2.2.1)
    exact Pairs.more hx hy (ih hs.2.2.2)

theorem hextoi_one (c : UInt8) : hextoi [c] = hcoreError ↔ hexDigit c = none := by
  unfold hextoi
  rw [if_neg (by simp), hextoiFrom, if_neg (by norm_num)]
  cases hx : hexDigit c with
  | none => simp
  | some x =>
    dsimp only
    rw [hextoiFrom]
    refine iff_of_false ?_ (by simp)
    unfold hcoreError
    omega

theorem hextoi_two {c : UInt8} (h : hexDigit c = none) (c' : UInt8) :
    hextoi [c, c'] = hcoreError := by
  rcases hextoi_pair c c' with ⟨x, y, hx, -⟩ | ⟨herror, -⟩
  · rw [h] at hx
    cases hx
  · exact herror

/-- Without a first digit the second one is not read. -/
theorem hexPairAtEnd_of_none {c : UInt8} (h : hexDigit c = none) (behind : List UInt8) :
    hexPairAtEnd c behind = Except.ok hcoreError := by
  cases behind with
  | nil => rw [hexPairAtEnd, if_pos ((hextoi_one c).mpr h), pure_eq_ok]
  | cons c' behind => rw [hexPairAtEnd, hextoi_two h, pure_eq_ok]

theorem parseMacIn_sep (behind : List UInt8) (i : ℕ) (mac : ℕ → UInt8) (s : UInt8)
    (text : List UInt8) : parseMacIn behind i true mac (s :: text) =
      if i = 6 then Except.ok (hcoreError, mac)
      else if s = 58 ∨ s = 45 then parseMacIn behind i false mac text
      else Except.ok (hcoreError, mac) := by
  cases text <;> rfl

/-- A run that is defined without memory behind the text reads none. -/
theorem parseMacIn_cases (i : ℕ) (sep : Bool) (mac : ℕ → UInt8) (text : List UInt8) :
    (parseMacFrom i sep mac text = undefined ∧ parseMacIn [] i sep mac text = undefined) ∨
      ∃ r, parseMacFrom i sep mac text = Except.ok r ∧
        ∀ behind, parseMacIn behind i sep mac text = Except.ok r := by
  fun_induction parseMacFrom i sep mac text with
  | case1 i sep mac => exact Or.inr ⟨_, rfl, fun _ => rfl⟩
  | case2 sep mac c rest =>
    refine Or.inr ⟨_, rfl, fun behind => ?_⟩
    cases rest <;> rfl
  | case3 i mac c rest hi hc ih =>
    simp only [parseMacIn_sep, if_neg hi, if_pos hc]
    exact ih
  | case4 i mac c rest hi hc =>
    simp only [parseMacIn_sep, if_neg hi, if_neg hc]
    exact Or.inr ⟨_, rfl, fun _ => rfl⟩
  | case5 i sep mac c hi hsep hone =>
    refine Or.inr ⟨_, rfl, fun behind => ?_⟩
    have hnone := hexPairAtEnd_of_none ((hextoi_one c).mp hone) behind
    rw [parseMacIn, if_neg hi, if_neg hsep, hnone, ok_bind, if_pos rfl, pure_eq_ok]
  | case6 i sep mac c hi hsep hone =>
    refine Or.inl ⟨rfl, ?_⟩
    rw [parseMacIn, if_neg hi, if_neg hsep, hexPairAtEnd, if_neg hone]
    rfl
  | case7 i sep mac c hi hsep c' rest htwo =>
    refine Or.inr ⟨_, rfl, fun behind => ?_⟩
    rw [parseMacIn, if_neg hi, if_neg hsep, if_pos htwo, pure_eq_ok]
  | case8 i sep mac c hi hsep c' rest htwo ih =>
    simp only [parseMacIn, if_neg hi, if_neg hsep, if_neg htwo]
    exact ih

/-- The run without memory behind the text fails on a cut text alone. -/
theorem parseMacFrom_cases (m : ℕ) (hm : text.length ≤ m) (hi : i < 6) (mac : ℕ → UInt8) :
    (∃ n, i + n < 6 ∧ Cut n text ∧ parseMacFrom i false mac text = undefined) ∨
      ((∀ n, i + n < 6 → ¬ Cut n text) ∧ ∃ r, parseMacFrom i false mac text = Except.ok r) := by
  induction m generalizing text i mac with
  | zero =>
    obtain rfl := List.length_eq_zero_iff.mp (Nat.le_zero.mp hm)
    exact Or.inr ⟨fun n _ h => (nomatch h), _, rfl⟩
  | succ m ih =>
    rcases text with _ | ⟨c, _ | ⟨c', rest⟩⟩
    · exact Or.inr ⟨fun n _ h => (nomatch h), _, rfl⟩
    · rw [parseMacFrom, if_neg (by omega), if_neg (by simp)]
      cases hx : hexDigit c with
      | none =>
        rw [if_pos ((hextoi_one c).mpr hx)]
        refine Or.inr ⟨fun n _ h => ?_, _, rfl⟩
        cases h with
        | digit hx' => simp [hx] at hx'
      | some x =>
        rw [if_neg ((hextoi_one c).not.mpr (by simp [hx]))]
        exact Or.inl ⟨0, by omega, Cut.digit hx, rfl⟩
    · rw [parseMacFrom, if_neg (by omega), if_neg (by simp)]
      rcases hextoi_pair c c' with ⟨x, y, hx, hy, hval⟩ | ⟨herror, hnone⟩
      · rw [if_neg (by rw [hval]; unfold hcoreError; omega)]
        cases rest with
        | nil =>
          refine Or.inr ⟨fun n _ h => ?_, _, rfl⟩
          cases h
        | cons s rest =>
          rw [parseMacFrom_sep]
          by_cases hsix : i + 1 = 6
          · rw [if_pos hsix]
            refine Or.inr ⟨fun n hn h => ?_, _, rfl⟩
            cases h with
            | more => omega
          · rw [if_neg hsix]
            by_cases hs : s = 58 ∨ s = 45
            · rw [if_pos hs]
              simp only [List.length_cons] at hm
              have hrest : rest.length ≤ m := by omega
              rcases ih hrest (show i + 1 < 6 by omega)
                  (Function.update mac i (UInt8.ofNat (hextoi [c, c']).toNat)) with
                ⟨n, hn, hcut, hrun⟩ | ⟨hcut, hrun⟩
              · exact Or.inl ⟨n + 1, by omega, Cut.more hx hy hs hcut, hrun⟩
              · refine Or.inr ⟨fun n hn h => ?_, hrun⟩
                cases h with
                | more hx hy hs h => exact hcut _ (by omega) h
            · rw [if_neg hs]
              refine Or.inr ⟨fun n _ h => ?_, _, rfl⟩
              cases h with
              | more hx hy hs' h => exact hs hs'
      · rw [if_pos herror]
        refine Or.inr ⟨fun n _ h => ?_, _, rfl⟩
        cases h with
        | more hx hy hs h => exact hnone _ _ hx hy

end

/-- Every uniform address is one for the reader of any separators, and the
reader's other texts mix them. -/
theorem macAddress_iff {text vals : List UInt8} (hmixed : ¬ Mixed text) :
    MacAddress text vals ↔ MacText text vals ∧ vals.length = 6 := by
  constructor
  · rintro ⟨hlen, hpairs | hpairs⟩
    · exact ⟨hpairs.macText (Or.inl rfl), hlen⟩
    · exact ⟨hpairs.macText (Or.inr rfl), hlen⟩
  · rintro ⟨htext, hlen⟩
    refine ⟨hlen, ?_⟩
    by_cases hcolon : 58 ∈ text
    · have hdash : 45 ∉ text := fun hdash => hmixed ⟨vals, htext, hlen, hcolon, hdash⟩
      exact Or.inl (pairs_of_macText htext hdash (fun c hc hne => hc.resolve_right hne))
    · exact Or.inr (pairs_of_macText htext hcolon (fun c hc hne => hc.resolve_left hne))

/-- A text with both separators is parsed all the same. -/
theorem not_mixed_of_parses {text : List UInt8} (h : ParsesMac text) : ¬ Mixed text := by
  obtain ⟨-, hparse⟩ := h
  rintro ⟨vals, htext, hlen, hcolon, hdash⟩
  obtain ⟨code, mac', hrun, hcode, -⟩ := hparse (fun _ => 0) []
  obtain ⟨mac'', hok, -⟩ := htext.parse 0 (fun _ => 0) (by omega)
  rcases parseMacIn_cases 0 false (fun _ => 0) text with ⟨-, hundef⟩ | ⟨r, hr, hall⟩
  · exact absurd (hrun.symm.trans hundef) nofun
  · obtain rfl : (hcoreOk, mac'') = r := Except.ok.inj (hok.symm.trans hr)
    have hcodeOk := (Prod.mk.inj (Except.ok.inj (hrun.symm.trans (hall [])))).1
    obtain ⟨vals', -, hpairs | hpairs⟩ := hcode.mp hcodeOk
    · exact hpairs.not_mem (Or.inr rfl) (by decide) hdash
    · exact hpairs.not_mem (Or.inl rfl) (by decide) hcolon

/-- **The parser of hardware addresses is right** exactly on the texts that neither
mix the separators nor end inside a pair that it reads. -/
theorem parse_mac_iff (text : List UInt8) : ParsesMac text ↔ ¬ Mixed text ∧ ¬ CutShort text := by
  constructor
  · intro h
    refine ⟨not_mixed_of_parses h, ?_⟩
    obtain ⟨-, hparse⟩ := h
    obtain ⟨code, mac', hrun, -, -⟩ := hparse (fun _ => 0) []
    rcases parseMacIn_cases 0 false (fun _ => 0) text with ⟨-, hundef⟩ | ⟨r, hr, -⟩
    · exact absurd (hrun.symm.trans hundef) nofun
    · rintro ⟨n, hn, hcut⟩
      rcases parseMacFrom_cases text.length le_rfl (show 0 < 6 by omega) (fun _ => 0) with
        ⟨-, -, -, hundef⟩ | ⟨hnot, -⟩
      · exact absurd (hr.symm.trans hundef) nofun
      · exact hnot n (by omega) hcut
  · rintro ⟨hmixed, hcut⟩
    have hruns (mac : ℕ → UInt8) : ∃ r, parseMac mac text = Except.ok r ∧
        ∀ behind, parseMacBefore mac text behind = Except.ok r := by
      rcases parseMacFrom_cases text.length le_rfl (show 0 < 6 by omega) mac with
        ⟨n, hn, htext, -⟩ | ⟨-, r, hr⟩
      · exact absurd ⟨n, by omega, htext⟩ hcut
      · rcases parseMacIn_cases 0 false mac text with ⟨hundef, -⟩ | hok
        · exact absurd (hr.symm.trans hundef) nofun
        · exact hok
    refine ⟨fun mac behind behind' => ?_, fun mac behind => ?_⟩
    · obtain ⟨r, -, hall⟩ := hruns mac
      rw [hall behind, hall behind']
    · obtain ⟨⟨code, mac'⟩, hrun, hall⟩ := hruns mac
      refine ⟨code, mac', hall behind, ⟨?_, ?_⟩, fun vals hvals => ?_⟩
      · rintro rfl
        exact ⟨_, (macAddress_iff hmixed).mpr ((parseMac_ok mac text _).mp ⟨mac', hrun, rfl⟩)⟩
      · rintro ⟨vals, hvals⟩
        obtain ⟨mac'', hok, -⟩ := (parseMac_ok mac text vals).mpr ((macAddress_iff hmixed).mp hvals)
        exact (Prod.mk.inj (Except.ok.inj (hrun.symm.trans hok))).1
      · obtain ⟨mac'', hok, hbytes⟩ :=
          (parseMac_ok mac text vals).mpr ((macAddress_iff hmixed).mp hvals)
        obtain ⟨-, rfl⟩ := Prod.mk.inj (Except.ok.inj (hrun.symm.trans hok))
        exact hbytes

/-- `00:00:00:00:00-00` is accepted. -/
theorem mixed_separators_accepted : ¬ ∀ text, ParsesMac text := by
  intro h
  have hzero : hexDigit 48 = some 0 := by decide
  refine not_mixed_of_parses (h [48, 48, 58, 48, 48, 58, 48, 48, 58, 48, 48, 58, 48, 48, 45,
    48, 48]) ⟨List.replicate 6 0, ?_, rfl, by decide, by decide⟩
  have hcolon : (58 : UInt8) = 58 ∨ (58 : UInt8) = 45 := Or.inl rfl
  refine MacText.more hzero hzero hcolon (MacText.more hzero hzero hcolon
    (MacText.more hzero hzero hcolon (MacText.more hzero hzero hcolon
      (MacText.more hzero hzero (Or.inr rfl) (MacText.last hzero hzero)))))

end HCore.MacAddr
