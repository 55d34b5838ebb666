import HCore.Formatter
import HCore.Numerals

/-!
The language of formats. A format and its arguments print a text, up to a
directive that the end of the format cuts off; the formatter emits that text,
so it keeps to its buffer, and it reads behind the end of the format exactly
when it comes to a directive that is cut off.
-/

namespace HCore.FormatText

open Machine DecimalText TextWindow Numerals Formatter

/-- A number in the digits that a directive asks for. -/
def digitsText (hexadecimal : ℕ) (ui64 : BitVec 64) : List UInt8 :=
  if hexadecimal = 0 then numeral 10 decimalDigit ui64.toNat
  else if hexadecimal = 1 then numeral 16 (hexDigit 97) ui64.toNat
  else numeral 16 (hexDigit 65) ui64.toNat

def numText (ui64 : BitVec 64) (zero : UInt8) (hexadecimal width : ℕ) : List UInt8 :=
  List.replicate (width - (digitsText hexadecimal ui64).length) zero ++ digitsText hexadecimal ui64

/-- An integer with the sign it has. -/
def integerText (x : Integer) : List UInt8 :=
  if x.spec.sign then
    if x.i64.toInt < 0 then 45 :: numText (-x.i64) x.spec.zero x.spec.hex x.spec.width
    else numText x.i64 x.spec.zero x.spec.hex x.spec.width
  else numText x.ui64 x.spec.zero x.spec.hex x.spec.width

def doubleText (s : Spec) (f : Double) : List UInt8 :=
  (if f.negative then [45] else []) ++ (numText (doubleParts s f).1 s.zero 0 s.width ++
    if s.fracWidth ≠ 0 then 46 :: numText (doubleParts s f).2 48 0 s.fracWidth else [])

/-- The text that a conversion makes of its argument, and the arguments behind
that. -/
inductive Yields (s : Spec) (c : UInt8) :
    Conversion → List Arg → List UInt8 → List Arg → Prop
  | str {data : List UInt8} {args : List Arg} : Yields s c .str (.str data :: args) data args
  | terminated {text rest : List UInt8} {args : List Arg} (hlen : s.slen = noLen)
    (hzero : 0 ∉ text) : Yields s c .chars (.chars (text ++ 0 :: rest) :: args) text args
  | counted {bytes : List UInt8} {args : List Arg} (hlen : s.slen ≠ noLen)
    (hbytes : s.slen ≤ bytes.length) :
    Yields s c .chars (.chars bytes :: args) (bytes.take s.slen) args
  | double {f : Double} {args : List Arg} :
    Yields s c .double (.double f :: args) (doubleText s f) args
  | char {v : BitVec 32} {args : List Arg} :
    Yields s c .char (.word v :: args) [UInt8.ofNat (v.toNat &&& 0xff)] args
  | zero {args : List Arg} : Yields s c .zero args [0] args
  | newline {args : List Arg} : Yields s c .newline args [10] args
  | percent {args : List Arg} : Yields s c .percent args [37] args
  | other {args : List Arg} : Yields s c .other args [c] args
  | integer {k : Conversion} {args args' : List Arg} {x : Integer}
    (hread : readInteger s args k = Except.ok (x, args')) :
    Yields s c k args (integerText x) args'

/-- The text of a format with its arguments, up to a directive without a
conversion if there is one. -/
inductive Prints : List UInt8 → List Arg → List UInt8 → Bool → Prop
  | done {args : List Arg} : Prints [] args [] true
  | plain {c : UInt8} {fmt text : List UInt8} {args : List Arg} {whole : Bool} (hc : c ≠ 37)
    (h : Prints fmt args text whole) : Prints (c :: fmt) args (c :: text) whole
  | directive {c : UInt8} {fmt fmt' piece text : List UInt8} {args args' args'' : List Arg}
    {s : Spec} {whole : Bool} (hspec : readSpec fmt args = Except.ok (s, c :: fmt', args'))
    (hpiece : Yields s c (conversion c) args' piece args'') (h : Prints fmt' args'' text whole) :
    Prints (37 :: fmt) args (piece ++ text) whole
  | cut {fmt : List UInt8} {args args' : List Arg} {s : Spec}
    (hspec : readSpec fmt args = Except.ok (s, [], args')) : Prints (37 :: fmt) args [] false

/-- The arguments have the types that the format asks for. -/
def Matching (fmt : List UInt8) (args : List Arg) : Prop := ∃ text whole, Prints fmt args text whole

/-- What follows the flags. -/
def skipFlags : List UInt8 → List UInt8
  | [] => []
  | c :: fmt =>
    if c = 117 ∨ c = 109 ∨ c = 88 ∨ c = 120 ∨ c = 42 then skipFlags fmt
    else if c = 46 then afterRun fmt
    else c :: fmt

/-- The format from the conversion of its first directive on. -/
def skipSpec (fmt : List UInt8) : List UInt8 := skipFlags (afterRun fmt)

/-- Each directive of the format has a conversion. -/
inductive Complete : List UInt8 → Prop
  | done : Complete []
  | plain {c : UInt8} {fmt : List UInt8} (hc : c ≠ 37) (h : Complete fmt) : Complete (c :: fmt)
  | directive {c : UInt8} {fmt fmt' : List UInt8} (hskip : skipSpec fmt = c :: fmt')
    (h : Complete fmt') : Complete (37 :: fmt)

section

variable {base room n : ℕ} {letter : ℕ → UInt8} {w : Window} {zero : UInt8} {hexadecimal width : ℕ}
  {ui64 : BitVec 64}

theorem storeDigits_eq (hbase : 1 < base) (hroom : 1 ≤ room) (hn : n < base ^ room)
    (digits : List UInt8) :
    storeDigits base letter room n digits = Except.ok (numeral base letter n ++ digits) := by
  induction room generalizing n digits with
  | zero => omega
  | succ room ih =>
    rw [storeDigits, numeral_eq hbase]
    by_cases hlt : n < base
    · rw [if_pos (Nat.div_eq_of_lt hlt), if_pos hlt, pure_eq_ok]
      rfl
    · have hquot : n / base ≠ 0 := (Nat.div_pos (by omega) (by omega)).ne'
      have hsmall : n / base < base ^ room :=
        Nat.div_lt_of_lt_mul (by rwa [pow_succ'] at hn)
      have hroom' : 1 ≤ room := by
        by_contra hzero
        obtain rfl : room = 0 := by omega
        exact hquot (Nat.lt_one_iff.mp hsmall)
      rw [if_neg hquot, if_neg hlt, ih hroom' hsmall, List.append_assoc, List.singleton_append]

theorem numDigits_eq (hexadecimal : ℕ) (ui64 : BitVec 64) :
    numDigits hexadecimal ui64 = Except.ok (digitsText hexadecimal ui64) := by
  have hlt := ui64.isLt
  have hstore {base : ℕ} (hbase : 1 < base) (hpow : 2 ^ 64 ≤ base ^ int64Len) (letter : ℕ → UInt8) :
      storeDigits base letter int64Len ui64.toNat [] =
        Except.ok (numeral base letter ui64.toNat) := by
    rw [storeDigits_eq hbase (by decide) (by omega), List.append_nil]
  unfold numDigits digitsText
  split
  · split
    · next hsmall =>
      have hsame : (ui64.setWidth 32).toNat = ui64.toNat := by
        rw [BitVec.toNat_setWidth]
        omega
      rw [hsame]
      exact hstore (by omega) (by decide) _
    · exact hstore (by omega) (by decide) _
  · split
    · exact hstore (by omega) (by decide) _
    · exact hstore (by omega) (by decide) _

theorem pad_eq (zero : UInt8) (n : ℕ) (w : Window) :
    pad zero n w = Except.ok (w.emit (List.replicate n zero)) := by
  induction n generalizing w with
  | zero => rfl
  | succ n ih =>
    rw [pad]
    by_cases h : w.buf < w.last
    · rw [if_pos h, Window.put_eq h, ok_bind, ih, ← Window.emit_append]
      rfl
    · rw [if_neg h, Window.emit_full h, pure_eq_ok]

/-- The last step of every copy: as much as fits. -/
theorem puts_take (w : Window) (text : List UInt8) :
    w.puts (text.take (min w.room text.length)) = Except.ok (w.emit text) := by
  rw [Window.puts_eq (by rw [List.length_take]; omega), Window.emit_take w text le_rfl]

theorem sprintfNum_eq (w : Window) (ui64 : BitVec 64) (zero : UInt8) (hexadecimal width : ℕ) :
    sprintfNum w ui64 zero hexadecimal width =
      Except.ok (w.emit (numText ui64 zero hexadecimal width)) := by
  rw [sprintfNum, numDigits_eq, ok_bind, pad_eq, ok_bind, numText, Window.emit_append]
  generalize w.emit (List.replicate _ zero) = w'
  have hle := w'.le
  have hlen : (if w'.last < w'.buf + (digitsText hexadecimal ui64).length then w'.last - w'.buf
      else (digitsText hexadecimal ui64).length) =
        min w'.room (digitsText hexadecimal ui64).length := by
    unfold Window.room
    split <;> omega
  rw [hlen, puts_take]

theorem putInteger_eq (h : w.buf < w.last) (x : Integer) :
    putInteger w x = Except.ok (w.emit (integerText x)) := by
  unfold putInteger integerText
  split
  · split
    · rw [Window.put_eq h, ok_bind, sprintfNum_eq, ← Window.emit_append]
      rfl
    · exact sprintfNum_eq ..
  · exact sprintfNum_eq ..

theorem putDouble_eq (h : w.buf < w.last) (s : Spec) (f : Double) :
    putDouble w s f = Except.ok (w.emit (doubleText s f)) := by
  have hsign : putSign w f.negative = Except.ok (w.emit (if f.negative then [45] else [])) := by
    unfold putSign
    split
    · exact Window.put_eq h 45
    · rfl
  have hpoint (w : Window) : putPoint w = Except.ok (w.emit [46]) := by
    unfold putPoint
    split
    · next hlt => exact Window.put_eq hlt 46
    · next hfull => rw [Window.emit_full hfull, pure_eq_ok]
  unfold putDouble doubleText
  rw [hsign, ok_bind, Window.emit_append]
  dsimp only
  rw [sprintfNum_eq, ok_bind, Window.emit_append]
  split
  · rw [hpoint, ok_bind, sprintfNum_eq, ← Window.emit_append]
    rfl
  · rfl

theorem putTerminated_eq {text : List UInt8} (hzero : 0 ∉ text) (rest : List UInt8)
    (w : Window) : putTerminated w (text ++ 0 :: rest) = Except.ok (w.emit text) := by
  induction text generalizing w with
  | nil => rw [List.nil_append, putTerminated, if_neg (by simp), pure_eq_ok, Window.emit_nil]
  | cons c text ih =>
    rw [List.mem_cons, not_or] at hzero
    rw [List.cons_append, putTerminated]
    by_cases h : w.buf < w.last
    · rw [if_pos ⟨Ne.symm hzero.1, h⟩, Window.put_eq h, ok_bind, ih hzero.2, ← Window.emit_append]
      rfl
    · rw [if_neg (fun hc => h hc.2), Window.emit_full h, pure_eq_ok]

theorem cpymem_eq {bytes : List UInt8} {len : ℕ} (hlen : len ≤ bytes.length) (w : Window) :
    cpymem w bytes (min w.room len) = Except.ok (w.emit (bytes.take len)) := by
  have hmin : min (min w.room (min len bytes.length)) len = min w.room len := by omega
  rw [cpymem, if_pos (by omega), ← puts_take w (bytes.take len), List.take_take, List.length_take,
    hmin]

/-- What a conversion prints it emits. -/
theorem Yields.convert_eq {s : Spec} {c : UInt8} {args args' : List Arg} {text : List UInt8}
    (h : Yields s c (conversion c) args text args') (hlt : w.buf < w.last) :
    convert w s c args = Except.ok (w.emit text, args') := by
  have hput (b : UInt8) (args : List Arg) :
      (w.put b >>= fun w => pure (w, args)) = Except.ok (w.emit [b], args) := by
    rw [Window.put_eq hlt, ok_bind, pure_eq_ok]
  unfold convert
  generalize conversion c = k at h
  cases h with
  | @str data =>
    dsimp only
    rw [vaStr, pure_eq_ok, ok_bind, cpymem_eq le_rfl, List.take_length, ok_bind, pure_eq_ok]
  | terminated hlen hzero =>
    dsimp only
    rw [vaChars, pure_eq_ok, ok_bind, putChars, if_pos hlen, putTerminated_eq hzero, ok_bind,
      pure_eq_ok]
  | counted hlen hbytes =>
    dsimp only
    rw [vaChars, pure_eq_ok, ok_bind, putChars, if_neg hlen, cpymem_eq hbytes, ok_bind, pure_eq_ok]
  | double =>
    dsimp only
    rw [vaDouble, pure_eq_ok, ok_bind, putDouble_eq hlt, ok_bind, pure_eq_ok]
  | char => exact hput _ _
  | zero => exact hput 0 _
  | newline => exact hput 10 _
  | percent => exact hput 37 _
  | other => exact hput c _
  | @integer _ _ _ x hread =>
    have hrun : (readInteger s args k >>= fun r => putInteger w r.1 >>= fun w => pure (w, r.2)) =
        Except.ok (w.emit (integerText x), args') := by
      rw [hread, ok_bind, putInteger_eq hlt, ok_bind, pure_eq_ok]
    cases k <;> first | exact hrun | cases hread

end

section

variable {fmt fmt' : List UInt8} {args args' : List Arg} {s s' : Spec}

theorem readWidth_snd (width : ℕ) (fmt : List UInt8) : (readWidth width fmt).2 = afterRun fmt := by
  induction fmt generalizing width with
  | nil => rfl
  | cons c fmt ih =>
    rw [readWidth, afterRun]
    by_cases hc : IsDigit c
    · rw [if_pos hc, ih, List.dropWhile_cons_of_pos (by simpa using hc)]
      rfl
    · rw [if_neg hc, List.dropWhile_cons_of_neg (by simpa using hc)]

theorem readFlags_skip (h : readFlags s fmt args = Except.ok (s', fmt', args')) :
    fmt' = skipFlags fmt := by
  induction fmt generalizing s args with
  | nil =>
    rw [readFlags] at h
    cases h
    rfl
  | cons c fmt ih =>
    rw [readFlags] at h
    by_cases hflag : c = 117 ∨ c = 109 ∨ c = 88 ∨ c = 120 ∨ c = 42
    · rw [skipFlags, if_pos hflag]
      rcases hflag with rfl | rfl | rfl | rfl | rfl
      · exact ih h
      · exact ih h
      · exact ih h
      · exact ih h
      · obtain ⟨⟨slen, args⟩, -, h⟩ := bind_eq_ok.mp h
        exact ih h
    · simp only [not_or] at hflag
      obtain ⟨hu, hm, hX, hx, hstar⟩ := hflag
      rw [if_neg hu, if_neg hm, if_neg hX, if_neg hx] at h
      rw [skipFlags, if_neg (by simp [hu, hm, hX, hx, hstar])]
      by_cases hpoint : c = 46
      · rw [if_pos hpoint] at h
        obtain ⟨-, hfmt⟩ := Prod.mk.inj (Except.ok.inj h)
        rw [if_pos hpoint, ← readWidth_snd s.fracWidth fmt]
        exact (Prod.mk.inj hfmt).1.symm
      · rw [if_neg hpoint, if_neg hstar] at h
        obtain ⟨-, hfmt⟩ := Prod.mk.inj (Except.ok.inj h)
        rw [if_neg hpoint]
        exact (Prod.mk.inj hfmt).1.symm

/-- What is left behind the flags does not depend on the arguments. -/
theorem readSpec_skip (h : readSpec fmt args = Except.ok (s', fmt', args')) :
    fmt' = skipSpec fmt := by
  rw [skipSpec, ← readWidth_snd 0 fmt]
  exact readFlags_skip h

theorem afterRun_length_le (fmt : List UInt8) : (afterRun fmt).length ≤ fmt.length :=
  List.length_dropWhile_le ..

theorem skipFlags_length_le (fmt : List UInt8) : (skipFlags fmt).length ≤ fmt.length := by
  induction fmt with
  | nil => exact le_rfl
  | cons c fmt ih =>
    have hle := afterRun_length_le fmt
    rw [skipFlags, List.length_cons]
    split
    · omega
    · split
      · omega
      · rw [List.length_cons]

theorem skipSpec_length_le (fmt : List UInt8) : (skipSpec fmt).length ≤ fmt.length :=
  (skipFlags_length_le _).trans (afterRun_length_le fmt)

end

section

variable {fmt text : List UInt8} {args : List Arg} {whole : Bool} {w : Window} {fuel : ℕ}

theorem Prints.complete_iff (h : Prints fmt args text whole) : whole = true ↔ Complete fmt := by
  induction h with
  | done => exact iff_of_true rfl Complete.done
  | plain hc h ih =>
    refine ih.trans ⟨Complete.plain hc, fun hcomplete => ?_⟩
    cases hcomplete with
    | plain _ h => exact h
    | directive => exact absurd rfl hc
  | directive hspec hpiece h ih =>
    have hskip := (readSpec_skip hspec).symm
    refine ih.trans ⟨Complete.directive hskip, fun hcomplete => ?_⟩
    cases hcomplete with
    | plain hc _ => exact absurd rfl hc
    | directive hskip' h =>
      obtain ⟨-, rfl⟩ := List.cons.inj (hskip.symm.trans hskip')
      exact h
  | cut hspec =>
    have hskip := (readSpec_skip hspec).symm
    refine iff_of_false (by simp) (fun hcomplete => ?_)
    cases hcomplete with
    | plain hc _ => exact absurd rfl hc
    | directive hskip' h => exact absurd (hskip.symm.trans hskip') (by simp)

/-- Text without a directive is printed as it is. -/
theorem Prints.literal {a : List UInt8} (ha : 37 ∉ a) (h : Prints fmt args text whole) :
    Prints (a ++ fmt) args (a ++ text) whole := by
  induction a with
  | nil => exact h
  | cons c a ih =>
    rw [List.mem_cons, not_or] at ha
    exact Prints.plain (Ne.symm ha.1) (ih ha.2)

/-- A final `%Z` prints the zero behind a text. -/
theorem prints_zero : Prints [37, 90] [] [0] true := by
  have hspec : readSpec [90] [] = Except.ok (⟨32, 0, true, 0, false, 0, noLen⟩, [90], []) := rfl
  exact Prints.directive hspec Yields.zero Prints.done

/-- `%s` prints the bytes in front of the zero. -/
theorem Prints.string {a : List UInt8} (ha : 0 ∉ a) (rest : List UInt8)
    (h : Prints fmt args text whole) :
    Prints (37 :: 115 :: fmt) (.chars (a ++ 0 :: rest) :: args) (a ++ text) whole := by
  have hspec : readSpec (115 :: fmt) (.chars (a ++ 0 :: rest) :: args) =
      Except.ok (⟨32, 0, true, 0, false, 0, noLen⟩, 115 :: fmt, .chars (a ++ 0 :: rest) :: args) :=
    rfl
  exact Prints.directive hspec (Yields.terminated rfl ha) h

/-- The loop ends at the end of the buffer. -/
theorem vslprintfFrom_full (hfull : ¬ w.buf < w.last) (hfuel : fmt.length < fuel) :
    vslprintfFrom fuel w fmt args = Except.ok w := by
  obtain ⟨fuel, rfl⟩ := Nat.exists_eq_succ_of_ne_zero (Nat.ne_zero_of_lt hfuel)
  cases fmt with
  | nil => rfl
  | cons c fmt => rw [Nat.succ_eq_add_one, vslprintfFrom, if_neg hfull, pure_eq_ok]

/-- What becomes of a text: it is emitted, and where it ends at a directive
that is cut off, with room behind it, the call has no result. -/
def outcome (whole : Bool) (text : List UInt8) (w : Window) : Exec Window :=
  if whole = false ∧ text.length < w.room then undefined else Except.ok (w.emit text)

theorem outcome_full (hfull : ¬ w.buf < w.last) : outcome whole text w = Except.ok w := by
  unfold outcome
  rw [Window.emit_full hfull, if_neg]
  unfold Window.room
  omega

theorem outcome_whole (text : List UInt8) (w : Window) :
    outcome true text w = Except.ok (w.emit text) := if_neg (by simp)

theorem outcome_cut (hlt : w.buf < w.last) : outcome false [] w = undefined :=
  if_pos ⟨rfl, Nat.sub_pos_of_lt hlt⟩

/-- One piece comes after the other. -/
theorem outcome_append (whole : Bool) (piece text : List UInt8) (w : Window) :
    outcome whole (piece ++ text) w = outcome whole text (w.emit piece) := by
  have hroom : (piece ++ text).length < w.room ↔ text.length < (w.emit piece).room := by
    rw [Window.room_emit, List.length_append]
    omega
  unfold outcome
  rw [Window.emit_append]
  simp only [hroom]

/-- A format with its arguments emits what it prints, and comes to a directive
that is cut off if there is room behind that. -/
theorem Prints.run (h : Prints fmt args text whole) (w : Window) (hfuel : fmt.length < fuel) :
    vslprintfFrom fuel w fmt args = outcome whole text w := by
  induction h generalizing w fuel with
  | done =>
    obtain ⟨fuel, rfl⟩ := Nat.exists_eq_succ_of_ne_zero (Nat.ne_zero_of_lt hfuel)
    exact (outcome_whole [] w).symm
  | @plain c fmt text args whole hc h ih =>
    by_cases hlt : w.buf < w.last
    · obtain ⟨fuel, rfl⟩ := Nat.exists_eq_succ_of_ne_zero (Nat.ne_zero_of_lt hfuel)
      rw [List.length_cons] at hfuel
      rw [Nat.succ_eq_add_one, vslprintfFrom, if_pos hlt, if_neg hc, Window.put_eq hlt, ok_bind,
        ih _ (by omega), ← outcome_append, List.singleton_append]
    · rw [vslprintfFrom_full hlt hfuel, outcome_full hlt]
  | @directive c fmt fmt' piece text args args' args'' s whole hspec hpiece h ih =>
    by_cases hlt : w.buf < w.last
    · obtain ⟨fuel, rfl⟩ := Nat.exists_eq_succ_of_ne_zero (Nat.ne_zero_of_lt hfuel)
      have hshort : fmt'.length < fmt.length := by
        have hle := skipSpec_length_le fmt
        rw [← readSpec_skip hspec, List.length_cons] at hle
        omega
      rw [List.length_cons] at hfuel
      rw [Nat.succ_eq_add_one, vslprintfFrom, if_pos hlt, if_pos rfl, hspec, ok_bind]
      dsimp only
      rw [hpiece.convert_eq hlt, ok_bind, ih _ (by omega), ← outcome_append]
    · rw [vslprintfFrom_full hlt hfuel, outcome_full hlt]
  | cut hspec =>
    by_cases hlt : w.buf < w.last
    · obtain ⟨fuel, rfl⟩ := Nat.exists_eq_succ_of_ne_zero (Nat.ne_zero_of_lt hfuel)
      rw [Nat.succ_eq_add_one, vslprintfFrom, if_pos hlt, if_pos rfl, hspec, ok_bind]
      dsimp only
      rw [Window.put_eq hlt, ok_bind, outcome_cut hlt]
    · rw [vslprintfFrom_full hlt hfuel, outcome_full hlt]

/-- The text of a format is the one that the formatter writes. -/
theorem Prints.vslprintf_eq (h : Prints fmt args text whole) (w : Window) :
    vslprintf w fmt args = outcome whole text w := h.run w (Nat.lt_succ_self _)

theorem Prints.emits (h : Prints fmt args text true) (w : Window) :
    vslprintf w fmt args = Except.ok (w.emit text) := by
  rw [h.vslprintf_eq w, outcome_whole]

end

/-- The text that the formatter writes if the buffer is large enough. -/
def Unlimited (fmt : List UInt8) (args : List Arg) (text : List UInt8) : Prop :=
  ∀ w : Window, text.length ≤ w.room →
    ∃ w', vslprintf w fmt args = Except.ok w' ∧ w'.since w.buf = text

theorem Prints.unlimited {fmt text : List UInt8} {args : List Arg}
    (h : Prints fmt args text true) : Unlimited fmt args text :=
  fun w hroom => ⟨_, h.emits w, by rw [Window.since_emit, List.take_of_length_le hroom]⟩

/-- **The formatter is bounded and truncates**: it writes between `buf` and `last` only,
and there as much of its unlimited text as there is room for. -/
theorem vslprintf_truncates (fmt : List UInt8) (args : List Arg) (hcomplete : Complete fmt)
    (hargs : Matching fmt args) : ∃ text, Unlimited fmt args text ∧
      ∀ w : Window, ∃ w', vslprintf w fmt args = Except.ok w' ∧
        w.buf ≤ w'.buf ∧ w'.buf ≤ w.last ∧
        (∀ a, a < w.buf ∨ w.last ≤ a → w'.byte a = w.byte a) ∧
        w'.since w.buf = text.take (w.last - w.buf) := by
  obtain ⟨text, whole, hprints⟩ := hargs
  obtain rfl := hprints.complete_iff.mpr hcomplete
  refine ⟨text, hprints.unlimited, fun w => ⟨_, hprints.emits w, ?_, ?_, ?_, ?_⟩⟩
  · rw [Window.emit_buf]
    omega
  · rw [← Window.emit_last w text]
    exact (w.emit text).le
  · exact fun a ha => Window.emit_byte_outside w text ha
  · exact Window.since_emit w text

theorem vslprintf_truncates_number : ∃ text, Unlimited (bytesOf "%d") [.word 7] text ∧
    ∀ w : Window, ∃ w', vslprintf w (bytesOf "%d") [.word 7] = Except.ok w' ∧
      w.buf ≤ w'.buf ∧ w'.buf ≤ w.last ∧
      (∀ a, a < w.buf ∨ w.last ≤ a → w'.byte a = w.byte a) ∧
      w'.since w.buf = text.take (w.last - w.buf) :=
  vslprintf_truncates _ _ (Complete.directive rfl Complete.done)
    ⟨_, _, Prints.directive rfl (Yields.integer rfl) Prints.done⟩

/-- `hcore_snprintf(buf, max, ...)`, and the memory that it leaves. -/
def snprintf (byte : ℕ → UInt8) (buf max : ℕ) (fmt : List UInt8) (args : List Arg) :
    Exec (ℕ → UInt8) := do
  let w ← vslprintf ⟨byte, buf, buf + max, Nat.le_add_right ..⟩ fmt args
  pure w.byte

/-- The text is stored from `buf` on as far as there is room, and nothing else changes. -/
theorem snprintf_eq {fmt text : List UInt8} {args : List Arg} (byte : ℕ → UInt8) (buf max : ℕ)
    (h : Prints fmt args text true) :
    ∃ byte', snprintf byte buf max fmt args = Except.ok byte' ∧
      (∀ i (h : i < text.length), i < max → byte' (buf + i) = text[i]) ∧
      ∀ a, a < buf ∨ buf + max ≤ a → byte' a = byte a := by
  let w : Window := ⟨byte, buf, buf + max, Nat.le_add_right ..⟩
  have hlen : w.room = max := Nat.add_sub_cancel_left ..
  refine ⟨(w.emit text).byte, ?_, fun i hi hmax => ?_, fun a ha => ?_⟩
  · rw [snprintf, h.emits w, ok_bind, pure_eq_ok]
  · exact Window.emit_byte w text (by omega) hi
  · exact Window.emit_byte_outside w text ha

/-- No read behind the zero of the format: the call has a result. -/
def StaysInFormat (w : Window) (fmt : List UInt8) (args : List Arg) : Prop :=
  ∃ w', vslprintf w fmt args = Except.ok w'

/-- **The formatter stays in its format** exactly if no directive is cut off, or the
text in front of that directive fills the buffer. -/
theorem vslprintf_stays_iff (fmt : List UInt8) (args : List Arg) (hargs : Matching fmt args)
    (w : Window) : StaysInFormat w fmt args ↔
      (Complete fmt ∨ ∃ text whole, Prints fmt args text whole ∧ w.room ≤ text.length) := by
  obtain ⟨text, whole, hprints⟩ := hargs
  constructor
  · rintro ⟨w', hrun⟩
    rw [hprints.vslprintf_eq w, outcome] at hrun
    split at hrun
    · cases hrun
    · next hstays =>
      by_cases hwhole : whole = true
      · exact Or.inl (hprints.complete_iff.mp hwhole)
      · refine Or.inr ⟨text, whole, hprints, not_lt.mp (fun hlt => hstays ⟨?_, hlt⟩)⟩
        simpa using hwhole
  · rintro (hcomplete | ⟨text', whole', hprints', hroom⟩)
    · obtain rfl := hprints.complete_iff.mpr hcomplete
      exact ⟨_, hprints.emits w⟩
    · exact ⟨_, by rw [hprints'.vslprintf_eq w, outcome, if_neg (by omega)]⟩

/-- A buffer of one byte. -/
def oneByte : Window := ⟨fun _ => 0, 0, 1, Nat.zero_le 1⟩

theorem vslprintf_stays_iff_percent : StaysInFormat oneByte (bytesOf "%") [] ↔
    (Complete (bytesOf "%") ∨
      ∃ text whole, Prints (bytesOf "%") [] text whole ∧ oneByte.room ≤ text.length) :=
  vslprintf_stays_iff _ _ ⟨_, _, Prints.cut rfl⟩ oneByte

/-- A final `%` is copied with the zero behind it. -/
theorem final_percent_reads_on :
    ¬ ∀ fmt args, Matching fmt args → ∀ w, StaysInFormat w fmt args := by
  intro h
  have hcut : Prints (bytesOf "%") [] [] false := Prints.cut rfl
  obtain ⟨w', hrun⟩ := h (bytesOf "%") [] ⟨_, _, hcut⟩ oneByte
  rw [hcut.vslprintf_eq oneByte, outcome_cut (by decide)] at hrun
  cases hrun

end HCore.FormatText
