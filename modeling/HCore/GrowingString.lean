import HCore.BitMap
import HCore.FormatText

/-!
The string that grows. A call formats into the room behind the text, and if
the text ends where the block does, it doubles the block and formats again.
That the text was cut is only known by its end, so the block is already
written when memory is refused; and the zero is stored on success only.
-/

namespace HCore.GrowingString

open Machine BitMap TextWindow Formatter FormatText

/-- A block of `n` bytes, with the bytes that it happens to have. There are no
blocks of more than `PTRDIFF_MAX` bytes. -/
structure Fresh (n : ℕ) where
  byte : ℕ → UInt8
  small : n < 2 ^ 63

/-- An allocator: its answer to the request with this number. -/
abbrev Allocator := ℕ → (n : ℕ) → Option (Fresh n)

/-- `hcore_astring_t`, with the number of the requests that have been made for
it and of those that were refused. -/
structure AString where
  data : ℕ → UInt8
  size : ℕ
  len : ℕ
  error : Bool
  created : Bool
  inited : Bool
  requests : ℕ
  refusals : ℕ
  le : len ≤ size
  small : size < 2 ^ 63

/-- `HCORE_ASTRING_DEF_SIZE`. -/
def astringDefSize : ℕ := 64

/-- `hcore_init_astring` with an allocator; there is no string after `HCORE_ERROR`. -/
def initAstring (A : Allocator) (size : ℕ) : Option AString :=
  let size := if size = 0 then astringDefSize else size
  match A 0 size with
  | none => none
  | some fresh =>
    some ⟨fresh.byte, size, 0, false, false, true, 1, 0, Nat.zero_le size, fresh.small⟩

namespace AString

/-- The bytes `data[0..len)`. -/
def content (s : AString) : List UInt8 := (List.range s.len).map s.data

/-- `astr->data + astr->len` and `astr->data + astr->size`. -/
def window (s : AString) : Window := ⟨s.data, s.len, s.size, s.le⟩

/-- The string in the memory that the formatter leaves. -/
def written (s : AString) (last : Window) : AString := { s with data := last.byte }

/-- `astr->size * 2`. -/
def newSize (s : AString) : ℕ := toUInt64 ((s.size * 2 : ℕ) : ℤ)

theorem newSize_eq (s : AString) : s.newSize = s.size * 2 := by
  have hsmall := s.small
  exact toUInt64_of_lt (by omega)

/-- The string in the block that `realloc` answers with. -/
def grow (s : AString) (fresh : Fresh s.newSize) : AString where
  data i := if i < min s.size s.newSize then s.data i else fresh.byte i
  size := s.newSize
  len := s.len
  error := s.error
  created := s.created
  inited := s.inited
  requests := s.requests + 1
  refusals := s.refusals
  le := by
    have hle := s.le
    rw [newSize_eq]
    omega
  small := fresh.small

/-- `astr->error = 1`, after a refusal. -/
def fail (s : AString) : AString :=
  { s with error := true, requests := s.requests + 1, refusals := s.refusals + 1 }

/-- `astr->len = n` and `astr->data[n] = 0`. -/
def close (s : AString) (n : ℕ) (h : n < s.size) : AString :=
  { s with data := Function.update s.data n 0, len := n, le := h.le }

end AString

/-- The loop of `hcore_asnprintf`. -/
def asnprintfFrom (A : Allocator) (fmt : List UInt8) (args : List Arg) :
    ℕ → AString → Exec (ℤ × AString)
  | 0, _ => outOfFuel
  | fuel + 1, astr => do
    let last ← vslprintf astr.window fmt args
    let astr := astr.written last
    if last.buf ≠ astr.size then
      if h : last.buf < astr.size then pure (hcoreOk, astr.close last.buf h) else undefined
    else
      match A astr.requests astr.newSize with
      | none => pure (hcoreError, astr.fail)
      | some fresh => asnprintfFrom A fmt args fuel (astr.grow fresh)

/-- A format of `none` is NULL. A size cannot be doubled more often than it has bits. -/
def asnprintf (A : Allocator) (fmt : Option (List UInt8)) (args : List Arg) (astr : AString) :
    Exec (ℤ × AString) :=
  match fmt with
  | none => pure (hcoreError, astr)
  | some fmt => asnprintfFrom A fmt args 64 astr

/-- The text is behind the content, and the zero behind the text. -/
structure Appended (s : AString) (text : List UInt8) (s' : AString) : Prop where
  content : s'.content = s.content ++ text
  lt : s'.len < s'.size
  zero : s'.data s'.len = 0
  refusals : s'.refusals = s.refusals

/-- The content is kept, and the text begins behind it. -/
structure Refused (s : AString) (text : List UInt8) (s' : AString) : Prop where
  content : s'.content = s.content
  len : s'.len = s.len
  lt : s'.len < s'.size
  error : s'.error = true
  first : text.head? = some (s'.data s'.len)
  refusals : s'.refusals = s.refusals + 1

section

variable {A : Allocator} {s s' : AString} {fmt text : List UInt8} {args : List Arg} {whole : Bool}
  {fuel : ℕ}

theorem content_congr (hlen : s'.len = s.len) (h : ∀ i < s.len, s'.data i = s.data i) :
    s'.content = s.content := by
  unfold AString.content
  rw [hlen]
  exact List.map_congr_left (fun i hi => h i (List.mem_range.mp hi))

theorem content_grow (s : AString) (fresh : Fresh s.newSize) :
    (s.grow fresh).content = s.content := by
  refine content_congr rfl (fun i hi => if_pos ?_)
  have hle := s.le
  rw [AString.newSize_eq]
  omega

theorem content_written (s : AString) (text : List UInt8) :
    (s.written (s.window.emit text)).content = s.content :=
  content_congr rfl (fun _ hi => Window.emit_byte_outside s.window text (Or.inl hi))

theorem since_window (s : AString) : s.window.since 0 = s.content :=
  List.map_congr_left (fun i _ => congrArg s.data (Nat.zero_add i))

theorem emit_window_buf (s : AString) (text : List UInt8) :
    (s.window.emit text).buf = s.len + min (s.size - s.len) text.length :=
  Window.emit_buf s.window text

/-- A text that ends in front of the end of the block is there as a whole. -/
theorem close_appended (hlt : (s.window.emit text).buf < s.size) :
    Appended s text ((s.written (s.window.emit text)).close (s.window.emit text).buf hlt) := by
  have hbuf := emit_window_buf s text
  refine ⟨?_, hlt, Function.update_self .., rfl⟩
  calc
    _ = (s.window.emit text).since 0 := by
      refine List.map_congr_left (fun i hi => ?_)
      rw [Nat.zero_add]
      exact Function.update_of_ne (List.mem_range.mp hi).ne _ _
    _ = s.window.since 0 ++ text.take s.window.room :=
      Window.since_emit_of_le s.window text (Nat.zero_le _)
    _ = s.content ++ text := by
      rw [since_window, List.take_of_length_le]
      change text.length ≤ s.size - s.len
      omega

/-- What a text that fills the block leaves behind the content is its first byte. -/
theorem fail_refused (hlt : s.len < s.size) (hfull : (s.window.emit text).buf = s.size) :
    Refused s text (s.written (s.window.emit text)).fail := by
  have hbuf := emit_window_buf s text
  have hpos : 0 < text.length := by omega
  have hfirst := Window.emit_byte s.window text (Nat.sub_pos_of_lt hlt) hpos
  refine ⟨content_written s text, rfl, hlt, rfl, ?_, rfl⟩
  rw [List.head?_eq_getElem?, List.getElem?_eq_getElem hpos]
  exact congrArg some hfirst.symm

theorem Appended.of_grow {fresh : Fresh (s.written (s.window.emit text)).newSize}
    (h : Appended ((s.written (s.window.emit text)).grow fresh) text s') : Appended s text s' where
  content := by rw [h.content, content_grow, content_written]
  lt := h.lt
  zero := h.zero
  refusals := h.refusals

theorem Refused.of_grow {fresh : Fresh (s.written (s.window.emit text)).newSize}
    (h : Refused ((s.written (s.window.emit text)).grow fresh) text s') : Refused s text s' where
  content := by rw [h.content, content_grow, content_written]
  len := h.len
  lt := h.lt
  error := h.error
  first := h.first
  refusals := h.refusals

/-- The loop ends, and it has appended the text or been refused memory, unless it comes
to a directive that is cut off. The product of the size and what the rounds left can
make of it stays the same. -/
theorem asnprintfFrom_cases (h : Prints fmt args text whole) (hlt : s.len < s.size)
    (hfuel : 2 ^ 64 ≤ s.size * 2 ^ fuel) :
    (whole = false ∧ asnprintfFrom A fmt args fuel s = undefined) ∨
      ∃ ret s', asnprintfFrom A fmt args fuel s = Except.ok (ret, s') ∧
        (ret = hcoreOk ∧ Appended s text s' ∨ ret = hcoreError ∧ Refused s text s') := by
  induction fuel generalizing s with
  | zero =>
    have hsmall := s.small
    omega
  | succ fuel ih =>
    rw [asnprintfFrom, h.vslprintf_eq, outcome]
    split
    · next hcut => exact Or.inl ⟨hcut.1, rfl⟩
    · rw [ok_bind]
      dsimp only
      have hbuf := emit_window_buf s text
      have hsize : (s.written (s.window.emit text)).size = s.size := rfl
      by_cases hfull : (s.window.emit text).buf = (s.written (s.window.emit text)).size
      · rw [if_neg (not_not.mpr hfull)]
        split
        · exact Or.inr ⟨_, _, rfl, Or.inr ⟨rfl, fail_refused hlt hfull⟩⟩
        · next fresh _ =>
          have hdouble : ((s.written (s.window.emit text)).grow fresh).size = s.size * 2 :=
            AString.newSize_eq _
          have hlen : ((s.written (s.window.emit text)).grow fresh).len = s.len := rfl
          rcases @ih ((s.written (s.window.emit text)).grow fresh) (by omega)
              (by rw [hdouble, mul_assoc, ← pow_succ']; exact hfuel) with
            hcut | ⟨ret, s', hrun, happended | hrefused⟩
          · exact Or.inl hcut
          · exact Or.inr ⟨ret, s', hrun, Or.inl ⟨happended.1, happended.2.of_grow⟩⟩
          · exact Or.inr ⟨ret, s', hrun, Or.inr ⟨hrefused.1, hrefused.2.of_grow⟩⟩
      · have hend : (s.window.emit text).buf < (s.written (s.window.emit text)).size := by omega
        rw [if_pos hfull, dif_pos hend]
        exact Or.inr ⟨_, _, rfl, Or.inl ⟨rfl, close_appended hend⟩⟩

theorem asnprintf_cases (A : Allocator) (h : Prints fmt args text whole) (hlt : s.len < s.size) :
    (whole = false ∧ asnprintf A (some fmt) args s = undefined) ∨
      ∃ ret s', asnprintf A (some fmt) args s = Except.ok (ret, s') ∧
        (ret = hcoreOk ∧ Appended s text s' ∨ ret = hcoreError ∧ Refused s text s') :=
  asnprintfFrom_cases h hlt (by omega)

/-- There is a byte behind the content for the zero, whatever is formatted. -/
theorem asnprintfFrom_lt {ret : ℤ} (hlt : s.len < s.size)
    (hrun : asnprintfFrom A fmt args fuel s = Except.ok (ret, s')) : s'.len < s'.size := by
  induction fuel generalizing s with
  | zero => cases hrun
  | succ fuel ih =>
    rw [asnprintfFrom] at hrun
    obtain ⟨last, -, hround⟩ := bind_eq_ok.mp hrun
    dsimp only at hround
    split at hround
    · split at hround
      · next hend =>
        obtain ⟨-, rfl⟩ := Prod.mk.inj (Except.ok.inj hround)
        exact hend
      · cases hround
    · split at hround
      · obtain ⟨-, rfl⟩ := Prod.mk.inj (Except.ok.inj hround)
        exact hlt
      · next fresh _ =>
        have hdouble : ((s.written last).grow fresh).size = s.size * 2 := AString.newSize_eq _
        have hlen : ((s.written last).grow fresh).len = s.len := rfl
        exact ih (by omega) hround

theorem asnprintf_lt {fmt : Option (List UInt8)} {ret : ℤ} (hlt : s.len < s.size)
    (hrun : asnprintf A fmt args s = Except.ok (ret, s')) : s'.len < s'.size := by
  cases fmt with
  | none =>
    obtain ⟨-, rfl⟩ := Prod.mk.inj (Except.ok.inj hrun)
    exact hlt
  | some fmt => exact asnprintfFrom_lt hlt hrun

theorem initAstring_lt {size : ℕ} (h : initAstring A size = some s) : s.len < s.size := by
  unfold initAstring at h
  dsimp only at h
  split at h
  · cases h
  · obtain rfl := Option.some.inj h
    change 0 < if size = 0 then astringDefSize else size
    split
    · decide
    · omega

end

/-- A call with a format and its arguments. -/
structure Call where
  fmt : List UInt8
  args : List Arg

/-- Each of the calls, one after the other, ends, and leaves what it should. -/
def EachCall (A : Allocator) (Q : AString → Call → ℤ → AString → Prop) :
    AString → List Call → Prop
  | _, [] => True
  | s, c :: calls =>
    ∃ ret s', asnprintf A (some c.fmt) c.args s = Except.ok (ret, s') ∧ Q s c ret s' ∧
      EachCall A Q s' calls

/-- An allocator that grants so many requests. -/
def grants (limit : ℕ) : Allocator := fun i n =>
  if h : i < limit ∧ n < 2 ^ 63 then some ⟨fun _ => 0, h.2⟩ else none

/-- A string of one byte. -/
def oneByte : AString :=
  ⟨fun _ => 0, 1, 0, false, false, true, 1, 0, FormatText.oneByte.le, by omega⟩

/-- The strings that calls lead to, and whether one of the calls has appended something. -/
inductive Reached (A : Allocator) : Bool → AString → Prop
  | init {size : ℕ} {s : AString} (h : initAstring A size = some s) : Reached A false s
  | call {appended : Bool} {s s' : AString} {fmt : Option (List UInt8)} {args : List Arg} {ret : ℤ}
    (h : Reached A appended s) (hrun : asnprintf A fmt args s = Except.ok (ret, s')) :
    Reached A (appended || decide (ret = hcoreOk)) s'

theorem Reached.lt {A : Allocator} {appended : Bool} {s : AString} (h : Reached A appended s) :
    s.len < s.size := by
  induction h with
  | init h => exact initAstring_lt h
  | call _ hrun ih => exact asnprintf_lt ih hrun

/-- An error, and the string from before. -/
def Unchanged (s : AString) (ret : ℤ) (s' : AString) : Prop :=
  ret = hcoreError ∧ s'.error = true ∧ s'.len = s.len ∧ s'.content = s.content ∧
    s'.data s'.len = 0

/-- The text that is printed begins with the zero. -/
def ZeroFirst (fmt : List UInt8) (args : List Arg) : Prop :=
  ∃ text whole, Prints fmt args (0 :: text) whole

/-- What is left of a call that is refused memory. -/
theorem asnprintf_refused {A : Allocator} {s s' : AString} {fmt text : List UInt8}
    {args : List Arg} {whole : Bool} {ret : ℤ} (hlt : s.len < s.size)
    (hprints : Prints fmt args text whole)
    (hrun : asnprintf A (some fmt) args s = Except.ok (ret, s'))
    (hrefused : s.refusals < s'.refusals) : ret = hcoreError ∧ Refused s text s' := by
  rcases asnprintf_cases A hprints hlt with ⟨-, hundefined⟩ | ⟨ret', s'', hrun', hends⟩
  · rw [hundefined] at hrun
    cases hrun
  · obtain ⟨rfl, rfl⟩ := Prod.mk.inj (Except.ok.inj (hrun'.symm.trans hrun))
    rcases hends with ⟨-, happended⟩ | hends
    · have hnone := happended.refusals
      omega
    · exact hends

/-- **A refusal leaves the string as it was** exactly if the text begins with a zero: its
first byte is where the zero of the content was. -/
theorem asnprintf_unchanged_iff (A : Allocator) (s s' : AString) (fmt : List UInt8)
    (args : List Arg) (ret : ℤ) (hs : Reached A true s) (hargs : Matching fmt args)
    (hrun : asnprintf A (some fmt) args s = Except.ok (ret, s'))
    (hrefused : s.refusals < s'.refusals) : Unchanged s ret s' ↔ ZeroFirst fmt args := by
  constructor
  · rintro ⟨-, -, -, -, hzero⟩
    obtain ⟨text, whole, hprints⟩ := hargs
    have hfirst := (asnprintf_refused hs.lt hprints hrun hrefused).2.first
    obtain ⟨rest, rfl⟩ := List.head?_eq_some_iff.mp hfirst
    rw [hzero] at hprints
    exact ⟨rest, whole, hprints⟩
  · rintro ⟨text, whole, hprints⟩
    obtain ⟨hret, hleft⟩ := asnprintf_refused hs.lt hprints hrun hrefused
    exact ⟨hret, hleft.error, hleft.len, hleft.content, (Option.some.inj hleft.first).symm⟩

/-- A string of two bytes that holds `a`. -/
def holdsOne : AString :=
  ⟨Function.update (Function.update (fun _ => 0) 0 97) 1 0, 2, 1, false, false, true, 1, 0,
    by omega, by omega⟩

theorem holdsOne_reached : Reached (grants 1) true holdsOne :=
  @Reached.call (grants 1) false ⟨fun _ => 0, 2, 0, false, false, true, 1, 0, by omega, by omega⟩
    holdsOne (some (bytesOf "a")) [] hcoreOk (@Reached.init _ 2 _ rfl) rfl

/-- What `holdsOne` becomes when it is to take a byte more. -/
def overwritten (c : UInt8) : AString :=
  ⟨Function.update holdsOne.data 1 c, 2, 1, true, false, true, 2, 1, by omega, by omega⟩

theorem asnprintf_unchanged_iff_zero :
    Unchanged holdsOne hcoreError (overwritten 0) ↔ ZeroFirst (bytesOf "%Z") [] :=
  asnprintf_unchanged_iff (grants 1) holdsOne (overwritten 0) (bytesOf "%Z") [] hcoreError
    holdsOne_reached ⟨_, _, Prints.directive rfl Yields.zero Prints.done⟩ rfl (by decide)

/-- After a refusal the zero is gone. -/
theorem refused_text_unterminated :
    ¬ ∀ A s s' fmt args ret, Reached A true s → Matching fmt args →
      asnprintf A (some fmt) args s = Except.ok (ret, s') → s.refusals < s'.refusals →
      Unchanged s ret s' := by
  intro h
  have hunchanged := h (grants 1) holdsOne (overwritten 98) (bytesOf "b") [] hcoreError
    holdsOne_reached ⟨_, _, Prints.plain (by decide) Prints.done⟩ rfl (by decide)
  exact absurd hunchanged.2.2.2.2 (by decide)

end HCore.GrowingString
