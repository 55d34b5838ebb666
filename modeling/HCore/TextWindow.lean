import HCore.Machine
import Mathlib.Data.List.TakeDrop

/-!
Text written through a cursor into memory that ends. A store at the end is
undefined; what a caller that looks at the end first makes of a text is its
emission, as much of it as there is room for. Emissions of texts one behind
the other are the emission of the whole text, so a writer is bounded and
truncates as a whole if it does so in each of its parts.
-/

namespace HCore.TextWindow

open Machine

/-- Memory with a cursor and the end of the part that may be written. -/
@[ext]
structure Window where
  byte : ℕ → UInt8
  buf : ℕ
  last : ℕ
  le : buf ≤ last

namespace Window

def room (w : Window) : ℕ := w.last - w.buf

/-- The window behind a store at its cursor. -/
def next (w : Window) (c : UInt8) (h : w.buf < w.last) : Window :=
  ⟨Function.update w.byte w.buf c, w.buf + 1, w.last, h⟩

/-- `*buf++ = c`. -/
def put (w : Window) (c : UInt8) : Exec Window :=
  if h : w.buf < w.last then pure (w.next c h) else undefined

/-- The store of a text, byte by byte. -/
def puts (w : Window) : List UInt8 → Exec Window
  | [] => pure w
  | c :: text => do
    let w ← w.put c
    w.puts text

/-- As much of a text as there is room for. -/
def emit (w : Window) : List UInt8 → Window
  | [] => w
  | c :: text => if h : w.buf < w.last then (w.next c h).emit text else w

/-- The bytes from an address on up to the cursor. -/
def since (w : Window) (start : ℕ) : List UInt8 :=
  (List.range (w.buf - start)).map (fun i => w.byte (start + i))

variable {w : Window} {text : List UInt8} {c : UInt8}

@[simp] theorem next_buf (h : w.buf < w.last) : (w.next c h).buf = w.buf + 1 := rfl

@[simp] theorem next_last (h : w.buf < w.last) : (w.next c h).last = w.last := rfl

theorem next_byte_self (h : w.buf < w.last) : (w.next c h).byte w.buf = c := Function.update_self ..

theorem next_byte_of_ne (h : w.buf < w.last) {a : ℕ} (ha : a ≠ w.buf) :
    (w.next c h).byte a = w.byte a := Function.update_of_ne ha ..

@[simp] theorem emit_nil (w : Window) : w.emit [] = w := rfl

theorem emit_cons_of_lt (h : w.buf < w.last) : w.emit (c :: text) = (w.next c h).emit text :=
  dif_pos h

/-- There is no room left. -/
theorem emit_full (h : ¬ w.buf < w.last) : w.emit text = w := by
  cases text with
  | nil => rfl
  | cons c text => exact dif_neg h

theorem emit_append (w : Window) (a b : List UInt8) : w.emit (a ++ b) = (w.emit a).emit b := by
  induction a generalizing w with
  | nil => rfl
  | cons c a ih =>
    rw [List.cons_append]
    by_cases h : w.buf < w.last
    · rw [emit_cons_of_lt h, emit_cons_of_lt h, ih]
    · rw [emit_full h, emit_full h, emit_full h]

theorem emit_last (w : Window) (text : List UInt8) : (w.emit text).last = w.last := by
  induction text generalizing w with
  | nil => rfl
  | cons c text ih =>
    by_cases h : w.buf < w.last
    · rw [emit_cons_of_lt h, ih, next_last]
    · rw [emit_full h]

theorem emit_buf (w : Window) (text : List UInt8) :
    (w.emit text).buf = w.buf + min w.room text.length := by
  induction text generalizing w with
  | nil => simp
  | cons c text ih =>
    unfold room at *
    by_cases h : w.buf < w.last
    · rw [emit_cons_of_lt h, ih, next_buf, next_last, List.length_cons]
      omega
    · rw [emit_full h]
      omega

theorem room_emit (w : Window) (text : List UInt8) :
    (w.emit text).room = w.room - text.length := by
  have hbuf := emit_buf w text
  have hlast := emit_last w text
  unfold room at *
  omega

/-- Nothing in front of the cursor or from the end on is written. -/
theorem emit_byte_outside (w : Window) (text : List UInt8) {a : ℕ} (h : a < w.buf ∨ w.last ≤ a) :
    (w.emit text).byte a = w.byte a := by
  induction text generalizing w with
  | nil => rfl
  | cons c text ih =>
    by_cases hlt : w.buf < w.last
    · rw [emit_cons_of_lt hlt, ih _ (by rw [next_buf, next_last]; omega),
        next_byte_of_ne hlt (by omega)]
    · rw [emit_full hlt]

theorem emit_byte (w : Window) (text : List UInt8) {i : ℕ} (hi : i < w.room)
    (hi' : i < text.length) : (w.emit text).byte (w.buf + i) = text[i] := by
  induction text generalizing w i with
  | nil => simp at hi'
  | cons c text ih =>
    unfold room at hi
    have hlt : w.buf < w.last := by omega
    rw [emit_cons_of_lt hlt]
    cases i with
    | zero =>
      rw [emit_byte_outside _ _ (by rw [next_buf]; omega), Nat.add_zero, next_byte_self]
      rfl
    | succ i =>
      have hroom : i < (w.next c hlt).room := by
        unfold room
        rw [next_buf, next_last]
        omega
      have hrest := ih (w.next c hlt) hroom (by simpa using hi')
      rw [next_buf, Nat.add_assoc, Nat.add_comm 1 i] at hrest
      rw [hrest]
      rfl

/-- What an emission leaves behind its beginning. -/
theorem since_emit (w : Window) (text : List UInt8) :
    (w.emit text).since w.buf = text.take w.room := by
  refine List.ext_getElem ?_ (fun i hi hi' => ?_)
  · unfold since
    rw [List.length_map, List.length_range, emit_buf, List.length_take]
    omega
  · simp only [since, List.getElem_map, List.getElem_range, List.getElem_take]
    rw [List.length_take] at hi'
    exact emit_byte _ _ (by omega) (by omega)

/-- An emission goes on from what is there. -/
theorem since_emit_of_le (w : Window) (text : List UInt8) {start : ℕ} (h : start ≤ w.buf) :
    (w.emit text).since start = w.since start ++ text.take w.room := by
  have hbuf := emit_buf w text
  have hlen : (w.emit text).buf - start = (w.buf - start) + ((w.emit text).buf - w.buf) := by
    omega
  rw [← since_emit w text, since, hlen, List.range_add, List.map_append, List.map_map]
  congr 1
  · refine List.map_congr_left (fun i hi => emit_byte_outside w text ?_)
    rw [List.mem_range] at hi
    omega
  · refine List.map_congr_left (fun i _ => ?_)
    have haddr : start + (w.buf - start + i) = w.buf + i := by omega
    rw [Function.comp_apply, haddr]

theorem put_eq (h : w.buf < w.last) (c : UInt8) : w.put c = Except.ok (w.emit [c]) := by
  rw [put, dif_pos h, emit_cons_of_lt h, emit_nil, pure_eq_ok]

/-- A text that fits is stored as a whole. -/
theorem puts_eq (h : text.length ≤ w.room) : w.puts text = Except.ok (w.emit text) := by
  induction text generalizing w with
  | nil => rfl
  | cons c text ih =>
    unfold room at h
    rw [List.length_cons] at h
    have hlt : w.buf < w.last := by omega
    have hroom : text.length ≤ (w.next c hlt).room := by
      unfold room
      rw [next_buf, next_last]
      omega
    rw [puts, put, dif_pos hlt, pure_eq_ok, ok_bind, ih hroom, emit_cons_of_lt hlt]

/-- Only what there is room for counts. -/
theorem emit_take (w : Window) (text : List UInt8) {n : ℕ} (h : min w.room text.length ≤ n) :
    w.emit (text.take n) = w.emit text := by
  by_cases hn : text.length ≤ n
  · rw [List.take_of_length_le hn]
  · have hfull : ¬ (w.emit (text.take n)).buf < (w.emit (text.take n)).last := by
      have hle := w.le
      unfold room at h
      rw [emit_buf, emit_last, List.length_take]
      unfold room
      omega
    conv_rhs => rw [← List.take_append_drop n text, emit_append, emit_full hfull]

end Window

end HCore.TextWindow
