import Mathlib.Data.List.Basic
import Mathlib.Tactic.Ring

/-!
Natural numbers as four bytes, the lowest first, and byte strings behind their
length.
-/

namespace HCore.LittleEndian

def encode32 (n : ℕ) : List UInt8 :=
  [UInt8.ofNat n, UInt8.ofNat (n / 2 ^ 8), UInt8.ofNat (n / 2 ^ 16), UInt8.ofNat (n / 2 ^ 24)]

def decode32 : List UInt8 → ℕ
  | [a, b, c, d] => a.toNat + 2 ^ 8 * b.toNat + 2 ^ 16 * c.toNat + 2 ^ 24 * d.toNat
  | _ => 0

def encodeBytes (bytes : List UInt8) : List UInt8 := encode32 bytes.length ++ bytes

@[simp] theorem encode32_length (n : ℕ) : (encode32 n).length = 4 := rfl

theorem encodeBytes_length (bytes : List UInt8) :
    (encodeBytes bytes).length = 4 + bytes.length := by
  rw [encodeBytes, List.length_append, encode32_length]

theorem decode32_encode32 (n : ℕ) : decode32 (encode32 n) = n % 2 ^ 32 := by
  simp only [encode32, decode32, UInt8.toNat_ofNat']
  omega

theorem decode32_of_lt {n : ℕ} (h : n < 2 ^ 32) : decode32 (encode32 n) = n := by
  rw [decode32_encode32, Nat.mod_eq_of_lt h]

theorem exists_four {bytes : List UInt8} (h : bytes.length = 4) :
    ∃ a b c d, bytes = [a, b, c, d] := by
  match bytes, h with
  | [a, b, c, d], _ => exact ⟨a, b, c, d, rfl⟩

theorem decode32_lt (bytes : List UInt8) : decode32 bytes < 2 ^ 32 := by
  unfold decode32
  split
  · next a b c d =>
    have ha := a.toNat_lt
    have hb := b.toNat_lt
    have hc := c.toNat_lt
    have hd := d.toNat_lt
    omega
  · omega

theorem encode32_decode32 {bytes : List UInt8} (h : bytes.length = 4) :
    encode32 (decode32 bytes) = bytes := by
  obtain ⟨a, b, c, d, rfl⟩ := exists_four h
  have ha := a.toNat_lt
  have hb := b.toNat_lt
  have hc := c.toNat_lt
  have hd := d.toNat_lt
  simp only [decode32, encode32, List.cons.injEq, and_true]
  refine ⟨?_, ?_, ?_, ?_⟩
  all_goals
    apply UInt8.toNat_inj.mp
    rw [UInt8.toNat_ofNat']
    omega

/-- Natural numbers as eight bytes. -/
def encode64 (n : ℕ) : List UInt8 := encode32 n ++ encode32 (n / 2 ^ 32)

def decode64 (bytes : List UInt8) : ℕ :=
  decode32 (bytes.take 4) + 2 ^ 32 * decode32 (bytes.drop 4)

@[simp] theorem encode64_length (n : ℕ) : (encode64 n).length = 8 := rfl

theorem decode64_lt (bytes : List UInt8) : decode64 bytes < 2 ^ 64 := by
  have hlow := decode32_lt (bytes.take 4)
  have hhigh := decode32_lt (bytes.drop 4)
  unfold decode64
  omega

theorem decode64_encode64 (n : ℕ) : decode64 (encode64 n) = n % 2 ^ 64 := by
  have htake : (encode64 n).take 4 = encode32 n := rfl
  have hdrop : (encode64 n).drop 4 = encode32 (n / 2 ^ 32) := rfl
  rw [decode64, htake, hdrop, decode32_encode32, decode32_encode32]
  omega

theorem decode64_of_lt {n : ℕ} (h : n < 2 ^ 64) : decode64 (encode64 n) = n := by
  rw [decode64_encode64, Nat.mod_eq_of_lt h]

end HCore.LittleEndian
