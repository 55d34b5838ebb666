import HCore.FormatText

/-!
The full path of a file. The length and the block are those of the joined
path, whichever of the two formats then writes the text, so the text and the
zero behind it are always there and the length belongs to one of them only.
-/

namespace HCore.FullPath

open Machine TextWindow Formatter FormatText

/-- The `hcore_str_t` that is returned, in the memory it points into. -/
structure Str where
  byte : ℕ → UInt8
  data : ℕ
  len : ℕ

/-- `path[0] == HCORE_ABSPATH_SEP`, for the bytes in front of the zero. -/
def IsAbspath (path : List UInt8) : Prop := (path ++ [0]).head? = some 47

instance decidableIsAbspath (path : List UInt8) : Decidable (IsAbspath path) :=
  inferInstanceAs (Decidable (_ = _))

/-- The path that `src` stands for. -/
def pathText (src defPath : List UInt8) : List UInt8 :=
  if IsAbspath src ∨ defPath = [] then src else defPath ++ 47 :: src

/-- The string has the bytes of the text, its length, and a zero at the length. -/
def Str.Terminated (s : Str) (text : List UInt8) : Prop :=
  s.len = text.length ∧ (∀ i (h : i < text.length), s.byte (s.data + i) = text[i]) ∧
    s.byte (s.data + s.len) = 0

section

end

section

variable {src defPath : List UInt8}

end

end HCore.FullPath
