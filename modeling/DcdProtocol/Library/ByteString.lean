import Mathlib

/-!
# Byte strings
-/

namespace DcdProtocol.Library

abbrev Byte := Fin 256

instance byteNeZero : NeZero 256 := ⟨by decide⟩

/-- A string of bytes, ordered lexicographically. -/
abbrev Bytes := List Byte

end DcdProtocol.Library
