import Mathlib.Data.Nat.Notation

/-!
# Bytes

Strings as the code has them.
-/

namespace Remmy

/-- The bytes of a C string. -/
abbrev Bytes := List UInt8

/-- The bytes of a literal. -/
def text (s : String) : Bytes := s.toList.map Char.toUInt8

/-- The directory separator. -/
def slash : UInt8 := '/'.toUInt8

end Remmy
