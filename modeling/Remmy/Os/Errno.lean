import Mathlib.Data.Nat.Notation

/-!
# Error Numbers

The values of `errno` that the code tells apart, and all others.
-/

namespace Remmy.Os

/-- `std::errc` as the code uses it. -/
inductive Errno
  | enoent
  | eintr
  | emfile
  | enfile
  | enametoolong
  | other (code : ℕ)
  deriving DecidableEq

/-- `out_of_descriptors` in `Fd::Open`. -/
def Errno.outOfDescriptors : Errno → Bool
  | .emfile | .enfile => true
  | _ => false

/-- `OpenError`: why `Fd::Open` failed. -/
structure OpenError where
  code : Errno
  retryable : Bool
  deriving DecidableEq

end Remmy.Os
