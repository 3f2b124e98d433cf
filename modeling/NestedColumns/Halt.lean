/-!
# Computations without a result

A computation can fail with an error, and whoever asked for its result gets the
error in place of it. A number that leaves its width is something else. Nothing
is returned then, the program panics, and no message of its own tells why. So a
panic is not one of the errors, but an outcome beside them.

Where the outcome is passed on together with a state, it is a `Halt` in the place
of an error. A computation that only asks whether it stays within its bounds is
`Checked`, and outside of them has no result at all.

## Main definitions

* `Halt`: Why there is no result.
* `Checked`: A computation that may fail with an error, and may go out of bounds.
-/

namespace NestedColumns

/-- Why a computation has no result. -/
inductive Halt (ε : Type) where
  /-- It fails with an error, which is returned. -/
  | failed (e : ε)
  /-- A number leaves its width, and the program panics. -/
  | panicked
  deriving DecidableEq, Repr

namespace Halt

variable {ε ε' : Type}

/-- The same with another kind of error. -/
def map (f : ε → ε') : Halt ε → Halt ε'
  | .failed e => .failed (f e)
  | .panicked => .panicked

end Halt

/-- A computation that may fail with an error. It has no result if it goes out of bounds. -/
abbrev Checked (ε α : Type) := ExceptT ε Option α

/-- A result or an error that is within bounds. -/
def Checked.ofExcept {ε α : Type} (x : Except ε α) : Checked ε α := ExceptT.mk (some x)

end NestedColumns
