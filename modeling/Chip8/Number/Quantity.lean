/-!
# Quantities

The engine computes how many instructions a slice of time is worth. `Quantity` lists what it needs
of the numbers it computes with: four operations that may fail, integers among them, a comparison
and the whole part. Rates and times may be given as integers; `zero` and `one` are the measured
quantities that accounts start from, which need not be the integers `0` and `1`.
-/

set_option autoImplicit false

namespace Chip8

/-- Why a computation has no result. -/
inductive ArithmeticError where
  | divisionByZero
  | tooLarge
  | notANumber
  deriving DecidableEq, Repr

/-- Numbers that rates, times and budgets are computed in. -/
class Quantity (α : Type) where
  ofInt : Int → α
  zero : α
  one : α
  add : α → α → Except ArithmeticError α
  sub : α → α → Except ArithmeticError α
  mul : α → α → Except ArithmeticError α
  div : α → α → Except ArithmeticError α
  /-- Whether the first quantity is larger than the second. -/
  exceeds : α → α → Bool
  /-- Whether a quantity is zero or less, and so no rate. -/
  atMostZero : α → Bool
  /-- The integer that is left when the fractional part is dropped. -/
  whole : α → Except ArithmeticError Int

end Chip8
