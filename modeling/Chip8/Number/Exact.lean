import Chip8.Number.Quantity

/-!
# Exact rates and times

The rational numbers as quantities. The engine's account of instructions can then be read without
rounding: no operation fails except a division by zero.
-/

set_option autoImplicit false

namespace Chip8

instance : Quantity Rat where
  ofInt z := z
  zero := 0
  one := 1
  add a b := .ok (a + b)
  sub a b := .ok (a - b)
  mul a b := .ok (a * b)
  div a b := if b = 0 then .error .divisionByZero else .ok (a / b)
  exceeds a b := b < a
  atMostZero a := a ≤ 0
  whole a := .ok (a.num.tdiv a.den)

end Chip8
