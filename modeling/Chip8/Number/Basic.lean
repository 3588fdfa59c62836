import Chip8.Number.Binary64

/-!
# Numbers

Rates and times are integers or binary64 numbers. Integers are combined exactly, except that the
quotient of two integers is the nearest binary64 number. An operation on numbers of both kinds
first takes the integer to the nearest binary64 number, which fails if the integer is too large.
-/

set_option autoImplicit false

namespace Chip8

/-- An integer, or a measured number in binary64. -/
inductive Number where
  | int (z : Int)
  | real (x : Float)

namespace Number

/-- The binary64 number nearest to a number. -/
def toFloat : Number → Except ArithmeticError Float
  | int z => Binary64.ofInt z
  | real x => .ok x

/-- Combines two integers exactly, and numbers of which one is real in binary64. -/
def combine (onInts : Int → Int → Int) (onFloats : Float → Float → Float) :
    Number → Number → Except ArithmeticError Number
  | int a, int b => .ok (int (onInts a b))
  | a, b => do return real (onFloats (← a.toFloat) (← b.toFloat))

/-- The quotient of two numbers. -/
def div : Number → Number → Except ArithmeticError Number
  | int a, int b => do return real (← Binary64.ofRatio a b)
  | a, b => do
    let x ← a.toFloat
    let y ← b.toFloat
    if y == 0.0 then throw .divisionByZero
    return real (x / y)

/-- Whether the first number is larger than the second. An integer too large for binary64 lies
beyond every finite number on its side of zero. -/
def exceeds : Number → Number → Bool
  | int a, int b => b < a
  | a, b =>
    match a.toFloat, b.toFloat with
    | .ok x, .ok y => y < x
    | .error _, _ => match a with
      | int z => 0 < z
      | real _ => false
    | _, .error _ => match b with
      | int z => z < 0
      | real _ => false

/-- Whether a number is zero or less. -/
def atMostZero : Number → Bool
  | int z => z ≤ 0
  | real x => x ≤ 0.0

/-- The integer part of a number. -/
def whole : Number → Except ArithmeticError Int
  | int z => .ok z
  | real x => Binary64.truncate x

instance : Quantity Number where
  ofInt := int
  zero := real 0.0
  one := real 1.0
  add := combine (· + ·) (· + ·)
  sub := combine (· - ·) (· - ·)
  mul := combine (· * ·) (· * ·)
  div := div
  exceeds := exceeds
  atMostZero := atMostZero
  whole := whole

end Number

end Chip8
