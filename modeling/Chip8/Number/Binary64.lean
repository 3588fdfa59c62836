import Chip8.Number.Quantity

/-!
# Binary64 numbers and integers

The step between exact integers and binary64 numbers. `ofRatio` gives the binary64 number nearest
to a quotient of integers, and of two that are equally near the one with an even significand;
`truncate` gives the integer part of a binary64 number. Both are computed with integers from the
bits of the number.

A finite positive binary64 number is `m * 2 ^ q` with `m < 2 ^ 53` and `-1074 ≤ q`. If `q` is the
least exponent possible, or `2 ^ 52 ≤ m`, then its bits are `(q + 1074) * 2 ^ 52 + m`, and this
stays right when rounding has carried `m` to `2 ^ 53`.
-/

set_option autoImplicit false

namespace Chip8.Binary64

/-- The quotient of two natural numbers, rounded to the nearest integer; a tie goes to the even
neighbour. -/
def roundedDiv (num den : Nat) : Nat :=
  let q := num / den
  let r := num % den
  if den < 2 * r ∨ (den = 2 * r ∧ q % 2 = 1) then q + 1 else q

/-- The largest `e` with `2 ^ e ≤ num / den`, for positive numbers. -/
def floorLog2 (num den : Nat) : Int :=
  let e : Int := num.log2 - den.log2
  let reached := if 0 ≤ e then den <<< e.toNat ≤ num else den ≤ num <<< (-e).toNat
  if reached then e else e - 1

/-- The least exponent of a binary64 number. -/
def minExponent : Int := -1074

/-- The number of bits of the fraction field. -/
def fractionSize : Nat := 52

/-- The exponent field of the infinite numbers and of those that are no numbers. -/
def topExponent : Nat := 0x7FF

/-- The bits of the infinite binary64 number. -/
def infinityBits : Nat := topExponent <<< fractionSize

/-- The bits of the binary64 number nearest to a quotient of positive numbers, if it is finite. -/
def ratioBits? (num den : Nat) : Option Nat :=
  let q := max minExponent (floorLog2 num den - fractionSize)
  let m := if 0 ≤ q then roundedDiv num (den <<< q.toNat)
    else roundedDiv (num <<< (-q).toNat) den
  let bits := (q - minExponent).toNat <<< fractionSize + m
  if bits < infinityBits then some bits else none

/-- The binary64 number nearest to a quotient of integers. -/
def ofRatio (num den : Int) : Except ArithmeticError Float :=
  if den = 0 then .error .divisionByZero
  else
    match if num = 0 then some 0 else ratioBits? num.natAbs den.natAbs with
    | none => .error .tooLarge
    | some bits =>
      let value := Float.ofBits (UInt64.ofNat bits)
      .ok (if (num < 0) = (den < 0) then value else -value)

/-- The binary64 number nearest to an integer. -/
def ofInt (z : Int) : Except ArithmeticError Float :=
  ofRatio z 1

/-- The integer part of a positive finite binary64 number with given fields. Its value is the
fraction with a leading one, times a power of two. -/
def truncateFields (exponent fraction : Nat) : Nat :=
  if exponent = 0 then 0
  else
    let m := 1 <<< fractionSize + fraction
    if 1075 ≤ exponent then m <<< (exponent - 1075) else m >>> (1075 - exponent)

/-- The integer part of a binary64 number. -/
def truncate (x : Float) : Except ArithmeticError Int :=
  let bits := x.toBits.toNat
  let exponent := (bits >>> fractionSize) &&& topExponent
  let fraction := bits % (1 <<< fractionSize)
  if exponent = topExponent then .error (if fraction = 0 then .tooLarge else .notANumber)
  else
    let magnitude := truncateFields exponent fraction
    .ok (if bits >>> 63 = 0 then magnitude else -magnitude)

end Chip8.Binary64
