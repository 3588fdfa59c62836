/-!
# Bitwise operations on integers

Integers are read in two's complement with infinitely many sign bits. An operation is carried out
on natural numbers: on a nonnegative integer itself, and on the complement of a negative one.
-/

set_option autoImplicit false

namespace Chip8.Bits

/-- The bits of `m` that are not set in `n`. -/
def clear (m n : Nat) : Nat :=
  m ^^^ (m &&& n)

/-- The conjunction of two integers, bit by bit. -/
def and : Int → Int → Int
  | .ofNat m, .ofNat n => .ofNat (m &&& n)
  | .ofNat m, .negSucc n => .ofNat (clear m n)
  | .negSucc m, .ofNat n => .ofNat (clear n m)
  | .negSucc m, .negSucc n => .negSucc (m ||| n)

/-- The disjunction of two integers, bit by bit. -/
def or : Int → Int → Int
  | .ofNat m, .ofNat n => .ofNat (m ||| n)
  | .ofNat m, .negSucc n => .negSucc (clear n m)
  | .negSucc m, .ofNat n => .negSucc (clear m n)
  | .negSucc m, .negSucc n => .negSucc (m &&& n)

/-- The exclusive disjunction of two integers, bit by bit. -/
def xor : Int → Int → Int
  | .ofNat m, .ofNat n => .ofNat (m ^^^ n)
  | .ofNat m, .negSucc n => .negSucc (m ^^^ n)
  | .negSucc m, .ofNat n => .negSucc (m ^^^ n)
  | .negSucc m, .negSucc n => .ofNat (m ^^^ n)

end Chip8.Bits
