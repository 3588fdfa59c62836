/-!
# Extents

Whether a block of cells can be laid out. The lengths of its edges are signed 64-bit numbers, and
so is the number of bytes that its edges other than zero span, one byte a cell. How much memory
there is for the block is left out: one that passes these limits is laid out.
-/

set_option autoImplicit false

namespace Chip8

/-- Why a block of cells cannot be laid out. -/
inductive ExtentError where
  /-- An edge or the number of bytes cannot be counted. -/
  | uncountable
  deriving DecidableEq, Repr

namespace Extent

/-- The first number of bytes that cannot be counted. -/
def countLimit : Nat := 0x8000000000000000

/-- The number of bytes that the edges of a block span, apart from edges of length zero. -/
def span (edges : List Nat) : Nat :=
  (edges.filter (0 < ·)).foldl (· * ·) 1

/-- Refuses a block that cannot be laid out. -/
def check (edges : List Nat) : Except ExtentError Unit :=
  if countLimit ≤ span edges then .error .uncountable else .ok ()

/-- Whether an integer is a signed 64-bit number. -/
def fits (z : Int) : Bool :=
  Int64.minValue.toInt ≤ z && z ≤ Int64.maxValue.toInt

/-- The length of an edge that is given as an integer. -/
def length (z : Int) : Except ExtentError Nat :=
  if fits z && 0 ≤ z then .ok z.toNat else .error .uncountable

/-- The length of an edge of `n` places after each has been repeated `scale` times. The length is
a 64-bit number, and so what goes beyond the largest starts again from the smallest. -/
def stretch (scale : Int) (n : Nat) : Except ExtentError Nat :=
  length (Int64.ofInt (scale * n)).toInt

end Extent

end Chip8
