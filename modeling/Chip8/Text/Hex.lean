/-!
# Hexadecimal text

Upper-case hexadecimal numerals, as they stand in mnemonics, fault messages and the trace.
`Hex.fixed w n` writes the `w` lowest digits of a number. `Hex.padded w z` writes every digit of
an integer, filled with zeros up to the width `w`, and counts the sign as part of the width.
-/

set_option autoImplicit false

namespace Chip8.Hex

/-- The digit for a value below sixteen, in upper case. -/
def digit (d : Fin 16) : Char :=
  Char.ofNat (if d.val < 10 then 48 + d.val else 55 + d.val)

/-- The `w` lowest digits of `n`, most significant first. -/
def fixedDigits : Nat → Nat → List Char
  | 0, _ => []
  | w + 1, n => fixedDigits w (n / 16) ++ [digit (Fin.ofNat 16 n)]

/-- The `w` lowest digits of `n` as text. -/
def fixed (w n : Nat) : String :=
  String.ofList (fixedDigits w n)

/-- The number of digits that `n` needs, at least one. -/
def width (n : Nat) : Nat :=
  n.log2 / 4 + 1

/-- Every digit of `z` behind its sign, filled with zeros until sign and digits together take
`w` places. -/
def padded (w : Nat) (z : Int) : String :=
  let n := z.natAbs
  if z < 0 then "-" ++ fixed (max (width n) (w - 1)) n else fixed (max (width n) w) n

end Chip8.Hex
