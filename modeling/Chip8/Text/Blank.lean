/-!
# Blank characters around a numeral

The characters that may surround a numeral. Below 128 these are the space and the five controls
from the tabulator to the carriage return; above, every character with the Unicode property
`White_Space`.
-/

set_option autoImplicit false

namespace Chip8.Text

/-- The ranges of blank characters, first and last code point. -/
def blankRanges : List (Nat × Nat) := [
  (0x9, 0xD), (0x20, 0x20), (0x85, 0x85), (0xA0, 0xA0), (0x1680, 0x1680), (0x2000, 0x200A),
  (0x2028, 0x2029), (0x202F, 0x202F), (0x205F, 0x205F), (0x3000, 0x3000)]

/-- Whether a character is blank. -/
def isBlank (c : Char) : Bool :=
  blankRanges.any fun (first, last) => first ≤ c.toNat && c.toNat ≤ last

/-- A list of characters without the blank ones at its two ends. -/
def trimBlanks (cs : List Char) : List Char :=
  ((cs.dropWhile isBlank).reverse.dropWhile isBlank).reverse

end Chip8.Text
