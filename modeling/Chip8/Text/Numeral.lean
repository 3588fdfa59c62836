import Chip8.Text.Blank
import Chip8.Text.DecimalDigit

/-!
# Integer numerals

An integer as it is typed: blanks, a sign, decimal digits of any script with single underscores
between them, and blanks. Leading zeros are allowed; more than `digitLimit` digits are not.
-/

set_option autoImplicit false

namespace Chip8.Text

/-- The most digits that a numeral may have. -/
def digitLimit : Nat := 4300

/-- The values of digits that stand alone or between single underscores. -/
def digitRun? : List Char → Option (List Nat)
  | [] => none
  | [c] => (digitValue? c).map ([·])
  | c :: '_' :: rest => do
    let d ← digitValue? c
    let ds ← digitRun? rest
    return d :: ds
  | c :: rest => do
    let d ← digitValue? c
    let ds ← digitRun? rest
    return d :: ds

/-- The number that a list of digits is written for, most significant first. -/
def ofDigits (digits : List Nat) : Nat :=
  digits.foldl (fun n d => 10 * n + d) 0

/-- The value of a numeral without a sign. -/
def unsigned? (cs : List Char) : Option Nat := do
  let digits ← digitRun? cs
  if digitLimit < digits.length then none else some (ofDigits digits)

/-- The integer that a text is written for. -/
def integer? (s : String) : Option Int :=
  match trimBlanks s.toList with
  | '+' :: rest => (unsigned? rest).map Int.ofNat
  | '-' :: rest => (unsigned? rest).map fun n => -(n : Int)
  | cs => (unsigned? cs).map Int.ofNat

end Chip8.Text
