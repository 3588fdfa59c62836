import Chip8.Instruction.Mnemonic
import Chip8.Number.Bits

/-!
# Program listings

A program is listed word by word: the address of the word, the word and its mnemonic. A byte left
over at the end is not listed. The elements need not be bytes; two neighbours `a`, `b` are joined
as `256 a ||| b`, which is the word they spell when both are bytes.
-/

set_option autoImplicit false

namespace Chip8

/-- One line of a listing. -/
structure ListingLine where
  address : Int
  opcode : Int
  text : String
  deriving DecidableEq, Repr

namespace ListingLine

/-- The line for the neighbours `high` and `low` at an address. -/
def ofPair (address high low : Int) : ListingLine :=
  let opcode := Bits.or (high * 256) low
  ⟨address, opcode, disassemble opcode⟩

/-- The line as it is printed. -/
def print (line : ListingLine) : String :=
  Hex.padded 3 line.address ++ ": " ++ Hex.padded 4 line.opcode ++ "  " ++ line.text

end ListingLine

/-- The listing of a program whose first byte lies at `origin`. -/
def listing (origin : Int) : List Int → List ListingLine
  | high :: low :: rest => .ofPair origin high low :: listing (origin + 2) rest
  | _ => []

end Chip8
