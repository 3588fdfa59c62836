import Chip8.Instruction.Decode
import Chip8.Text.Hex

/-!
# Mnemonics

The assembler text of an instruction, and of an arbitrary integer taken as an instruction word.
Registers, constants and addresses are written with one, two and three hexadecimal digits; the
row count of a sprite is decimal. An integer that is no word, or a word that decodes to nothing,
is shown behind three question marks.
-/

set_option autoImplicit false

namespace Chip8

/-- The name of a register. -/
def Register.name (x : Register) : String :=
  "V" ++ Hex.fixed 1 x.val

/-- A constant with two digits. -/
def Byte.digits (k : Byte) : String :=
  Hex.fixed 2 k.toNat

/-- An address with three digits. -/
def Address.digits (a : Address) : String :=
  Hex.fixed 3 a.val

/-- The name of an operation on two registers. -/
def Alu.name : Alu → String
  | .copy => "LD"
  | .or => "OR"
  | .and => "AND"
  | .xor => "XOR"
  | .add => "ADD"
  | .subtract => "SUB"
  | .subtractFrom => "SUBN"

namespace Instruction

/-- The assembler text of an instruction. -/
def mnemonic : Instruction → String
  | sys a => "SYS " ++ Address.digits a
  | clear => "CLS"
  | ret => "RET"
  | jump a => "JP " ++ Address.digits a
  | call a => "CALL " ++ Address.digits a
  | skipIfEqual x k => "SE " ++ Register.name x ++ ", " ++ Byte.digits k
  | skipUnlessEqual x k => "SNE " ++ Register.name x ++ ", " ++ Byte.digits k
  | skipIfSame x y => "SE " ++ Register.name x ++ ", " ++ Register.name y
  | skipUnlessSame x y => "SNE " ++ Register.name x ++ ", " ++ Register.name y
  | load x k => "LD " ++ Register.name x ++ ", " ++ Byte.digits k
  | addConstant x k => "ADD " ++ Register.name x ++ ", " ++ Byte.digits k
  | alu operation x y => operation.name ++ " " ++ Register.name x ++ ", " ++ Register.name y
  | shiftRight x => "SHR " ++ Register.name x
  | shiftLeft x => "SHL " ++ Register.name x
  | setIndex a => "LD I, " ++ Address.digits a
  | jumpOffset a => "JP V0, " ++ Address.digits a
  | random x k => "RND " ++ Register.name x ++ ", " ++ Byte.digits k
  | draw x y rows =>
    "DRW " ++ Register.name x ++ ", " ++ Register.name y ++ ", " ++ toString rows.val
  | skipIfHeld x => "SKP " ++ Register.name x
  | skipUnlessHeld x => "SKNP " ++ Register.name x
  | readDelay x => "LD " ++ Register.name x ++ ", DT"
  | awaitKey x => "LD " ++ Register.name x ++ ", K"
  | setDelay x => "LD DT, " ++ Register.name x
  | setSound x => "LD ST, " ++ Register.name x
  | advanceIndex x => "ADD I, " ++ Register.name x
  | glyph x => "LD F, " ++ Register.name x
  | decimal x => "LD B, " ++ Register.name x
  | store x => "LD [I], " ++ Register.name x
  | restore x => "LD " ++ Register.name x ++ ", [I]"

end Instruction

/-- The text of an integer that stands for no instruction. -/
def unknownText (z : Int) : String :=
  "??? " ++ Hex.padded 4 z

/-- The assembler text of a word. -/
def Word.mnemonic (w : Word) : String :=
  match Instruction.decode? w with
  | some i => i.mnemonic
  | none => unknownText w.toNat

/-- The assembler text of an arbitrary integer; only sixteen-bit values stand for instructions. -/
def disassemble (z : Int) : String :=
  if 0 ≤ z ∧ z < 65536 then (Word.ofInt z).mnemonic else unknownText z

end Chip8
