/-!
# Words and instructions

An instruction occupies two bytes, the most significant first, and is read as one sixteen-bit
word. The operand fields of a word are its three low nibbles `x`, `y` and `n`, its low byte and
its low twelve bits. `Instruction` lists what the machine can do; an instruction carries exactly
the operands that it uses.
-/

set_option autoImplicit false

namespace Chip8

/-- An eight-bit value. -/
abbrev Byte := UInt8

/-- A sixteen-bit value. -/
abbrev Word := UInt16

/-- One of the sixteen registers `V0` to `VF`. -/
abbrev Register := Fin 16

/-- A twelve-bit address operand. -/
abbrev Address := Fin 4096

namespace Word

/-- The word whose high byte is `high` and whose low byte is `low`. -/
def ofBytes (high low : Byte) : Word :=
  UInt16.ofNat (high.toNat * 256 + low.toNat)

/-- The sixteen lowest bits of an integer. -/
def ofInt (z : Int) : Word :=
  UInt16.ofNat (z % 65536).toNat

/-- The most significant nibble, which selects the group of instructions. -/
def family (w : Word) : Fin 16 :=
  Fin.ofNat 16 (w.toNat / 4096)

/-- The second nibble, the first register operand. -/
def x (w : Word) : Register :=
  Fin.ofNat 16 (w.toNat / 256)

/-- The third nibble, the second register operand. -/
def y (w : Word) : Register :=
  Fin.ofNat 16 (w.toNat / 16)

/-- The least significant nibble. -/
def n (w : Word) : Fin 16 :=
  Fin.ofNat 16 w.toNat

/-- The low byte, a constant operand. -/
def constant (w : Word) : Byte :=
  UInt8.ofNat w.toNat

/-- The low twelve bits, an address operand. -/
def address (w : Word) : Address :=
  Fin.ofNat 4096 w.toNat

end Word

/-- The operations on two registers whose result goes to the first one. -/
inductive Alu where
  | copy
  | or
  | and
  | xor
  | add
  | subtract
  | subtractFrom
  deriving DecidableEq, Repr

/-- What a word tells the machine to do. -/
inductive Instruction where
  | sys (target : Address)
  | clear
  | ret
  | jump (target : Address)
  | call (target : Address)
  | skipIfEqual (x : Register) (k : Byte)
  | skipUnlessEqual (x : Register) (k : Byte)
  | skipIfSame (x y : Register)
  | skipUnlessSame (x y : Register)
  | load (x : Register) (k : Byte)
  | addConstant (x : Register) (k : Byte)
  | alu (operation : Alu) (x y : Register)
  | shiftRight (x : Register)
  | shiftLeft (x : Register)
  | setIndex (target : Address)
  | jumpOffset (target : Address)
  | random (x : Register) (mask : Byte)
  | draw (x y : Register) (rows : Fin 16)
  | skipIfHeld (x : Register)
  | skipUnlessHeld (x : Register)
  | readDelay (x : Register)
  | awaitKey (x : Register)
  | setDelay (x : Register)
  | setSound (x : Register)
  | advanceIndex (x : Register)
  | glyph (x : Register)
  | decimal (x : Register)
  | store (last : Register)
  | restore (last : Register)
  deriving DecidableEq, Repr

end Chip8
