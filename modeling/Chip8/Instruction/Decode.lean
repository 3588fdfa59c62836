import Chip8.Instruction.Basic

/-!
# Decoding

`decode?` reads a word as an instruction. The first nibble selects a group; the groups `0`, `5`,
`8`, `9`, `E` and `F` look at further bits. A word that belongs to no instruction decodes to
`none`. Shifts ignore their third nibble, so sixteen words decode to each shift; every other
instruction has one word.
-/

set_option autoImplicit false

namespace Chip8

/-- The operation that the last nibble of a word of group `8` selects, shifts apart. -/
def Alu.ofNibble? (n : Fin 16) : Option Alu :=
  match n.val with
  | 0x0 => some .copy
  | 0x1 => some .or
  | 0x2 => some .and
  | 0x3 => some .xor
  | 0x4 => some .add
  | 0x5 => some .subtract
  | 0x7 => some .subtractFrom
  | _ => none

namespace Instruction

/-- A word of group `8`: an operation on two registers, or a shift. -/
def decodeAlu? (w : Word) : Option Instruction :=
  match w.n.val with
  | 0x6 => some (.shiftRight w.x)
  | 0xE => some (.shiftLeft w.x)
  | _ => (Alu.ofNibble? w.n).map fun operation => .alu operation w.x w.y

/-- A word of group `F`, whose low byte selects the instruction. -/
def decodeMisc? (w : Word) : Option Instruction :=
  match w.constant.toNat with
  | 0x07 => some (.readDelay w.x)
  | 0x0A => some (.awaitKey w.x)
  | 0x15 => some (.setDelay w.x)
  | 0x18 => some (.setSound w.x)
  | 0x1E => some (.advanceIndex w.x)
  | 0x29 => some (.glyph w.x)
  | 0x33 => some (.decimal w.x)
  | 0x55 => some (.store w.x)
  | 0x65 => some (.restore w.x)
  | _ => none

/-- The instruction that a word stands for, if there is one. -/
def decode? (w : Word) : Option Instruction :=
  match w.family.val with
  | 0x0 => some (if w = 0x00E0 then .clear else if w = 0x00EE then .ret else .sys w.address)
  | 0x1 => some (.jump w.address)
  | 0x2 => some (.call w.address)
  | 0x3 => some (.skipIfEqual w.x w.constant)
  | 0x4 => some (.skipUnlessEqual w.x w.constant)
  | 0x5 => if w.n.val = 0 then some (.skipIfSame w.x w.y) else none
  | 0x6 => some (.load w.x w.constant)
  | 0x7 => some (.addConstant w.x w.constant)
  | 0x8 => decodeAlu? w
  | 0x9 => if w.n.val = 0 then some (.skipUnlessSame w.x w.y) else none
  | 0xA => some (.setIndex w.address)
  | 0xB => some (.jumpOffset w.address)
  | 0xC => some (.random w.x w.constant)
  | 0xD => some (.draw w.x w.y w.n)
  | 0xE =>
    if w.constant = 0x9E then some (.skipIfHeld w.x)
    else if w.constant = 0xA1 then some (.skipUnlessHeld w.x)
    else none
  | 0xF => decodeMisc? w
  | _ => none

end Instruction

end Chip8
