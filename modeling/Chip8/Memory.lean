import Chip8.Fault
import Chip8.LoadError
import Chip8.Instruction.Basic
import Chip8.Tabulate

/-!
# Memory

The machine has 4096 bytes. The lowest 512 belong to the interpreter and hold the glyphs of the
sixteen hexadecimal digits, five bytes each; programs are loaded behind them. `read`, `write`,
`readBlock` and `writeBlock` take arbitrary integers as addresses and refuse an access that leaves
the memory; a refused access changes nothing.
-/

set_option autoImplicit false

namespace Chip8

/-- The number of bytes in memory. -/
abbrev memorySize : Nat := 4096

/-- The address of the first byte of a program. -/
def programStart : Nat := 0x200

/-- The number of bytes that a program may have. -/
def programLimit : Nat := memorySize - programStart

/-- The number of bytes, and so of rows, in a digit's glyph. -/
def glyphSize : Nat := 5

/-- The glyphs of the digits `0` to `F`, one byte a row. -/
def glyphs : List Byte := [
  0xF0, 0x90, 0x90, 0x90, 0xF0,
  0x20, 0x60, 0x20, 0x20, 0x70,
  0xF0, 0x10, 0xF0, 0x80, 0xF0,
  0xF0, 0x10, 0xF0, 0x10, 0xF0,
  0x90, 0x90, 0xF0, 0x10, 0x10,
  0xF0, 0x80, 0xF0, 0x10, 0xF0,
  0xF0, 0x80, 0xF0, 0x90, 0xF0,
  0xF0, 0x10, 0x20, 0x40, 0x40,
  0xF0, 0x90, 0xF0, 0x90, 0xF0,
  0xF0, 0x90, 0xF0, 0x10, 0xF0,
  0xF0, 0x90, 0xF0, 0x90, 0x90,
  0xE0, 0x90, 0xE0, 0x90, 0xE0,
  0xF0, 0x80, 0x80, 0x80, 0xF0,
  0xE0, 0x90, 0x90, 0x90, 0xE0,
  0xF0, 0x80, 0xF0, 0x80, 0xF0,
  0xF0, 0x80, 0xF0, 0x80, 0x80]

/-- Each of the sixteen digits has a glyph. -/
theorem length_glyphs : glyphs.length = 16 * glyphSize := rfl

/-- The byte with a given value, if the value is below 256. -/
def Byte.ofInt? (z : Int) : Option Byte :=
  if 0 ≤ z ∧ z < 256 then some (UInt8.ofNat z.toNat) else none

/-- The bytes with given values, or the first value that is no byte. -/
def Byte.ofInts : List Int → Except Int (List Byte)
  | [] => .ok []
  | z :: rest =>
    match Byte.ofInt? z with
    | none => .error z
    | some b => (Byte.ofInts rest).map (b :: ·)

/-- The values of a list of bytes. -/
def Byte.values (bytes : List Byte) : List Int :=
  bytes.map fun b => b.toNat

/-- The contents of memory. -/
structure Memory where
  bytes : Vector Byte memorySize
  deriving DecidableEq

namespace Memory

/-- The memory of a new machine: the glyphs, then zeros. -/
def fresh : Memory :=
  ⟨⟨⟨glyphs ++ List.replicate (memorySize - 16 * glyphSize) 0⟩,
    by rw [List.size_toArray, List.length_append, List.length_replicate, length_glyphs]; rfl⟩⟩

/-- The byte at an address that is known to lie in memory; zero elsewhere. -/
def byte (m : Memory) (a : Nat) : Byte :=
  if h : a < memorySize then m.bytes[a] else 0

/-- The bytes from `a` up to `stop`, as far as they lie in memory. -/
def slice (m : Memory) (a stop : Nat) : List Byte :=
  (List.range' a (min stop memorySize - a)).map m.byte

/-- The bytes from `a` up to `stop`, where an end below zero counts from the end of memory. -/
def between (m : Memory) (a stop : Int) : List Byte :=
  let stop := if stop < 0 then stop + memorySize else stop
  m.slice a.toNat stop.toNat

/-- The byte at an index; a negative index counts from the end. -/
def get? (m : Memory) (index : Int) : Option Byte :=
  (index? memorySize index).map fun a => m.byte a.val

/-- The memory with a list of bytes in place from an address on. -/
def poke (m : Memory) (a : Nat) : List Byte → Memory
  | [] => m
  | b :: rest => poke (if h : a < memorySize then ⟨m.bytes.set a b h⟩ else m) (a + 1) rest

/-- The memory with every byte from the program's first on set to zero. -/
def reset (m : Memory) : Memory :=
  ⟨tabulate memorySize fun i => if i.val < programStart then m.bytes[i] else 0⟩

/-- The memory with a program in place. An empty program, one that is too large and one with a
value that is no byte are refused, in this order. -/
def load (m : Memory) (program : List Int) : Except LoadError Memory :=
  if program.isEmpty then .error (.empty none)
  else if programLimit < program.length then .error (.tooLarge program.length programLimit none)
  else
    match Byte.ofInts program with
    | .error z => .error (.notAByte z)
    | .ok bytes => .ok (m.poke programStart bytes)

/-- Refuses a block of `count` bytes that leaves the memory. The address in the fault is the last
of the block, or the first if that is negative. -/
def check (a count : Int) : Except Failure Unit :=
  if a < 0 then .error (.fault (.outOfRange .data a))
  else if (memorySize : Int) - 1 < a + count - 1 then
    .error (.fault (.outOfRange .data (a + count - 1)))
  else .ok ()

/-- The byte at an address. -/
def read (m : Memory) (a : Int) : Except Failure Byte := do
  check a 1
  return m.byte a.toNat

/-- The memory with the eight lowest bits of a value at an address. -/
def write (m : Memory) (a value : Int) : Except Failure Memory := do
  check a 1
  return m.poke a.toNat [UInt8.ofNat (value % 256).toNat]

/-- The bytes from `a` up to `a + count`. Only the last address is checked. -/
def readBlock (m : Memory) (a count : Int) : Except Failure (List Byte) := do
  check a count
  return m.between a (a + count)

/-- The memory with a list of values from an address on. The range is checked before the values
are. -/
def writeBlock (m : Memory) (a : Int) (values : List Int) : Except Failure Memory := do
  check a values.length
  match Byte.ofInts values with
  | .error z => .error (.misfit (.notAByte z))
  | .ok bytes => return m.poke a.toNat bytes

end Memory

end Chip8
