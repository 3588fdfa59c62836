import Chip8.Display
import Chip8.Journal
import Chip8.Keypad

/-!
# The machine

All state of a virtual machine: memory, display, keypad, registers, return stack and the two
timers, together with the source of its random bytes. Registers, counters, timers and the depth of
the stack are integers, because they can be set from outside to any value; what a program does
keeps them in a small range.
-/

set_option autoImplicit false

namespace Chip8

/-- An endless supply of bytes and the number of bytes that have been drawn from it. -/
structure RandomSource where
  stream : Nat → Byte
  drawn : Nat

namespace RandomSource

/-- The next byte. -/
def next (r : RandomSource) : Byte :=
  r.stream r.drawn

/-- The source after one more byte has been drawn. -/
def advance (r : RandomSource) : RandomSource :=
  { r with drawn := r.drawn + 1 }

end RandomSource

/-- The number of slots of the return stack. -/
abbrev stackSize : Nat := 16

/-- The state of a virtual machine. The return stack grows from slot `0`; `depth` slots are in
use, and the others keep what was last stored in them. A depth that was set from outside may lie
beyond the stack. -/
structure Machine where
  memory : Memory
  display : Screen
  keypad : Keypad
  random : RandomSource
  v : Vector Int 16
  index : Int
  pc : Int
  stack : Vector Word 16
  depth : Int
  delay : Int
  sound : Int
  awaiting : Option Register

namespace Machine

/-- A machine that has just been switched on, with a given keypad and source of random bytes. -/
def fresh (keypad : Keypad) (random : RandomSource) : Machine where
  memory := .fresh
  display := .blank
  keypad := keypad
  random := random
  v := Vector.replicate 16 0
  index := 0
  pc := programStart
  stack := Vector.replicate 16 0
  depth := 0
  delay := 0
  sound := 0
  awaiting := none

/-- The machine with a program loaded and its program counter at the program's first byte. -/
def init (m : Machine) (program : List Int) : Except LoadError Machine := do
  let memory ← m.memory.load program
  return { m with memory, pc := programStart }

/-- The machine with its memory, registers and display cleared; keypad and random source stay. -/
def reset (m : Machine) : Machine :=
  { m with
    memory := m.memory.reset
    display := m.display.clear
    v := Vector.replicate 16 0
    index := 0
    pc := programStart
    stack := Vector.replicate 16 0
    depth := 0
    delay := 0
    sound := 0
    awaiting := none }

/-! ## Registers -/

/-- The value in a register. -/
def value (m : Machine) (x : Register) : Int :=
  m.v.get x

/-- The machine with a value in a register. -/
def setV (m : Machine) (x : Register) (value : Int) : Machine :=
  { m with v := m.v.set x.val value x.isLt }

/-- The register that was set holds the new value, and the others are as before. -/
theorem value_setV (m : Machine) (x y : Register) (a : Int) :
    (m.setV x a).value y = if x = y then a else m.value y := by
  show (m.v.set x.val a x.isLt)[y.val] = if x = y then a else m.v[y.val]
  rw [Vector.getElem_set]
  simp only [Fin.ext_iff]

/-- The machine with a value in the register of a given number; a negative number counts from the
last register. -/
def setV? (m : Machine) (number value : Int) : Option Machine :=
  (index? 16 number).map fun x => m.setV x value

/-! ## The return stack -/

/-- The slot of the stack at a position; a negative position counts from the last slot. -/
def slot (position : Int) : Except Failure (Fin 16) :=
  match index? stackSize position with
  | some i => .ok i
  | none =>
    if !Extent.fits position && Extent.fits (position - 0x8000000000000000) && 0 < position then
      .error (.misfit (.slotTooFar position))
    else .error (.misfit (.noSlot position))

/-- Stores a return address on the stack. A full stack is refused before the address is looked
at; the fault names the instruction that the program counter has just passed. -/
def push (m : Machine) (address : Int) : Except Failure Machine := do
  -- the program counter has passed the call, so the fault counts back
  if stackSize ≤ m.depth then throw (.fault (.stackOverflow (m.pc - 2)))
  let i ← slot m.depth
  if 0 ≤ address ∧ address < 65536 then
    return { m with
      stack := m.stack.set i.val (UInt16.ofNat address.toNat) i.isLt
      depth := m.depth + 1 }
  else throw (.misfit (.notAWord address))

/-- Takes the last return address from the stack. The depth is counted down before the slot is
looked for, and stays so if there is none. -/
def pop (m : Machine) : Machine × Except Failure Word :=
  if m.depth = 0 then (m, .error (.fault (.stackUnderflow (m.pc - 2))))
  else
    let m := { m with depth := m.depth - 1 }
    (m, (slot m.depth).map m.stack.get)

/-- The return addresses in use, the oldest first. A negative depth leaves that many out at the
end. -/
def returns (m : Machine) : List Word :=
  m.stack.toList.take (if m.depth < 0 then m.depth + stackSize else m.depth).toNat

/-! ## Timers -/

/-- A timer counted down by one; one that does not run stays as it is. -/
def countDown (timer : Int) : Int :=
  if 0 < timer then timer - 1 else timer

/-- The machine with both timers counted down by one. -/
def tick (m : Machine) : Machine :=
  { m with delay := countDown m.delay, sound := countDown m.sound }

/-- Whether the sound timer is running. -/
def buzzing (m : Machine) : Bool :=
  0 < m.sound

/-! ## Views -/

/-- The registers as they are shown beside a fault. -/
def dump (m : Machine) : RegisterDump where
  pc := m.pc
  index := m.index
  depth := m.depth
  delay := m.delay
  sound := m.sound
  registers := m.v.toList
  returns := m.returns

end Machine

end Chip8
