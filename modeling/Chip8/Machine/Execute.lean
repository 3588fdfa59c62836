import Chip8.Machine.Basic
import Chip8.Number.Bits

/-!
# Execution

The effect of an instruction on a machine whose program counter has already passed it. An
instruction that fails has no effect, except that a return counts the stack's depth down before
it looks for the slot. The flag register `VF` is written before the result of an operation, so
that a result which goes to `VF` replaces the flag.

Registers hold bytes as long as nothing else has been put into them from outside. The rules below
are those for arbitrary integers, read in two's complement: sums, differences and left shifts keep
the eight lowest bits, and all other operations take the integer as it is.
-/

set_option autoImplicit false

namespace Chip8

/-- The register that takes flags. -/
def flagRegister : Register := ⟨0xF, by decide⟩

/-- The number for a flag. -/
def flagValue (b : Bool) : Int :=
  if b then 1 else 0

/-- The eight lowest bits of an integer. -/
def lowByte (z : Int) : Int :=
  z % 256

/-- The result of an operation on the values of two registers, and the flag it raises, if it has
one: the carry of a sum, the absence of a borrow of a difference. An equal pair counts as a borrow
for `subtract` and not for `subtractFrom`. -/
def Alu.apply (operation : Alu) (a b : Int) : Int × Option Bool :=
  match operation with
  | .copy => (b, none)
  | .or => (Bits.or a b, none)
  | .and => (Bits.and a b, none)
  | .xor => (Bits.xor a b, none)
  | .add => (lowByte (a + b), some (255 < a + b))
  | .subtract => (lowByte (a - b), some (b < a))
  | .subtractFrom => (lowByte (b - a), some (a ≤ b))

/-- The machine that an instruction leaves, and why the instruction failed, if it did. -/
structure Effect where
  machine : Machine
  failure : Option Failure

namespace Machine

/-- The end of an instruction that succeeded. -/
def done (m : Machine) : Effect :=
  ⟨m, none⟩

/-- The end of an instruction that changes the machine at once or not at all. -/
def attempt (m : Machine) (changed : Except Failure Machine) : Effect :=
  match changed with
  | .ok m' => ⟨m', none⟩
  | .error reason => ⟨m, some reason⟩

/-- The machine with a flag in the flag register. -/
def setFlag (m : Machine) (flag : Bool) : Machine :=
  m.setV flagRegister (flagValue flag)

/-- The machine that skips the next instruction if a condition holds. -/
def skipIf (m : Machine) (condition : Bool) : Machine :=
  if condition then { m with pc := m.pc + 2 } else m

/-- The first `count` registers. -/
def firstRegisters (m : Machine) (count : Nat) : List Int :=
  m.v.toList.take count

theorem length_firstRegisters (m : Machine) (last : Register) :
    (m.firstRegisters (last.val + 1)).length = last.val + 1 := by
  have h := last.isLt
  simp only [firstRegisters, List.length_take, Vector.length_toList]
  omega

/-- The machine with a list of bytes in its first registers. -/
def setFirstRegisters (m : Machine) (bytes : List Byte) : Machine :=
  { m with v := tabulate 16 fun x => (bytes[x.val]?.map fun b => (b.toNat : Int)).getD (m.value x) }

/-- A register holds its byte of the list, or what it held if the list is too short. -/
theorem value_setFirstRegisters (m : Machine) (bytes : List Byte) (x : Register) :
    (m.setFirstRegisters bytes).value x =
      (bytes[x.val]?.map fun b => (b.toNat : Int)).getD (m.value x) :=
  getElem_tabulate _ x.val x.isLt

end Machine

namespace Instruction

open Machine

/-- The three decimal digits of a number below a thousand. The first digit of a larger number is
its number of hundreds. -/
def decimalDigits (value : Int) : List Int :=
  [value / 100, value / 10 % 10, value % 10]

/-- The effect of an instruction. -/
def run (i : Instruction) (m : Machine) : Effect :=
  match i with
  | sys _ => m.done
  | clear => { m with display := m.display.clear }.done
  | ret =>
    match m.pop with
    | (m, .error reason) => ⟨m, some reason⟩
    | (m, .ok address) => { m with pc := address.toNat }.done
  | jump target => { m with pc := target.val }.done
  | call target => m.attempt do
    let m ← m.push m.pc
    return { m with pc := target.val }
  | skipIfEqual x k => (m.skipIf (m.value x == k.toNat)).done
  | skipUnlessEqual x k => (m.skipIf (m.value x != k.toNat)).done
  | skipIfSame x y => (m.skipIf (m.value x == m.value y)).done
  | skipUnlessSame x y => (m.skipIf (m.value x != m.value y)).done
  | load x k => (m.setV x k.toNat).done
  | addConstant x k => (m.setV x (lowByte (m.value x + k.toNat))).done
  | alu operation x y =>
    -- both values are read before the flag is written, since a register may be the flag's
    match operation.apply (m.value x) (m.value y) with
    | (result, none) => (m.setV x result).done
    | (result, some flag) => ((m.setFlag flag).setV x result).done
  | shiftRight x =>
    let value := m.value x
    ((m.setFlag (value % 2 = 1)).setV x (value / 2)).done
  | shiftLeft x =>
    let value := m.value x
    ((m.setFlag (value / 128 % 2 = 1)).setV x (lowByte (value * 2))).done
  | setIndex target => { m with index := target.val }.done
  | jumpOffset target => { m with pc := target.val + m.value ⟨0, by decide⟩ }.done
  | random x mask =>
    { m.setV x (m.random.next &&& mask).toNat with random := m.random.advance }.done
  | draw x y rows => m.attempt do
    let (display, collision) ← m.display.draw m.memory rows.val m.index (m.value x) (m.value y)
    return { m with display }.setFlag collision
  | skipIfHeld x => (m.skipIf (m.keypad.isPressed (m.value x))).done
  | skipUnlessHeld x => (m.skipIf (!m.keypad.isPressed (m.value x))).done
  | readDelay x => (m.setV x m.delay).done
  -- presses from before the wait do not end it
  | awaitKey x => { m with keypad := m.keypad.flush, awaiting := some x }.done
  | setDelay x => { m with delay := m.value x }.done
  | setSound x => { m with sound := m.value x }.done
  | advanceIndex x =>
    let total := m.index + m.value x
    { m.setFlag (memorySize ≤ total) with index := total % 65536 }.done
  -- a value above 15 shows the glyph of its last hexadecimal digit
  | glyph x => { m with index := m.value x % 16 * glyphSize }.done
  | decimal x => m.attempt do
    let memory ← m.memory.writeBlock m.index (decimalDigits (m.value x))
    return { m with memory }
  | store last => m.attempt do
    let memory ← m.memory.writeBlock m.index (m.firstRegisters (last.val + 1))
    return { m with memory, index := m.index + (last.val + 1) }
  | restore last => m.attempt do
    let bytes ← m.memory.readBlock m.index (last.val + 1)
    return { m.setFirstRegisters bytes with index := m.index + (last.val + 1) }

/-- What an instruction notes in the journal. -/
def entries : Instruction → List Entry
  | sys target => [.sysIgnored target]
  | awaitKey x => [.awaitingKey x]
  | _ => []

end Instruction

end Chip8
