import Chip8.Machine.Execute

/-!
# One cycle

A step fetches the word at the program counter, moves the counter past it and runs the instruction
that the word stands for; a word that stands for none is passed over. While an instruction waits
for a key, a step polls the keypad instead; once a key has arrived it goes to the waiting register
and the step goes on as usual.
-/

set_option autoImplicit false

namespace Chip8

/-- What a step leaves behind: the machine, what it noted, and how it ended. It ends with a
failure, with the word that was executed, or with `none` if it only polled the keypad. -/
structure Step where
  machine : Machine
  entries : List Entry
  result : Except Failure (Option Word)

/-- What is noted about a word that was fetched from an address: what is about to be executed, if
anyone wants to know. -/
def Entry.trace [Tracing] (address : Int) (w : Word) : List Entry :=
  if Tracing.isOn then [.executing address w] else []

namespace Machine

/-- Reads the word at the program counter and moves the counter past it. -/
def fetch (m : Machine) : Except Failure (Machine × Word) :=
  -- both bytes of the word have to lie in memory
  if m.pc < 0 ∨ (memorySize : Int) - 1 < m.pc + 1 then
    .error (.fault (.outOfRange .fetch m.pc))
  else
    let a := m.pc.toNat
    .ok ({ m with pc := m.pc + 2 }, .ofBytes (m.memory.byte a) (m.memory.byte (a + 1)))

/-- Carries out the instruction that a word stands for. -/
def execute (m : Machine) (w : Word) (i : Instruction) : Step :=
  match i.run m with
  | ⟨m', some reason⟩ => ⟨m', [], .error reason⟩
  | ⟨m', none⟩ => ⟨m', i.entries, .ok (some w)⟩

variable [Tracing]

/-- A cycle of a machine that waits for no key. -/
def cycle (m : Machine) : Step :=
  match m.fetch with
  | .error reason => ⟨m, [], .error reason⟩
  | .ok (fetched, w) =>
    match Instruction.decode? w with
    | none => ⟨fetched, Entry.trace m.pc w ++ [.unknownWord m.pc w], .ok (some w)⟩
    | some i =>
      let s := execute fetched w i
      { s with entries := Entry.trace m.pc w ++ s.entries }

/-- One step. -/
def step (m : Machine) : Step :=
  match m.awaiting with
  | none => m.cycle
  | some x =>
    match m.keypad.poll with
    -- the wait goes on
    | (_, none) => ⟨m, [], .ok none⟩
    | (keypad, some k) =>
      let delivered := { m.setV x k.val with keypad, awaiting := none }
      let s := delivered.cycle
      { s with entries := .keyDelivered k x :: s.entries }

/-- Carries out the instruction that a word stands for, without fetching it; `none` if it stands
for nothing. -/
def execute? (m : Machine) (w : Word) : Option Step :=
  (Instruction.decode? w).map (m.execute w)

end Machine

end Chip8
