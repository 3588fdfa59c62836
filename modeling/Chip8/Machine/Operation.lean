import Chip8.Machine.Step
import Chip8.Refusal

/-!
# Operations on a machine

Everything that is done to a machine from outside, as data: running it step by step, counting its
timers down, pressing keys, reading and writing its memory and its display. `Machine.perform`
carries an operation out and gives the machine that is left, what was noted, and a reply or a
refusal. An operation that is refused leaves the machine as it was, except that a step which fails
may have taken a key and passed the failing instruction, and that a return or a pop which finds no
slot has counted the stack's depth down.
-/

set_option autoImplicit false

namespace Chip8

/-- Something to do with a machine. -/
inductive Operation where
  | init (program : List Int)
  | reset
  | step
  | fetch
  | execute (w : Word)
  | tick
  | push (address : Int)
  | pop
  | load (program : List Int)
  | wipe
  | read (address : Int)
  | write (address value : Int)
  | readBlock (address count : Int)
  | writeBlock (address : Int) (values : List Int)
  | press (key : Int)
  | release (key : Int)
  | releaseAll
  | flush
  | poll
  | draw (rows address x y : Int)
  | clear
  | takeFrame
  | snapshot
  deriving DecidableEq, Repr

/-- What an operation answers. -/
inductive Reply where
  | done
  | number (value : Int)
  | flag (value : Bool)
  | bytes (values : List Byte)
  | executed (w : Option Word)
  | key (k : Option Key)
  | frame (grid : Option (Grid 64 32))

/-- What is left when an operation is over. -/
structure Performed where
  machine : Machine
  entries : List Entry
  result : Except Refusal Reply

namespace Machine

/-- The end of an operation that noted nothing. -/
def replied (m : Machine) (reply : Reply) : Performed :=
  ⟨m, [], .ok reply⟩

/-- The end of an operation that was refused. -/
def refused (m : Machine) (reason : Refusal) : Performed :=
  ⟨m, [], .error reason⟩

/-- An access that leaves the machine as it is and answers with what it found. -/
def observe {β : Type} (m : Machine) (found : Except Failure β) (reply : β → Reply) : Performed :=
  match found with
  | .error reason => m.refused (.failure reason)
  | .ok value => m.replied (reply value)

/-- An access that changes the machine. -/
def change (m : Machine) (changed : Except Failure Machine) : Performed :=
  match changed with
  | .error reason => m.refused (.failure reason)
  | .ok m' => m'.replied .done

/-- The end of loading a program of a given size. -/
def loaded (m : Machine) (count : Nat) (changed : Except LoadError Machine) : Performed :=
  match changed with
  | .error reason => m.refused (.load reason)
  | .ok m' => ⟨m', [.bytesLoaded count], .ok .done⟩

/-- The end of a step. -/
def stepped (s : Step) : Performed :=
  ⟨s.machine, s.entries, match s.result with
    | .error reason => .error (.failure reason)
    | .ok w => .ok (.executed w)⟩

/-- Carries an operation on one key out. -/
def onKey (m : Machine) (key : Int) (act : Keypad → Key → Keypad) (note : Key → Entry) :
    Performed :=
  match Key.ofInt? key with
  | none => m.refused (.key ⟨key⟩)
  | some k => ⟨{ m with keypad := act m.keypad k }, [note k], .ok .done⟩

/-- Carries an operation out. -/
def perform [Tracing] (m : Machine) : Operation → Performed
  | .init program => m.loaded program.length (m.init program)
  | .reset => m.reset.replied .done
  | .step => stepped m.step
  | .fetch =>
    match m.fetch with
    | .error reason => m.refused (.failure reason)
    | .ok (m', w) => m'.replied (.number w.toNat)
  | .execute w =>
    match m.execute? w with
    | none => m.refused .noInstruction
    | some s => { stepped s with result := (stepped s).result.map fun _ => .done }
  | .tick => m.tick.replied (.flag m.tick.buzzing)
  | .push address => m.change (m.push address)
  | .pop => m.pop.1.observe m.pop.2 fun w => .number w.toNat
  | .load program =>
    m.loaded program.length ((m.memory.load program).map fun memory => { m with memory })
  | .wipe => { m with memory := m.memory.reset }.replied .done
  | .read address => m.observe (m.memory.read address) fun b => .number b.toNat
  | .write address value =>
    m.change ((m.memory.write address value).map fun memory => { m with memory })
  | .readBlock address count => m.observe (m.memory.readBlock address count) .bytes
  | .writeBlock address values =>
    m.change ((m.memory.writeBlock address values).map fun memory => { m with memory })
  | .press key => m.onKey key .press .keyDown
  | .release key => m.onKey key .release .keyUp
  | .releaseAll => { m with keypad := .idle }.replied .done
  | .flush => { m with keypad := m.keypad.flush }.replied .done
  | .poll =>
    let (keypad, k) := m.keypad.poll
    { m with keypad }.replied (.key k)
  | .draw rows address x y =>
    match m.display.draw m.memory rows address x y with
    | .error reason => m.refused (.failure reason)
    | .ok (display, collision) => { m with display }.replied (.number (flagValue collision))
  | .clear => { m with display := m.display.clear }.replied .done
  | .takeFrame =>
    let (display, grid) := m.display.takeFrame
    { m with display }.replied (.frame grid)
  | .snapshot => m.replied (.frame (some m.display.grid))

end Machine

end Chip8
