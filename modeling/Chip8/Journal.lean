import Chip8.Fault
import Chip8.Instruction.Mnemonic
import Chip8.Keypad
import Chip8.Memory

/-!
# Journal

What the machine and the engine note down while they work. An `Entry` says what happened; its
severity, its source and its text are functions of that. A `Journal` takes the entries from a level
on and hands them to its outlets, of which each printer makes a line of every entry. A printer is
made and attached when the journal is switched for the first time.

Whoever spells out an entry may first look whether it would be taken. The machine does so before it
notes the instruction that it has fetched: `Tracing` is what it sees of the journal.

Left out are levels and outlets that a part of the program might have for itself, for none has any;
and the stream that a printer writes to, which is the same for all printers: its lines are listed in
the order in which they are written.
-/

set_option autoImplicit false

namespace Chip8

/-- How much an entry matters, the least first. -/
inductive Severity where
  | debug
  | info
  | warning
  | error
  deriving DecidableEq, Repr

/-- The position of a severity in the order. -/
def Severity.rank : Severity → Nat
  | .debug => 0
  | .info => 1
  | .warning => 2
  | .error => 3

/-- The word for a severity at the head of a line. -/
def Severity.name : Severity → String
  | .debug => "DEBUG"
  | .info => "INFO"
  | .warning => "WARNING"
  | .error => "ERROR"

/-- The registers of a machine as they are shown beside a fault. -/
structure RegisterDump where
  pc : Int
  index : Int
  depth : Int
  delay : Int
  sound : Int
  registers : List Int
  returns : List Word
  deriving DecidableEq, Repr

/-- Numbers in brackets, with commas between them. -/
def bracketed (numbers : List Int) : String :=
  "[" ++ ", ".intercalate (numbers.map toString) ++ "]"

/-- The text of a dump: names and values in braces. -/
def RegisterDump.text (d : RegisterDump) : String :=
  "\x7b'pc': " ++ toString d.pc ++ ", 'I': " ++ toString d.index
    ++ ", 'sp': " ++ toString d.depth ++ ", 'dt': " ++ toString d.delay
    ++ ", 'st': " ++ toString d.sound ++ ", 'V': " ++ bracketed d.registers
    ++ ", 'stack': " ++ bracketed (d.returns.map fun w => w.toNat) ++ "\x7d"

/-- Something that happened. -/
inductive Entry where
  | switched (on : Bool)
  | bytesLoaded (count : Nat)
  | sysIgnored (target : Address)
  | awaitingKey (x : Register)
  | keyDelivered (k : Key) (x : Register)
  | executing (address : Int) (w : Word)
  | unknownWord (address : Int) (w : Word)
  | keyDown (k : Key)
  | keyUp (k : Key)
  | readingFile (path : String)
  | fileRead (count : Nat) (name : String)
  | programLoaded (count : Nat)
  | started (rate timerRate : Int)
  | stopped (cycles : Nat)
  | faulted (fault : Fault) (state : RegisterDump)
  | buzzer (on : Bool)
  deriving DecidableEq, Repr

namespace Entry

/-- How much an entry matters. -/
def severity : Entry → Severity
  | switched _ | readingFile _ | programLoaded _ | started .. | stopped _ => .info
  | unknownWord .. => .warning
  | faulted .. => .error
  | bytesLoaded _ | sysIgnored _ | awaitingKey _ | keyDelivered .. | executing .. | keyDown _
  | keyUp _ | fileRead .. | buzzer _ => .debug

/-- The part of the program that an entry comes from. -/
def source : Entry → String
  | switched _ => "chip8"
  | bytesLoaded _ => "chip8.machine"
  | sysIgnored _ | awaitingKey _ | keyDelivered .. | executing .. | unknownWord .. => "chip8.cpu"
  | keyDown _ | keyUp _ => "chip8.keypad"
  | readingFile _ | fileRead .. => "chip8.rom"
  | programLoaded _ | started .. | stopped _ | faulted .. | buzzer _ => "chip8.engine"

/-- What an entry says. -/
def text : Entry → String
  | switched on => "logs on: " ++ if on then "True" else "False"
  | bytesLoaded count =>
    "Loaded " ++ toString count ++ " bytes at 0x" ++ Hex.padded 3 programStart
  | sysIgnored target => "SYS call ignored (0" ++ Address.digits target ++ ")"
  | awaitingKey x => "Waiting for key -> " ++ Register.name x
  | keyDelivered k x => "Key " ++ Hex.fixed 1 k.val ++ " -> " ++ Register.name x
  | executing address w =>
    Hex.padded 3 address ++ ": [" ++ Hex.padded 4 w.toNat ++ "] " ++ w.mnemonic
  | unknownWord address w =>
    "Unknown opcode " ++ Hex.padded 4 w.toNat ++ " at 0x" ++ Hex.padded 3 address
  | keyDown k => "Key " ++ Hex.fixed 1 k.val ++ " down"
  | keyUp k => "Key " ++ Hex.fixed 1 k.val ++ " up"
  | readingFile path => "Loading ROM: " ++ path
  | fileRead count name => "Read " ++ toString count ++ " bytes from " ++ name
  | programLoaded count => "Program loaded: " ++ toString count ++ " bytes"
  | started rate timerRate =>
    "Emulation started (" ++ toString rate ++ " instructions/s, timers at "
      ++ toString timerRate ++ " Hz)"
  | stopped cycles => "Emulation stopped after " ++ toString cycles ++ " instructions"
  | faulted fault state =>
    "Emulation error: " ++ fault.message ++ " (state " ++ state.text ++ ")"
  | buzzer on => if on then "Sound on" else "Sound off"

/-- An entry as it is written: severity, source and text. -/
def print (e : Entry) : String :=
  "[" ++ e.severity.name ++ "] " ++ e.source ++ ": " ++ e.text

end Entry

/-- Whether what only matters for debugging is taken, as far as a machine can see. -/
class Tracing where
  isOn : Bool

namespace Tracing.Off

/-- Nothing of the kind is taken, as long as no journal has been switched. -/
scoped instance off : Tracing := ⟨false⟩

end Tracing.Off

/-- Where the entries go that a journal takes: nowhere, or to a printer. Printers are told apart by
their numbers. -/
inductive Outlet where
  | nowhere
  | printer (number : Nat)
  deriving DecidableEq, Repr

/-- The lines that an outlet makes of an entry. -/
def Outlet.lines (o : Outlet) (e : Entry) : List String :=
  match o with
  | nowhere => []
  | printer _ => [e.print]

/-- A journal: the level from which on it takes entries, if it has been set, and the outlets that
are attached to it. The printer that its switch works with is remembered, and so is the number of
printers that have been made. -/
structure Journal where
  level : Option Severity
  outlets : List Outlet
  printer : Option Nat
  made : Nat
  deriving DecidableEq, Repr

namespace Journal

/-- A journal that has never been switched. -/
def closed : Journal where
  level := none
  outlets := [.nowhere]
  printer := none
  made := 0

/-- The level that is in force. Where none has been set, it is that of warnings. -/
def least (j : Journal) : Severity :=
  j.level.getD .warning

/-- Whether entries of a severity are taken. -/
def takes (j : Journal) (s : Severity) : Bool :=
  j.least.rank ≤ s.rank

/-- Whether everything is taken. -/
def isOn (j : Journal) : Bool :=
  j.takes .debug

/-- What a machine sees of the journal. -/
@[reducible] def tracing (j : Journal) : Tracing :=
  ⟨j.isOn⟩

/-- The journal with one more outlet. An outlet that is attached already is not attached again. -/
def attach (j : Journal) (o : Outlet) : Journal :=
  if o ∈ j.outlets then j else { j with outlets := j.outlets ++ [o] }

/-- The journal with a printer, which is made if there is none. -/
def install (j : Journal) : Journal :=
  match j.printer with
  | some _ => j
  | none => { j with printer := some j.made, made := j.made + 1 }.attach (.printer j.made)

/-- The journal after it has been switched: everything is taken, or warnings and errors only. -/
def switch (j : Journal) (on : Bool) : Journal :=
  { j.install with level := some (if on then .debug else .warning) }

/-- The lines that are written for a list of entries. -/
def write (j : Journal) (entries : List Entry) : List String :=
  (entries.filter fun e => j.takes e.severity).flatMap fun e => j.outlets.flatMap (·.lines e)

end Journal

end Chip8
