import Chip8.Instruction.Listing
import Chip8.Number.Basic
import Chip8.Session.Action
import Chip8.Text.Numeral

/-!
# The command line

The program takes a path and perhaps a rate. It plays the file in a window, or prints its listing
if the switch `--disasm` is given. `Invocation.parse` reads the arguments, and `CommandLine.run`
says what they lead to: lines and an exit code, or a session with the window open and the engine
started.
-/

set_option autoImplicit false

namespace Chip8

/-- The switch that asks for a listing. -/
def listingSwitch : String := "--disasm"

/-- The text that explains the arguments. -/
def usageText : String :=
  "Usage: python -m chip8 [--disasm] <rom-file> [instructions-per-second]"

/-- The text that refuses a rate. -/
def badRateText : String :=
  "Error: instructions-per-second must be a positive integer"

/-- What the arguments ask for. -/
inductive Invocation where
  | usage
  | badRate
  | list (path : String)
  | play (path : String) (rate : Int)
  deriving DecidableEq, Repr

namespace Invocation

/-- Reads a rate: a positive integer. -/
def rate? (s : String) : Option Int :=
  match Text.integer? s with
  | some z => if 0 < z then some z else none
  | none => none

/-- What a path asks for, with the switch given or not. -/
def ofPath (listed : Bool) (path : String) (rate : Int) : Invocation :=
  if listed then .list path else .play path rate

/-- Reads the arguments. The first switch is taken out wherever it stands; a rate is checked also
where it is not used. -/
def parse (args : List String) : Invocation :=
  let listed := args.contains listingSwitch
  match args.erase listingSwitch with
  | [path] => ofPath listed path Engine.defaultRate
  | [path, rate] =>
    match rate? rate with
    | none => .badRate
    | some rate => ofPath listed path rate
  | _ => .usage

end Invocation

/-- What the arguments lead to: an end with an exit code and printed lines, or a session. -/
inductive Outcome where
  | exit (code : Nat) (lines : List String)
  | playing (session : Session Number)
  | refused (reason : Refusal)

namespace CommandLine

/-- The end with an error message. -/
def failed (e : LoadError) : Outcome :=
  .exit 1 ["Error: " ++ e.message]

/-- Goes on with the program in a file, or ends if there is none. A path that cannot name a file
is not reported but refused. -/
def withProgram (program : Except LoadError (List Byte)) (next : List Int → Outcome) : Outcome :=
  match program with
  | .ok bytes => next (Byte.values bytes)
  | .error (.notAPath path) => .refused (.load (.notAPath path))
  | .error reason => failed reason

/-- Plays a program at a rate: the window is opened and the engine started. -/
def play (program : List Int) (rate : Int) (random : RandomSource)
    (schedule : List (List Number)) : Outcome :=
  let policy : Policy := ⟨.ignore, none, none⟩
  match Engine.create (.int rate) (.int Engine.defaultTimerRate) random policy schedule with
  | .error reason => .refused reason
  | .ok engine =>
    match (Session.create engine false []).command (.init program) with
    | (_, .error reason) => .refused reason
    | (s, .ok _) =>
      match s.openWindow Window.defaultScale Window.defaultCaption with
      | .error reason => .refused reason
      | .ok s => .playing (s.command .start).1

/-- What the arguments lead to, given how the program behind a path reads. -/
def run (args : List String) (load : String → Except LoadError (List Byte))
    (random : RandomSource) (schedule : List (List Number)) : Outcome :=
  match Invocation.parse args with
  | .usage => .exit 1 [usageText]
  | .badRate => .exit 1 [badRateText, usageText]
  | .list path => withProgram (load path) fun program =>
    .exit 0 ((listing programStart program).map ListingLine.print)
  | .play path rate => withProgram (load path) fun program => play program rate random schedule

end CommandLine

end Chip8
