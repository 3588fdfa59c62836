import Chip8.Engine.Basic
import Chip8.Rom

/-!
# Control of the engine

Loading and wiping programs, starting and stopping runs, and taking the engine down. A start waits
for the run before it to end, unless it comes from within that run: then the new run begins after
the old one has unwound. A stop from outside waits for the run to end; a stop from within only
leaves a request.

A run begins by making its clock. When it has no more ticks it waits for the length of the clock's
period, again and again, until something stops it; a run whose period is too long to be waited for
ends there. A run that is started from outside begins its ticks only after the call is over; if it
has no ticks at all, it comes to its rest, or its end, within the start.
-/

set_option autoImplicit false

namespace Chip8.Engine

variable {α : Type} [Quantity α]

/-- Loads a program and forgets the last fault. -/
def init (e : Engine α) (program : List Int) : Engine α × Except Refusal Unit :=
  match e.machine with
  | none => (e, .error .noMachine)
  | some m =>
    match m.init program with
    | .error reason => (e, .error (.load reason))
    | .ok m' =>
      ({ e with machine := some m', fault := none }.noteAll
        [.bytesLoaded program.length, .programLoaded program.length], .ok ())

/-- Resets the machine, the account of instructions, the fault and the buzzer. -/
def reset (e : Engine α) : Engine α × Except Refusal Unit :=
  match e.machine with
  | none => (e, .error .noMachine)
  | some m =>
    ({ e with machine := some m.reset, budget := Quantity.zero, fault := none }.setSound false,
      .ok ())

/-- The end of a run: its clock, the newest one, calls nothing any more, and the buzzer is
switched off. A run that has been superseded leaves the new run's phase alone. -/
def finish (e : Engine α) : Engine α :=
  let clocks := match e.clocks with
    | clock :: older => { clock with scheduled := 0 } :: older
    | [] => []
  let phase := if e.phase = Phase.live then Phase.over else e.phase
  { e with clocks, phase }.setSound false

/-- The functions that a run's clock calls. -/
def clockFunctions : Nat := 2

/-- The engine after the latest run has made its clock; `later` are the lists of ticks for the
runs to come. A run whose period cannot be computed makes no clock. -/
def openClock (e : Engine α) (later : List (List α)) : Option (Engine α) :=
  match Quantity.div (Quantity.one : α) e.timerRate with
  | .error _ => none
  | .ok period => some { e with
      phase := .live
      schedule := later
      clocks := ⟨period, 0, clockFunctions⟩ :: e.clocks }

/-- The longest time that a run can wait, in microseconds: the waits are counted in nanoseconds,
and their number has to stay below `2 ^ 63`. -/
def longestWait : Int := 9223372036854775

/-- The number of microseconds in a second. -/
def microseconds : Int := 1000000

/-- Whether a time is too long to be waited for. -/
def tooLong (time : α) : Bool :=
  match Quantity.div (Quantity.ofInt longestWait : α) (Quantity.ofInt microseconds) with
  | .ok limit => Quantity.exceeds time limit
  | .error _ => false

/-- Whether the newest run can wait for its next tick. -/
def canWait (e : Engine α) : Bool :=
  match e.clocks with
  | clock :: _ => !tooLong clock.period
  | [] => true

/-- The run `id` when it has no more ticks. -/
def rest (e : Engine α) (id : Nat) : Engine α :=
  if e.stopped id || !e.canWait then e.finish else e

/-- The lists of ticks for the runs after the next one, if the next one has no ticks. -/
def afterIdle (e : Engine α) : Option (List (List α)) :=
  match e.schedule with
  | [] => some []
  | [] :: later => some later
  | (_ :: _) :: _ => none

/-- What a run that has just been started from outside does before the call is over. -/
def enter (e : Engine α) : Engine α :=
  match e.afterIdle with
  | none => e
  | some later =>
    match e.openClock later with
    | none => { e with phase := .over }
    | some e => e.rest e.generation

/-- Asks the run under way to stop and, from outside, waits until it has. -/
def stop (e : Engine α) (caller : Caller) : Engine α :=
  let e := { e with stopRequested := true }
  if e.phase = .absent then e
  else
    match caller with
    | .run => e.note (.stopped e.cycles)
    | .outside =>
      let e := if e.phase = .live then e.finish else e
      { e with phase := .absent }.note (.stopped e.cycles)

/-- The note that a run has been started; rates without an integer part are not noted. -/
def startEntries (e : Engine α) : List Entry :=
  match Quantity.whole e.rate, Quantity.whole e.timerRate with
  | .ok rate, .ok timerRate => [.started rate timerRate]
  | _, _ => []

/-- Starts a run with an empty account, after the run before it has been stopped. -/
def start (e : Engine α) (caller : Caller) : Engine α :=
  let e := if caller = .outside ∧ e.phase ≠ .absent then e.stop .outside else e
  let e := { e with
    stopRequested := false
    budget := Quantity.zero
    phase := .pending
    generation := e.generation + 1 }
  let e := if caller = .outside then e.enter else e
  e.noteAll e.startEntries

/-- Stops the engine and takes its machine away. -/
def destroy (e : Engine α) : Engine α :=
  { e.stop .outside with machine := none }

/-- Reads the program behind a path. -/
def readProgram (e : Engine α) (tree : Node) (path : String) :
    Engine α × Except LoadError (List Byte) :=
  let program := Rom.load tree path
  (e.noteAll (Rom.entries path program), program)

/-- Loads the program behind a path. -/
def loadFile (e : Engine α) (tree : Node) (path : String) : Engine α × Except Refusal Unit :=
  match e.readProgram tree path with
  | (e, .error reason) => (e, .error (.load reason))
  | (e, .ok program) => e.init (Byte.values program)

/-- Loads the program behind a path and starts it. A run that is under way is first stopped and
its machine reset; if there is none, the machine is left as it is. -/
def runFile (e : Engine α) (tree : Node) (path : String) : Engine α × Except Refusal Unit :=
  match e.readProgram tree path with
  | (e, .error reason) => (e, .error (.load reason))
  | (e, .ok program) =>
    match if e.isRunning then (e.stop .outside).reset else (e, .ok ()) with
    | (e, .error reason) => (e, .error reason)
    | (e, .ok ()) =>
      match e.init (Byte.values program) with
      | (e, .error reason) => (e, .error reason)
      | (e, .ok ()) => (e.start .outside, .ok ())

end Chip8.Engine
