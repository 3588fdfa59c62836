import Chip8.Engine.Cycles

/-!
# Background runs

The life of a run that has ticks. On each tick its clock calls two functions: one counts the
timers down, the other executes the slice of instructions. Before each tick, and before each of
the two functions, the run looks whether it has to stop. An error ends it at once. When the list
of ticks is used up the run rests.

`settle` plays whatever is pending once a call from outside is over.
-/

set_option autoImplicit false

namespace Chip8.Engine

variable {α : Type} [Quantity α] [Tracing]

/-- Counts one more tick of the newest clock. -/
def countTick (e : Engine α) : Engine α :=
  match e.clocks with
  | clock :: older => { e with clocks := { clock with ticks := clock.ticks + 1 } :: older }
  | [] => e

/-- Carries one of a run's functions out, unless the run has to stop. -/
def guarded (e : Engine α) (id : Nat) (act : Engine α → Engine α × Except Refusal Unit) :
    Engine α × Except Refusal Unit :=
  if e.stopped id then (e, .ok ()) else act e

/-- One tick of the clock of the run `id`. -/
def tick (id : Nat) (e : Engine α) (dt : α) : Engine α × Except Refusal Unit :=
  match e.countTick.guarded id (·.tickTimers .run) with
  | (e, .error reason) => (e, .error reason)
  | (e, .ok ()) => e.guarded id (·.cpuTick .run dt)

/-- The ticks of the run `id`, until it has to stop, dies or has none left. -/
def play (id : Nat) : List α → Engine α → Engine α
  | [], e => e.rest id
  | dt :: rest, e =>
    if e.stopped id then e.finish
    else
      match e.tick id dt with
      | (e, .error _) => e.finish
      | (e, .ok ()) => play id rest e

/-- One more tick of a run that is live. -/
def advance (e : Engine α) (dt : α) : Engine α :=
  if e.phase = .live then play e.generation [dt] e else e

/-- Begins a pending run whose ticks take the given times. -/
def begin (e : Engine α) (times : List α) (later : List (List α)) : Engine α :=
  match e.openClock later with
  | none => { e with phase := .over }
  | some e => play e.generation times e

/-- Plays pending runs one after the other, each with its own list of times. -/
def playPending : List (List α) → Engine α → Engine α
  | [], e => if e.phase = .pending then e.begin [] [] else e
  | times :: later, e =>
    if e.phase = .pending then playPending later (e.begin times later) else e

/-- What becomes of the engine once a call from outside is over: pending runs are played, and a
live run that was asked to stop ends. -/
def settle (e : Engine α) : Engine α :=
  let e := playPending e.schedule e
  if e.phase = .live ∧ e.stopRequested then e.finish else e

end Chip8.Engine
