import Chip8.Engine.Pace
import Chip8.Machine.Operation

/-!
# The engine

An engine owns a machine and drives it: in the foreground, by direct calls, or by a run in the
background that follows a clock. The clock of a run is given by the list of times that its ticks
report; `schedule` holds these lists for the runs to come.

A run is pending from its start until the call that started it is over, then live until it is
stopped, dies of an error, or is superseded by a run that was started from within. Runs are
numbered by `generation`; a run has to stop as soon as a stop is requested or the generation is no
longer its own.

What the engine tells the outside is kept in `trail`, the newest signal first: journal entries,
refreshes, changes of the buzzer and faults.

## What is left out

There is no lock. It keeps whatever else happens away from a call, and from a function that a clock
calls, and here each of these is carried out in one go. There are no threads to wait for: a stop
that has to wait for a run ends it on the spot. A call for which a run waits, while the call waits
for the run, would never come back; it is carried out all the same, and `Deed.Returns` tells it from
the others. And there is no clock of the windowing system: `schedule` says how often it calls, and
what times it reports.
-/

set_option autoImplicit false

namespace Chip8

/-- Something that the engine tells the outside. -/
inductive Signal where
  | entry (e : Entry)
  | refresh
  | buzzer (on : Bool)
  | fault (reason : Fault)
  deriving DecidableEq, Repr

/-- What happens when a program has met a fault. -/
inductive FaultPolicy where
  | ignore
  | stop
  | restart (program : List Int)
  deriving DecidableEq, Repr

/-- How the outside reacts to what the engine does: to a fault, by a stop on a given refresh, and
by a stop while a given random byte is drawn. -/
structure Policy where
  onFault : FaultPolicy
  stopOnRefresh : Option Nat
  stopOnRandom : Option Nat
  deriving DecidableEq, Repr

/-- What has become of the latest run: there is none to wait for, it has yet to begin, it is at
work, or it has ended by itself. -/
inductive Phase where
  | absent
  | pending
  | live
  | over
  deriving DecidableEq, Repr

/-- Whether the latest run has not ended. -/
def Phase.alive : Phase → Bool
  | .pending | .live => true
  | .absent | .over => false

/-- Where a call comes from: from outside of every run, or from within the latest run. -/
inductive Caller where
  | outside
  | run
  deriving DecidableEq, Repr

/-- The clock of a run: its period, the number of ticks it has made, and the number of functions
that it calls on each tick. -/
structure Clock (α : Type) where
  period : α
  ticks : Nat
  scheduled : Nat

/-- The state of an engine. The newest clock comes first. -/
structure Engine (α : Type) where
  machine : Option Machine
  rate : α
  timerRate : α
  policy : Policy
  schedule : List (List α)
  cycles : Nat
  fault : Option Fault
  soundOn : Bool
  budget : α
  phase : Phase
  stopRequested : Bool
  generation : Nat
  clocks : List (Clock α)
  refreshes : Nat
  trail : List Signal

namespace Engine

variable {α : Type}

/-- The number of instructions a second if nothing else is said. -/
def defaultRate : Int := 500

/-- The number of timer ticks a second if nothing else is said. -/
def defaultTimerRate : Int := 60

/-- The text that refuses rates. -/
def ratesMessage : String := "ips and timer_hz must be positive"

/-- A new engine with a fresh machine; rates that are zero or negative are refused. -/
def create [Quantity α] (rate timerRate : α) (random : RandomSource) (policy : Policy)
    (schedule : List (List α)) : Except Refusal (Engine α) :=
  if Quantity.atMostZero rate || Quantity.atMostZero timerRate then .error .rates
  else .ok {
    machine := some (.fresh .idle random)
    rate, timerRate, policy, schedule
    cycles := 0
    fault := none
    soundOn := false
    budget := Quantity.zero
    phase := .absent
    stopRequested := false
    generation := 0
    clocks := []
    refreshes := 0
    trail := [] }

/-- The engine after it has told the outside something. -/
def signal (e : Engine α) (s : Signal) : Engine α :=
  { e with trail := s :: e.trail }

/-- The engine after it has noted something. -/
def note (e : Engine α) (entry : Entry) : Engine α :=
  e.signal (.entry entry)

/-- The engine after it has noted several things. -/
def noteAll (e : Engine α) (entries : List Entry) : Engine α :=
  entries.foldl note e

/-- Whether a run is under way and has not been asked to stop. -/
def isRunning (e : Engine α) : Bool :=
  e.phase.alive && !e.stopRequested

/-- Whether the run under way has been asked to stop. Without a run a request has no effect. -/
def stopping (e : Engine α) : Bool :=
  e.phase.alive && e.stopRequested

/-- Whether the run of a given number has to stop. -/
def stopped (e : Engine α) (id : Nat) : Bool :=
  e.generation != id || e.stopRequested

/-- Switches the buzzer, and tells the outside if that changes it. -/
def setSound (e : Engine α) (on : Bool) : Engine α :=
  if on = e.soundOn then e
  else ({ e with soundOn := on }.note (.buzzer on)).signal (.buzzer on)

end Engine

end Chip8
