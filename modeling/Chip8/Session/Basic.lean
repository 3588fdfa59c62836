import Chip8.Engine.Command
import Chip8.Window

/-!
# Sessions

A session is an engine with what surrounds it: perhaps a window, a journal, a tree of files and
the numbers that vary the pitch of the buzzer. Every command goes to the engine first, which
sees whether the journal takes the trace; then pending runs are played, and what the engine has
signalled is handed on: entries to the journal, the buzzer to the window if there is one, and the
rest to the list of events. Nobody need listen
for refreshes and faults; a window does not, since it looks at the display and at the fault
itself.
-/

set_option autoImplicit false

namespace Chip8

/-- Something that can be observed from outside a session. -/
inductive Event where
  | refresh
  | buzzer (on : Bool)
  | fault (reason : Fault)
  | window (call : WindowCall)

/-- An engine and what surrounds it. Refreshes and faults become events only if someone is
listening for them. Events and lines are kept with the newest first. -/
structure Session (α : Type) where
  engine : Engine α
  listening : Bool
  window : Option Window
  journal : Journal
  files : Node
  pitches : List Int
  events : List Event
  lines : List String

namespace Session

variable {α : Type} [Quantity α]

/-- A session without a window whose journal is closed. -/
def create (engine : Engine α) (listening : Bool) (pitches : List Int) : Session α :=
  ⟨engine, listening, none, .closed, .emptyDirectory, pitches, [], []⟩

/-- The session after an event. -/
def emit (s : Session α) (event : Event) : Session α :=
  { s with events := event :: s.events }

/-- The session after a call of the window. -/
def call (s : Session α) (c : WindowCall) : Session α :=
  s.emit (.window c)

/-- The session after an event that someone has to listen for. -/
def announce (s : Session α) (event : Event) : Session α :=
  if s.listening then s.emit event else s

/-- Writes an entry down if the journal takes it. -/
def write (s : Session α) (entry : Entry) : Session α :=
  { s with lines := (s.journal.write [entry]).reverse ++ s.lines }

/-- Hands a signal of the engine on. -/
def receive (s : Session α) : Signal → Session α
  | .entry entry => s.write entry
  | .refresh => s.announce .refresh
  | .fault reason => s.announce (.fault reason)
  | .buzzer on =>
    match s.window with
    | none => s.emit (.buzzer on)
    | some w => { s with window := some { w with soundWanted := on } }

/-- Takes an engine over and hands on what it has signalled. -/
def adopt (s : Session α) (engine : Engine α) : Session α :=
  engine.trail.reverse.foldl receive { s with engine := { engine with trail := [] } }

/-- Gives the engine a command and settles it. -/
def command (s : Session α) (c : Command α) : Session α × Except Refusal Reply :=
  letI := s.journal.tracing
  let (engine, result) := s.engine.perform s.files c
  (s.adopt engine.settle, result)

/-- Lets a live run make one more tick. -/
def advance (s : Session α) (dt : α) : Session α :=
  letI := s.journal.tracing
  s.adopt (s.engine.advance dt).settle

/-- Switches the journal, which notes it. -/
def switchJournal (s : Session α) (on : Bool) : Session α :=
  { s with journal := s.journal.switch on }.write (.switched on)

/-- What has happened since the last report, the oldest first, and the session after it. -/
def report (s : Session α) : List Event × List String × Session α :=
  (s.events.reverse, s.lines.reverse, { s with events := [], lines := [] })

end Session

end Chip8
