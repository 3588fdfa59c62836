import Chip8.Session.Window

/-!
# Actions on a session

Everything that can happen to a session, as data: commands to the engine, the switching of the
journal, and what the windowing system reports.
-/

set_option autoImplicit false

namespace Chip8

/-- Something that happens to a session. -/
inductive Action (α : Type) where
  | command (c : Command α)
  | switchJournal (on : Bool)
  | refresh
  | showRate (dt : α)
  | beep (spread : Int)
  | endTone
  | keyDown (symbol : Int)
  | keyUp (symbol : Int)
  | draw
  | deactivate
  | close

/-- Whether an action is one that the windowing system reports. -/
def Action.ofWindow {α : Type} : Action α → Bool
  | .command _ | .switchJournal _ => false
  | _ => true

/-- Carries an action out. -/
def Session.act {α : Type} [Quantity α] (s : Session α) :
    Action α → Session α × Except Refusal Reply
  | .command c => s.command c
  | .switchJournal on => (s.switchJournal on, .ok .done)
  | .refresh => s.refresh
  | .showRate dt => s.showRate dt
  | .beep spread => (s.beep spread, .ok .done)
  | .endTone => s.endTone
  | .keyDown symbol => s.keyDown symbol
  | .keyUp symbol => s.keyUp symbol
  | .draw => (s.drawWindow, .ok .done)
  | .deactivate => s.deactivate
  | .close => (s.closeWindow, .ok .done)

/-- The session after an action, and the reply to it. The windowing system reports nothing to a
session without a window. -/
def Session.perform {α : Type} [Quantity α] (s : Session α) (a : Action α) :
    Session α × Except Refusal Reply :=
  if a.ofWindow && s.window.isNone then (s, .error .noWindow) else s.act a

end Chip8
