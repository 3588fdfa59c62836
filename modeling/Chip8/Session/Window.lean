import Chip8.Session.Basic

/-!
# The window of a session

What the window does when it is opened and closed, when its tasks are due, and when a key of the
keyboard moves. The window looks at the engine's machine, cycles and fault; keys and the closing
of the window become commands.
-/

set_option autoImplicit false

namespace Chip8.Session

variable {α : Type} [Quantity α]

/-- Opens a window on the engine's machine. -/
def openWindow (s : Session α) (scale : Int) (caption : String) :
    Except Refusal (Session α) :=
  let w := Window.create scale caption s.engine.cycles
  match s.engine.machine with
  | none => .error .noMachine
  | some m =>
    match w.picture m.display.grid with
    | .error reason => .error (.frame reason)
    | .ok frame =>
      let calls : List WindowCall := [
        .openWindow w.width w.height caption,
        .makeImage w.width w.height frame,
        .makeLabel w.label (.inWindow w.height),
        .schedule .refresh,
        .schedule .rate]
      .ok (calls.foldl call { s with window := some w })

/-! ## The buzzer -/

/-- How far the pitch of the buzzer varies if nothing else is said. -/
def defaultSpread : Int := 15

/-- The next number that varies the pitch, between `-spread` and `spread`; the lowest when the
list of numbers is used up. -/
def nextPitch (s : Session α) (spread : Int) : Session α × Int :=
  match s.pitches with
  | [] => (s, -spread)
  | p :: rest => ({ s with pitches := rest }, -spread + Int.fmod p (2 * spread + 1))

/-- Plays the buzzer's tone once. -/
def beep (s : Session α) (spread : Int) : Session α :=
  match s.window with
  | none => s
  | some w =>
    let (s, pitch) := s.nextPitch spread
    let s := (s.call (.queueTone (.ofFrequency (toneFrequency + pitch)))).call .playTone
    { s with window := some { w with soundPlaying := true, soundPlayed := true } }

/-- The end of the last tone. -/
def endTone (s : Session α) : Session α × Except Refusal Reply :=
  match s.window with
  | none => (s, .error .noWindow)
  | some w =>
    if w.soundPlayed then
      ({ s with window := some { w with soundPlaying := false } }.call .deleteTone, .ok .done)
    else (s, .error .noTone)

/-! ## Tasks -/

/-- Shows a new picture if the display has changed. -/
def showFrame (s : Session α) (w : Window) (m : Machine) : Session α × Except Refusal Unit :=
  let (display, grid) := m.display.takeFrame
  let s := { s with engine := { s.engine with machine := some { m with display } } }
  match grid with
  | none => (s, .ok ())
  | some grid =>
    match w.picture grid with
    | .error reason => (s, .error (.frame reason))
    | .ok frame => (s.call (.setImage (w.width * 4) frame), .ok ())

/-- Plays the tone if it is wanted and not playing. -/
def showSound (s : Session α) : Session α :=
  match s.window with
  | none => s
  | some w => if w.soundWanted && !w.soundPlaying then s.beep defaultSpread else s

/-- Shows the last fault in the caption. A caption that shows a fault stays until the next one. -/
def showFault (s : Session α) : Session α :=
  match s.window, s.engine.fault with
  | some w, some fault =>
    let caption := w.faultCaption fault
    if w.caption = caption then s
    else { s with window := some { w with caption } }.call (.setCaption caption)
  | _, _ => s

/-- Brings picture, sound and caption up to date. -/
def refresh (s : Session α) : Session α × Except Refusal Reply :=
  match s.window, s.engine.machine with
  | none, _ => (s, .ok .done)
  | some _, none => (s, .error .noMachine)
  | some w, some m =>
    match s.showFrame w m with
    | (s, .error reason) => (s, .error reason)
    | (s, .ok ()) => (s.showSound.showFault, .ok .done)

/-- The integer part of a number of cycles divided by a time. -/
def cyclesPer (cycles : Int) (dt : α) : Except ArithmeticError Int := do
  Quantity.whole (← Quantity.div (Quantity.ofInt cycles) dt)

/-- Shows how many cycles a second have been executed in the last `dt` seconds. -/
def showRate (s : Session α) (dt : α) : Session α × Except Refusal Reply :=
  match s.window with
  | none => (s, .ok .done)
  | some w =>
    match cyclesPer (s.engine.cycles - w.lastCycles) dt with
    | .error reason => (s, .error (.arithmetic reason))
    | .ok rate =>
      let w := { w with label := Window.rateText rate, lastCycles := s.engine.cycles }
      ({ s with window := some w }, .ok .done)

/-- Draws the window's contents. -/
def drawWindow (s : Session α) : Session α :=
  match s.window with
  | none => s
  | some w => ((s.call .clear).call (.showImage 0 0)).call (.showLabel w.label)

/-! ## The keyboard -/

/-- A key of the keyboard goes down. -/
def keyDown (s : Session α) (symbol : Int) : Session α × Except Refusal Reply :=
  match KeyAction.ofSymbol? symbol with
  | none => (s, .ok .done)
  | some .close => (s.call .close, .ok .done)
  | some .toggleJournal => (s.switchJournal (!s.journal.isOn), .ok .done)
  | some (.key k) => s.command (.operate (.press k.val))

/-- A key of the keyboard goes up. -/
def keyUp (s : Session α) (symbol : Int) : Session α × Except Refusal Reply :=
  match Key.ofSymbol? symbol with
  | none => (s, .ok .done)
  | some k => s.command (.operate (.release k.val))

/-- The window loses the keyboard: every key counts as up. -/
def deactivate (s : Session α) : Session α × Except Refusal Reply :=
  s.command (.operate .releaseAll)

/-- The window is closed: its tasks end and the engine is stopped. -/
def closeWindow (s : Session α) : Session α :=
  let s := (s.call (.unschedule .refresh)).call (.unschedule .rate)
  (s.command .stop).1.call .closeBase

end Chip8.Session
