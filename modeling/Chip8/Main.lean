import Chip8.CommandLine

/-!
# The program

Reads the arguments, reads the program file, and prints what the command line leads to. A session
is shown in the terminal: a picture is printed when the display has changed, and the characters of
each typed line go down on the keypad one after the other, for one tick each.
-/

set_option autoImplicit false

namespace Chip8.Terminal

/-- The number of an error of the system, which may be given with either sign. -/
def errorNumber (code : UInt32) : UInt32 :=
  min code (0 - code)

/-- The read error behind an error of the system. -/
def readErrorOf (e : IO.Error) : ReadError :=
  match e with
  | .noFileOrDirectory .. => .missing
  | .inappropriateType _ code details | .invalidArgument _ code details
  | .resourceExhausted _ code details =>
    match errorNumber code with
    | 20 => .notDirectory
    | 21 => .isDirectory
    | 36 => .nameTooLong
    | _ => .other details
  | .permissionDenied _ _ details => .other details
  | other => .other (toString other)

/-- Reads the program behind a path. -/
def readProgram (path : String) : IO (Except LoadError (List Byte)) := do
  try
    let bytes ← IO.FS.readBinFile path
    return Rom.check path ⟨bytes.toList, none⟩
  catch e => return .error (.unreadable path (readErrorOf e))

/-- One step of a linear congruence on 64 bits. -/
def mixed (n : Nat) : Nat :=
  (n * 6364136223846793005 + 1442695040888963407) % (1 <<< 64)

/-- Random bytes that follow from a seed. -/
def randomBytes (seed : Nat) : RandomSource :=
  ⟨fun i => UInt8.ofNat (mixed (mixed (seed + i)) / 65536), 0⟩

/-- The milliseconds between two ticks, about a sixtieth of a second. -/
def tickMilliseconds : UInt32 := 16

/-- The lines that show a grid, two characters a cell. -/
def picture {width height : Nat} (grid : Grid width height) : List String :=
  grid.toList.map fun row => String.join (row.toList.map fun cell => if cell then "##" else "  ")

/-- Prints the display if it has changed. -/
def showDisplay (s : Session Number) : IO (Session Number) := do
  match s.engine.machine with
  | none => return s
  | some m =>
    let (display, frame) := m.display.takeFrame
    if let some grid := frame then
      IO.println "\x1b[H\x1b[2J"
      for line in picture grid do IO.println line
    return { s with engine := { s.engine with machine := some { m with display } } }

/-- Puts the characters of typed lines into the queue, until the input ends. -/
partial def readKeys (typed : IO.Ref (List Char)) : IO Unit := do
  let line ← (← IO.getStdin).getLine
  if line.isEmpty then return
  typed.modify (· ++ line.toList)
  readKeys typed

/-- Lets go of the key that was down, and presses the next one that was typed. -/
def nextKey (s : Session Number) (typed : IO.Ref (List Char)) (down : Option Char) :
    IO (Session Number × Option Char) := do
  let s := match down with
    | none => s
    | some c => (s.keyUp c.toNat).1
  match ← typed.get with
  | [] => return (s, none)
  | c :: rest =>
    typed.set rest
    return ((s.keyDown c.toNat).1, some c)

/-- Plays a session until its run ends. `since` is the time of the last tick in nanoseconds. -/
partial def play (s : Session Number) (typed : IO.Ref (List Char)) (down : Option Char)
    (since : Nat) : IO Unit := do
  IO.sleep tickMilliseconds
  let now ← IO.monoNanosNow
  let (s, down) ← nextKey s typed down
  let s := s.advance (.real ((now - since).toFloat / 1.0e9))
  let (_, lines, s) := s.report
  for line in lines do IO.println line
  let s ← showDisplay s
  if s.engine.isRunning then play s typed down now
  else if let some fault := s.engine.fault then IO.println fault.message

end Chip8.Terminal

open Chip8 Chip8.Terminal in
/-- The program. -/
def main (args : List String) : IO UInt32 := do
  let program ← match Invocation.parse args with
    | .list path | .play path _ => readProgram path
    | .usage | .badRate => pure (.ok [])
  let random := randomBytes (← IO.monoNanosNow)
  match CommandLine.run args (fun _ => program) random [] with
  | .exit code lines =>
    for line in lines do IO.println line
    return UInt32.ofNat code
  | .refused _ => return 1
  | .playing s =>
    let typed ← IO.mkRef []
    let _ ← IO.asTask (readKeys typed)
    play s typed none (← IO.monoNanosNow)
    return 0
