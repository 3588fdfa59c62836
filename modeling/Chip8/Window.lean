import Chip8.Frame
import Chip8.Fault
import Chip8.Keypad

/-!
# The window

The front end shows the display, feeds the keypad and plays the buzzer. This module holds its
state, the order in which the keyboard's keys lie on the keypad, and the calls that it makes to
the windowing and sound systems, as data.
-/

set_option autoImplicit false

namespace Chip8

/-- A task that the window has repeated at an interval. -/
inductive Task where
  | refresh
  | rate
  deriving DecidableEq, Repr

/-- The seconds between two repetitions of a task: a sixtieth for the picture, one for the rate
that the label shows. -/
def Task.interval : Task → Float
  | .refresh => 1.0 / 60.0
  | .rate => 1.0

/-- The look of the label that shows the rate. -/
structure LabelStyle where
  fontSize : Nat
  x : Int
  y : Int
  anchorX : String
  anchorY : String
  color : Colour

/-- The look of the label in a window of a given height: red, at the upper left. -/
def LabelStyle.inWindow (height : Int) : LabelStyle where
  fontSize := 12
  x := 5
  y := height - 15
  anchorX := "left"
  anchorY := "center"
  color := [255, 0, 0, 255]

/-- A tone: a sine of a duration in seconds and a frequency, sampled at a rate. -/
structure Tone where
  duration : Float
  frequency : Int
  sampleRate : Nat

/-- The frequency that the buzzer's tone varies around. -/
def toneFrequency : Int := 440

/-- The tone of the buzzer at a frequency. -/
def Tone.ofFrequency (frequency : Int) : Tone :=
  ⟨0.2, frequency, 44100⟩

/-- A call to the windowing or the sound system. -/
inductive WindowCall where
  | openWindow (width height : Int) (caption : String)
  | setCaption (text : String)
  | clear
  | close
  | closeBase
  | makeImage (width height : Int) (frame : Frame)
  | setImage (pitch : Int) (frame : Frame)
  | showImage (x y : Int)
  | makeLabel (text : String) (style : LabelStyle)
  | showLabel (text : String)
  | queueTone (tone : Tone)
  | playTone
  | deleteTone
  | schedule (task : Task)
  | unschedule (task : Task)

/-- The state of the window. -/
structure Window where
  scale : Int
  baseCaption : String
  caption : String
  label : String
  lastCycles : Nat
  soundWanted : Bool
  soundPlaying : Bool
  /-- Whether a tone has been played yet. -/
  soundPlayed : Bool
  deriving DecidableEq, Repr

namespace Window

/-- The number of pixels that a cell is wide and high if nothing else is said. -/
def defaultScale : Int := 10

/-- The caption if nothing else is said. -/
def defaultCaption : String := "CHIP-8 Emulator"

/-- The width of the window in pixels. -/
def width (w : Window) : Int :=
  64 * w.scale

/-- The height of the window in pixels. -/
def height (w : Window) : Int :=
  32 * w.scale

/-- The label for a number of cycles a second. -/
def rateText (rate : Int) : String :=
  "Cycles/s: " ++ toString rate

/-- A new window. -/
def create (scale : Int) (caption : String) (cycles : Nat) : Window where
  scale := scale
  baseCaption := caption
  caption := caption
  label := rateText 0
  lastCycles := cycles
  soundWanted := false
  soundPlaying := false
  soundPlayed := false

/-- The picture of a grid in the window. -/
def picture (w : Window) (grid : Grid 64 32) : Except FrameError Frame :=
  Frame.render grid w.scale .lit .dark

/-- The caption that shows a fault. -/
def faultCaption (w : Window) (fault : Fault) : String :=
  w.baseCaption ++ " - " ++ fault.message

end Window

/-- What a key of the keyboard is for. -/
inductive KeyAction where
  | close
  | toggleJournal
  | key (k : Key)
  deriving DecidableEq, Repr

/-- The keyboard symbols in the order of the keypad's keys `0` to `F`: the keypad's four rows lie
on the four keys at the left of each of the keyboard's rows. -/
def keySymbols : List Nat :=
  ['x', '1', '2', '3', 'q', 'w', 'e', 'a', 's', 'd', 'z', 'c', '4', 'r', 'f', 'v'].map Char.toNat

/-- The keypad's key under a symbol of the keyboard. -/
def Key.ofSymbol? (symbol : Int) : Option Key :=
  match keySymbols.findIdx? fun (s : Nat) => (s : Int) = symbol with
  | none => none
  | some i => Key.ofInt? i

/-- The symbol of the escape key. -/
def escapeSymbol : Int := 0xFF1B

/-- The symbol of the first function key. -/
def firstFunctionSymbol : Int := 0xFFBE

/-- What the key with a given symbol is for. -/
def KeyAction.ofSymbol? (symbol : Int) : Option KeyAction :=
  if symbol = escapeSymbol then some .close
  else if symbol = firstFunctionSymbol then some .toggleJournal
  else (Key.ofSymbol? symbol).map .key

end Chip8
