import Chip8.Display

/-!
# Frames

A frame is a picture of a grid: every cell becomes a square block of one colour, and the rows come
bottom up, because a picture starts at its lower left corner. `Frame.render` makes a frame of a
grid; `Frame.ofPixels` first checks pixels and colours that are given as plain integers.
-/

set_option autoImplicit false

namespace Chip8

/-- A colour as its components: red, green, blue and opacity. -/
abbrev Colour := List Byte

/-- The colour of a cell that is on. -/
def Colour.lit : Colour := [255, 255, 255, 255]

/-- The colour of a cell that is off. -/
def Colour.dark : Colour := [0, 0, 0, 255]

/-- Why pixels and colours make no frame. -/
inductive FrameError where
  | raggedPixels
  | pixelNotAByte
  | raggedPalette
  | componentNotAByte
  | noSuchColour
  | scaleTooLarge
  | extent (reason : ExtentError)
  deriving DecidableEq, Repr

/-- A picture: its width, its number of components a pixel, and its rows. A picture that was made
without any row has no width. -/
structure Frame where
  width : Option Nat
  components : Nat
  rows : List (List Colour)
  deriving DecidableEq, Repr

namespace Frame

/-- The number of rows of a frame. -/
def height (f : Frame) : Nat :=
  f.rows.length

/-- The lengths of a frame's edges. -/
def shape (f : Frame) : List Nat :=
  f.height :: f.width.toList ++ [f.components]

/-- One row of cells, each `scale` pixels wide. -/
def renderRow (scale : Nat) (on off : Colour) (cells : List Bool) : List Colour :=
  cells.flatMap fun cell => List.replicate scale (if cell then on else off)

/-- The frame of rows of cells that are all `width` cells long. -/
def ofRows (width : Option Nat) (scale : Nat) (on off : Colour) (cells : List (List Bool)) :
    Frame where
  width := width.map (· * scale)
  components := off.length
  rows := cells.reverse.flatMap fun row => List.replicate scale (renderRow scale on off row)

/-- Refuses a frame whose edges cannot be laid out. -/
def checkRoom (edges : List Nat) : Except FrameError Unit :=
  (Extent.check edges).mapError .extent

/-- The length of an edge after each place on it has been repeated. -/
def stretch (scale : Int) (n : Nat) : Except FrameError Nat :=
  (Extent.stretch scale n).mapError .extent

/-- Magnifies rows of cells, first along the height and then along the width; without a width it
is the components that are magnified. The scale has to fit into 64 bits. Lengths that go beyond 64
bits start again from the smallest, and may then leave a frame of empty rows. -/
def magnify (width : Option Nat) (scale : Int) (on off : Colour) (cells : List (List Bool)) :
    Except FrameError Frame := do
  unless Extent.fits scale do throw .scaleTooLarge
  let height ← stretch scale cells.length
  let components := off.length
  checkRoom (height :: width.toList ++ [components])
  match width with
  | none =>
    let components ← stretch scale components
    checkRoom [height, components]
    return ⟨none, components, []⟩
  | some w =>
    let stretched ← stretch scale w
    checkRoom [height, stretched, components]
    if (height : Int) = scale * cells.length ∧ (stretched : Int) = scale * w then
      return ofRows width scale.toNat on off cells
    else return ⟨some stretched, components, List.replicate height []⟩

/-- The frame of rows of cells that are all `width` cells long, at a given scale. One pixel is laid
out for each cell before anything is magnified. -/
def ofCells (width : Option Nat) (scale : Int) (on off : Colour) (cells : List (List Bool)) :
    Except FrameError Frame := do
  checkRoom (cells.length :: width.toList ++ [off.length])
  if scale = 1 then return ofRows width 1 on off cells
  magnify width scale on off cells

/-- The frame of a grid. -/
def render {width height : Nat} (grid : Grid width height) (scale : Int)
    (on off : Colour) : Except FrameError Frame :=
  ofCells (some width) scale on off (grid.toList.map Vector.toList)

/-- The cells that integers stand for: `0` is off and `1` is on. -/
def cellsOf (pixels : List (List Int)) : Except FrameError (List (List Bool)) :=
  if pixels.all fun row => row.all fun z => z = 0 || z = 1 then
    .ok (pixels.map fun row => row.map (· = 1))
  else .error .noSuchColour

/-- The frame of pixels that are given as integers. What is wrong with the pixels is told before
what is wrong with the colours, and a bad scale last. -/
def ofPixels (pixels : List (List Int)) (scale : Int) (on off : List Int) :
    Except FrameError Frame := do
  let width := pixels.head?.map List.length
  unless pixels.all fun row => some row.length = width do throw .raggedPixels
  unless pixels.all fun row => row.all fun z => (Byte.ofInt? z).isSome do throw .pixelNotAByte
  unless on.length = off.length do throw .raggedPalette
  let .ok lit := Byte.ofInts on | throw .componentNotAByte
  let .ok dark := Byte.ofInts off | throw .componentNotAByte
  let cells ← cellsOf pixels
  ofCells width scale lit dark cells

end Frame

end Chip8
