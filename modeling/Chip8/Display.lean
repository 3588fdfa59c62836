import Chip8.Extent
import Chip8.Memory

/-!
# Display

A grid of cells that are on or off, and a flag that tells whether the grid may have changed since
a frame was last taken. Sprites are eight cells wide and one byte a row high; they are combined
with the grid by exclusive or and wrap around both edges. On a grid that is smaller than the
sprite several sprite bits fall on one cell, and then the last one, row by row and from left to
right, decides.

A sprite is placed by 64-bit coordinates, which themselves run in a circle: behind the largest
comes the smallest. Unless the size of the display divides `2 ^ 64`, a sprite that reaches over
this seam is torn there.
-/

set_option autoImplicit false

namespace Chip8

/-- The cells of a display, row by row from the top. -/
abbrev Grid (width height : Nat) := Vector (Vector Bool width) height

/-- Where a row or a column of a sprite lies before it is wrapped around an edge. -/
abbrev Coordinate := Int64

/-- The coordinate with a given value, if there is one. -/
def Coordinate.ofInt? (z : Int) : Option Coordinate :=
  if Extent.fits z then some (Int64.ofInt z) else none

/-- The places of `count` neighbouring coordinates on a circle of `size` places. -/
def places (size : Nat) (start : Coordinate) (count : Nat) : List Nat :=
  (List.range count).map fun i => ((start + Int64.ofNat i).toInt % size).toNat

/-- The last position at which a place stands in a list. -/
def lastPosition? (p : Nat) : List Nat → Option Nat
  | [] => none
  | q :: rest =>
    match lastPosition? p rest with
    | some i => some (i + 1)
    | none => if p = q then some 0 else none

/-- The number of cells in a row of a sprite. -/
def spriteWidth : Nat := 8

/-- The bit of a sprite in row `r` and column `c`; the most significant bit is on the left. -/
def spriteBit (rows : List Byte) (r c : Nat) : Bool :=
  (rows[r]?.getD 0).toNat.testBit (spriteWidth - 1 - c)

/-- A display of a given size. -/
structure Display (width height : Nat) where
  grid : Grid width height
  dirty : Bool
  deriving DecidableEq

namespace Display

variable {width height : Nat}

/-- A display with every cell off, whose first frame has yet to be taken. -/
def blank : Display width height :=
  ⟨tabulate height fun _ => Vector.replicate width false, true⟩

/-- The display with every cell off. -/
def clear (_ : Display width height) : Display width height :=
  blank

/-- The cell at a position, wrapped around both edges; a display without cells has none. -/
def cell? (d : Display width height) (x y : Int) : Option Bool :=
  let i := (y % height).toNat
  let j := (x % width).toNat
  if h : i < height ∧ j < width then some ((d.grid.get ⟨i, h.1⟩).get ⟨j, h.2⟩) else none

/-- Whether the cell at a position, wrapped around both edges, is on. -/
def cell (d : Display width height) (x y : Int) : Bool :=
  (d.cell? x y).getD false

/-- The display with one more cell on; a negative position counts from the right or lower edge.
The flag is left as it is. -/
def light? (d : Display width height) (x y : Int) : Option (Display width height) := do
  let i ← index? height y
  let j ← index? width x
  return { d with grid := d.grid.set i.val ((d.grid.get i).set j.val true j.isLt) i.isLt }

/-- The grid after a sprite has been combined with it. -/
def overlay (grid : Grid width height) (rows : List Byte) (x y : Coordinate) :
    Grid width height :=
  let ys := places height y rows.length
  let xs := places width x spriteWidth
  tabulate height fun i =>
    match lastPosition? i.val ys with
    | none => grid.get i
    | some r => tabulate width fun j =>
      match lastPosition? j.val xs with
      | none => (grid.get i).get j
      | some c => (grid.get i).get j ^^ spriteBit rows r c

/-- Whether some bit of a sprite falls on a cell that is on. -/
def collides (d : Display width height) (rows : List Byte) (x y : Coordinate) : Bool :=
  ((places height y rows.length).zipIdx).any fun (i, r) =>
    ((places width x spriteWidth).zipIdx).any fun (j, c) => spriteBit rows r c && d.cell j i

/-- The coordinate at which a sprite is placed. -/
def coordinate (z : Int) : Except Failure Coordinate :=
  match Coordinate.ofInt? z with
  | none => .error (.misfit (.notACoordinate z))
  | some p => .ok p

/-- Combines a sprite with the display, and tells whether it met a cell that was on. -/
def combine (d : Display width height) (rows : List Byte) (x y : Coordinate) :
    Except Failure (Display width height × Bool) :=
  if width = 0 ∨ height = 0 then .error (.misfit .noCells)
  else .ok (⟨overlay d.grid rows x y, true⟩, d.collides rows x y)

/-- Draws the sprite of `n` rows at address `a` with its top left corner at `(x, y)`, and tells
whether it met a cell that was on. A sprite without rows changes nothing, wherever it lies. One
with a negative number of rows covers no cell, but the display counts as drawn on; the number has
to fit into 64 bits, and the bytes from `a` up to `a + n` may then be one at most. -/
def draw (d : Display width height) (memory : Memory) (n a x y : Int) :
    Except Failure (Display width height × Bool) :=
  if n = 0 then .ok (d, false)
  else if a < 0 ∨ (memorySize : Int) - 1 < a + n - 1 then
    .error (.fault (.outOfRange .sprite (a + n - 1)))
  else if n < Int64.minValue.toInt then .error (.misfit (.notAHeight n))
  else do
    let rows := memory.between a (a + n)
    -- if neither coordinate fits, it is the row that is reported
    let y ← coordinate y
    let x ← coordinate x
    if 0 < n then d.combine rows x y
    else if rows.length ≤ 1 then return ({ d with dirty := true }, false)
    else .error (.misfit (.notAHeight n))

/-- The grid if it may have changed since the last frame was taken; the flag is cleared. -/
def takeFrame (d : Display width height) : Display width height × Option (Grid width height) :=
  if d.dirty then (⟨d.grid, false⟩, some d.grid) else (d, none)

/-- A display with sides of given lengths, and every cell off. -/
def ofSides (width height : Int) :
    Except ExtentError ((w : Nat) × (h : Nat) × Display w h) := do
  let h ← Extent.length height
  let w ← Extent.length width
  Extent.check [h, w]
  return ⟨w, h, blank⟩

end Display

/-- The display of the machine. -/
abbrev Screen := Display 64 32

end Chip8
