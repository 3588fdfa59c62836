import Chip8.Display
import Chip8.Proofs.Memory.Block

/-!
# Drawing a sprite

When a sprite is drawn and when it is refused. A sprite without rows is never refused and changes
nothing; any other has to lie in memory, and then it is combined with the grid.
-/

set_option autoImplicit false

namespace Chip8

/-- The positions that are small enough, as plain bounds. -/
theorem Extent.fits_iff {z : Int} :
    fits z = true ↔ -0x8000000000000000 ≤ z ∧ z < 0x8000000000000000 := by
  have hmin : Int64.minValue.toInt = -9223372036854775808 := rfl
  have hmax : Int64.maxValue.toInt = 9223372036854775807 := rfl
  simp only [fits, hmin, hmax, Bool.and_eq_true, decide_eq_true_eq]
  omega

/-- The coordinate of a position that is small enough is that position. -/
theorem Coordinate.ofInt?_of_fits {z : Int} (h : Extent.fits z = true) :
    Coordinate.ofInt? z = some (Int64.ofInt z) :=
  if_pos h

/-- The bytes are small enough for coordinates. -/
theorem Byte.fits_of_isValue {z : Int} (h : Byte.IsValue z) : Extent.fits z = true := by
  obtain ⟨h0, h1⟩ := h
  exact Extent.fits_iff.2 (by omega)

namespace Display

variable {width height : Nat}

/-- All that a sprite takes from memory are its rows. -/
theorem draw_congr (d : Display width height) {memory other : Memory} {n a : Int} (x y : Int)
    (h : other.between a (a + n) = memory.between a (a + n)) :
    d.draw other n a x y = d.draw memory n a x y := by
  rw [draw, draw, h]

theorem draw_no_rows (d : Display width height) (memory : Memory) (a x y : Int) :
    d.draw memory 0 a x y = .ok (d, false) :=
  if_pos rfl

/-- A sprite that overruns memory is refused with the address of its last row. -/
theorem draw_of_overrun (d : Display width height) (memory : Memory) {n a : Int} (x y : Int)
    (hn : 0 < n) (h : (memorySize : Int) < a + n) :
    d.draw memory n a x y = .error (.fault (.outOfRange .sprite (a + n - 1))) := by
  rw [draw, if_neg (by omega), if_pos (by omega)]

/-- A sprite that lies in memory is combined with the grid. -/
theorem draw_of_fits (d : Display width height) (memory : Memory) {n a x y : Int}
    (hw : 0 < width) (hh : 0 < height) (hn : 0 < n) (ha : 0 ≤ a) (h : a + n ≤ memorySize)
    (hx : Extent.fits x = true) (hy : Extent.fits y = true) :
    d.draw memory n a x y =
      let rows := memory.slice a.toNat (a + n).toNat
      .ok (⟨overlay d.grid rows (Int64.ofInt x) (Int64.ofInt y), true⟩,
        d.collides rows (Int64.ofInt x) (Int64.ofInt y)) := by
  have hmin : Int64.minValue.toInt = -9223372036854775808 := rfl
  have hrows : memory.between a (a + n) = memory.slice a.toNat (a + n).toNat := by
    rw [Memory.between, if_neg (by omega)]
  rw [draw, if_neg (by omega), if_neg (by omega), if_neg (by omega), hrows]
  -- both coordinates fit, and the display has cells
  simp only [coordinate, Coordinate.ofInt?_of_fits hx, Coordinate.ofInt?_of_fits hy]
  show (if 0 < n then _ else _) = _
  rw [if_pos hn]
  exact if_neg (by omega)

end Display

end Chip8
