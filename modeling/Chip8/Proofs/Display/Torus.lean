import Chip8.Proofs.Display.Draw
import Chip8.Proofs.Display.Frames
import Mathlib

/-!
# The torus

A sprite is combined with the grid cell by cell: every cell is xored with a mask that the grid has
no part in (`Display.get_overlay`). As long as the sprite is no larger than the display and no
seam of the coordinates tears it, its cells fall on different places of a torus, so that the mask
is set exactly where a set bit of the sprite falls (`Display.mask_eq_true_iff`).
`Display.draw_on_torus` says what follows for a draw.
-/

set_option autoImplicit false

namespace Chip8

/-! ## The last position in a list -/

theorem getElem?_of_lastPosition? {p i : Nat} {l : List Nat} (h : lastPosition? p l = some i) :
    l[i]? = some p := by
  induction l generalizing i with
  | nil => cases h
  | cons q rest ih =>
      rw [lastPosition?] at h
      cases hr : lastPosition? p rest with
      | some k =>
          rw [hr] at h
          cases h
          exact ih hr
      | none =>
          rw [hr] at h
          obtain ⟨rfl, hi⟩ := Option.ite_none_right_eq_some.1 h
          cases hi
          rfl

theorem exists_lastPosition? {p i : Nat} {l : List Nat} (h : l[i]? = some p) :
    ∃ k, lastPosition? p l = some k := by
  induction l generalizing i with
  | nil => cases h
  | cons q rest ih =>
      rw [lastPosition?]
      cases hr : lastPosition? p rest with
      | some k => exact ⟨k + 1, rfl⟩
      | none =>
          cases i with
          | zero =>
              obtain rfl : q = p := Option.some.inj h
              exact ⟨0, if_pos rfl⟩
          | succ i =>
              obtain ⟨k, hk⟩ := ih h
              rw [hr] at hk
              cases hk

/-- In a list without repetitions the last position of an entry is its only one. -/
theorem lastPosition?_eq_some_iff {p i : Nat} {l : List Nat} (hl : l.Nodup) :
    lastPosition? p l = some i ↔ l[i]? = some p := by
  constructor
  · exact getElem?_of_lastPosition?
  · intro h
    obtain ⟨k, hk⟩ := exists_lastPosition? h
    have hboth : l[k]? = l[i]? := (getElem?_of_lastPosition? hk).trans h.symm
    have hlt : k < l.length := (List.getElem?_eq_some_iff.1 (getElem?_of_lastPosition? hk)).1
    rw [hk, (List.getElem?_inj hlt hl).1 hboth]

/-! ## Places on a circle -/

/-- A row of `count` neighbouring positions from `z` on is not torn: either it ends within 64
bits, or it goes on behind the seam as if there were none, because the size divides `2 ^ 64`. -/
structure Seamless (size : Nat) (z : Int) (count : Nat) : Prop where
  fits : Extent.fits z = true
  whole : Extent.fits (z + count - 1) = true ∨ (size : Int) ∣ 2 ^ 64

instance (size : Nat) (z : Int) (count : Nat) : Decidable (Seamless size z count) :=
  decidable_of_iff
    (Extent.fits z = true ∧ (Extent.fits (z + count - 1) = true ∨ (size : Int) ∣ 2 ^ 64))
    ⟨fun ⟨hfits, hwhole⟩ => ⟨hfits, hwhole⟩, fun ⟨hfits, hwhole⟩ => ⟨hfits, hwhole⟩⟩

/-- The place of a coordinate in an untorn row. -/
theorem Seamless.toInt_emod {size : Nat} {z : Int} {count i : Nat} (h : Seamless size z count)
    (hi : i < count) (hc : count < 2 ^ 63) :
    (Int64.ofInt z + Int64.ofNat i).toInt % size = (z + i) % size := by
  have hz := Extent.fits_iff.1 h.fits
  rw [Int64.toInt_add, Int64.toInt_ofInt_of_le hz.1 hz.2, Int64.toInt_ofNat_of_lt (by omega)]
  rcases h.whole with hlast | hdvd
  · have hend := Extent.fits_iff.1 hlast
    rw [Int.bmod_eq_of_le (by omega) (by omega)]
  · rw [← Int.emod_emod_of_dvd (Int.bmod _ _) hdvd, ← Int.emod_emod_of_dvd (z + i) hdvd]
    exact congrArg (· % (size : Int)) Int.bmod_emod

/-- The places of an untorn row, one after the other around the circle. -/
theorem Seamless.places_eq {size : Nat} {z : Int} {count : Nat} (h : Seamless size z count)
    (hc : count < 2 ^ 63) :
    places size (Int64.ofInt z) count =
      (List.range count).map fun (i : Nat) => ((z + i) % size).toNat := by
  refine List.map_congr_left fun i hi => ?_
  rw [h.toInt_emod (List.mem_range.1 hi) hc]

theorem Seamless.getElem?_places {size : Nat} {z : Int} {count : Nat} (h : Seamless size z count)
    (hs : 0 < size) (hc : count < 2 ^ 63) {i p : Nat} :
    (places size (Int64.ofInt z) count)[i]? = some p ↔ i < count ∧ (p : Int) = (z + i) % size := by
  rw [h.places_eq hc, List.getElem?_map]
  have hnonneg : 0 ≤ (z + i) % (size : Int) := Int.emod_nonneg _ (by omega)
  by_cases hi : i < count
  · rw [List.getElem?_range hi]
    simp only [Option.map_some, Option.some.injEq, hi, true_and]
    omega
  · rw [List.getElem?_eq_none (by simpa using hi)]
    simp [hi]

/-- Neighbours that do not go all the way round lie on different places. -/
theorem emod_inj_of_lt {size i j : Nat} {z : Int} (hi : i < size) (hj : j < size)
    (h : (z + i) % size = (z + j) % size) : i = j := by
  -- the nearer one of the two is subtracted from the other
  have hzero := Int.emod_eq_emod_iff_emod_sub_eq_zero.1 h
  rcases Nat.le_total i j with hij | hij
  · have hback := Int.emod_eq_emod_iff_emod_sub_eq_zero.1 h.symm
    rw [show z + j - (z + i) = j - i by omega, Int.emod_eq_of_lt (by omega) (by omega)] at hback
    omega
  · rw [show z + i - (z + j) = i - j by omega, Int.emod_eq_of_lt (by omega) (by omega)] at hzero
    omega

theorem Seamless.nodup_places {size : Nat} {z : Int} {count : Nat} (h : Seamless size z count)
    (hs : count ≤ size) (hc : count < 2 ^ 63) : (places size (Int64.ofInt z) count).Nodup := by
  rw [h.places_eq hc, List.nodup_iff_pairwise_ne, List.pairwise_map]
  refine List.Pairwise.imp_of_mem ?_ List.nodup_range
  intro i j hi hj hne heq
  have hil := List.mem_range.1 hi
  have hjl := List.mem_range.1 hj
  have hni : 0 ≤ (z + i) % (size : Int) := Int.emod_nonneg _ (by omega)
  have hnj : 0 ≤ (z + j) % (size : Int) := Int.emod_nonneg _ (by omega)
  have hplace : (z + i) % (size : Int) = (z + j) % size := by omega
  exact hne (emod_inj_of_lt (by omega) (by omega) hplace)

namespace Display

variable {width height : Nat}

/-! ## The mask of a sprite -/

/-- The bit of a sprite that decides about a cell. -/
def mask (width height : Nat) (rows : List Byte) (x y : Coordinate) (i j : Nat) : Bool :=
  match lastPosition? i (places height y rows.length) with
  | none => false
  | some r =>
    match lastPosition? j (places width x spriteWidth) with
    | none => false
    | some c => spriteBit rows r c

/-- Every cell is xored with the mask, which does not depend on the grid. -/
theorem get_overlay (grid : Grid width height) (rows : List Byte) (x y : Coordinate)
    (i : Fin height) (j : Fin width) :
    ((overlay grid rows x y).get i).get j =
      ((grid.get i).get j ^^ mask width height rows x y i j) := by
  have hrow : ((overlay grid rows x y).get i) = _ := getElem_tabulate _ i.val i.isLt
  rw [hrow, mask]
  cases lastPosition? i.val (places height y rows.length) with
  | none => simp
  | some r =>
      dsimp only
      have hcell (f : Fin width → Bool) : (tabulate width f).get j = f j :=
        getElem_tabulate f j.val j.isLt
      rw [hcell]
      cases lastPosition? j.val (places width x spriteWidth) with
      | none => simp
      | some c => rfl

theorem get_overlay_ne_iff (grid : Grid width height) (rows : List Byte) (x y : Coordinate)
    (i : Fin height) (j : Fin width) :
    ((overlay grid rows x y).get i).get j ≠ (grid.get i).get j ↔
      mask width height rows x y i j = true := by
  rw [get_overlay]
  cases mask width height rows x y i j <;> simp

/-- The mask of an untorn sprite that is no larger than the display. -/
theorem mask_eq_true_iff {rows : List Byte} {x y : Int} (hw : spriteWidth ≤ width)
    (hh : rows.length ≤ height) (hc : rows.length < 2 ^ 63) (hx : Seamless width x spriteWidth)
    (hy : Seamless height y rows.length) (i : Fin height) (j : Fin width) :
    mask width height rows (Int64.ofInt x) (Int64.ofInt y) i j = true ↔
      ∃ r c, r < rows.length ∧ c < spriteWidth ∧ (i : Int) = (y + r) % height ∧
        (j : Int) = (x + c) % width ∧ spriteBit rows r c = true := by
  have hwidth : spriteWidth < 2 ^ 63 := by decide
  have hrow (r : Nat) := (lastPosition?_eq_some_iff (hy.nodup_places hh hc)).trans
    (hy.getElem?_places i.pos hc (i := r) (p := i.val))
  have hcolumn (c : Nat) := (lastPosition?_eq_some_iff (hx.nodup_places hw hwidth)).trans
    (hx.getElem?_places j.pos hwidth (i := c) (p := j.val))
  constructor
  · intro h
    unfold mask at h
    split at h
    · cases h
    next r hr =>
      split at h
      · cases h
      next c hc =>
        obtain ⟨hrl, hri⟩ := (hrow r).1 hr
        obtain ⟨hcl, hcj⟩ := (hcolumn c).1 hc
        exact ⟨r, c, hrl, hcl, hri, hcj, h⟩
  · rintro ⟨r, c, hrl, hcl, hri, hcj, hbit⟩
    simp only [mask, (hrow r).2 ⟨hrl, hri⟩, (hcolumn c).2 ⟨hcl, hcj⟩, hbit]

/-! ## Collisions -/

/-- A cell is found at its position and at every position that wraps to it. -/
theorem cell_emod (d : Display width height) (hw : 0 < width) (hh : 0 < height) (x y : Int) :
    d.cell ((x % width).toNat : Nat) ((y % height).toNat : Nat) = d.cell x y := by
  have hx : 0 ≤ x % (width : Int) := Int.emod_nonneg _ (by omega)
  have hy : 0 ≤ y % (height : Int) := Int.emod_nonneg _ (by omega)
  simp only [cell, cell?, Int.toNat_of_nonneg hx, Int.toNat_of_nonneg hy, Int.emod_emod]

/-- An untorn sprite collides exactly if one of its set bits falls on a cell that is on. -/
theorem collides_eq_true_iff (d : Display width height) {rows : List Byte} {x y : Int}
    (hw : 0 < width) (hh : 0 < height) (hc : rows.length < 2 ^ 63)
    (hx : Seamless width x spriteWidth) (hy : Seamless height y rows.length) :
    d.collides rows (Int64.ofInt x) (Int64.ofInt y) = true ↔
      ∃ r c, r < rows.length ∧ c < spriteWidth ∧ spriteBit rows r c = true ∧
        d.cell (x + c) (y + r) = true := by
  have hwidth : spriteWidth < 2 ^ 63 := by decide
  simp only [collides, List.any_eq_true, Prod.exists, List.mem_zipIdx_iff_getElem?,
    Bool.and_eq_true]
  constructor
  · rintro ⟨i, r, hr, j, c, hcol, hbit, hcell⟩
    obtain ⟨hrl, hi⟩ := (hy.getElem?_places hh hc).1 hr
    obtain ⟨hcl, hj⟩ := (hx.getElem?_places hw hwidth).1 hcol
    refine ⟨r, c, hrl, hcl, hbit, ?_⟩
    rw [← cell_emod d hw hh, ← hi, ← hj]
    exact hcell
  · rintro ⟨r, c, hrl, hcl, hbit, hcell⟩
    have hi : 0 ≤ (y + r) % (height : Int) := Int.emod_nonneg _ (by omega)
    have hj : 0 ≤ (x + c) % (width : Int) := Int.emod_nonneg _ (by omega)
    refine ⟨((y + r) % height).toNat, r, ?_, ((x + c) % width).toNat, c, ?_, hbit, ?_⟩
    · exact (hy.getElem?_places hh hc).2 ⟨hrl, Int.toNat_of_nonneg hi⟩
    · exact (hx.getElem?_places hw hwidth).2 ⟨hcl, Int.toNat_of_nonneg hj⟩
    · rw [cell_emod d hw hh]
      exact hcell

/-! ## Drawing -/

/-- A row of a sprite in memory is a byte, with its most significant bit on the left. -/
theorem spriteBit_slice (memory : Memory) {a n r : Nat} (h : a + n ≤ memorySize) (hr : r < n)
    (c : Nat) : spriteBit (memory.slice a (a + n)) r c =
      (memory.byte (a + r)).toNat.testBit (spriteWidth - 1 - c) := by
  rw [spriteBit, memory.getElem?_slice h hr]
  rfl

/-- A sprite of `n` rows on a display that is at least as large. Without rows it changes nothing,
wherever it lies. If it does not lie in memory it is refused with the address of its last row, and
the display stays as it is. If it lies in memory, and no seam of the coordinates tears it, then
the display has been drawn on, a cell is another one than before exactly if a set bit of the sprite
falls on it, rows and columns counted around the torus from `(x, y)`, and a collision is reported
exactly if a set bit falls on a cell that was on. -/
theorem draw_on_torus (d : Display width height) (memory : Memory) (n : Nat) (a x y : Int)
    (hw : spriteWidth ≤ width) (hh : n ≤ height) :
    (n = 0 → d.draw memory n a x y = .ok (d, false)) ∧
    (0 < n → a < 0 ∨ 0xFFF < a + n - 1 →
      d.draw memory n a x y = .error (.fault (.outOfRange .sprite (a + n - 1))) ∧
        (d.respond (.draw memory n a x y)).1 = d) ∧
    (0 < n → 0 ≤ a → a + n - 1 ≤ 0xFFF → Seamless width x spriteWidth → Seamless height y n →
      ∃ drawn met, d.draw memory n a x y = .ok (drawn, met) ∧ drawn.dirty = true ∧
        (∀ (i : Fin height) (j : Fin width),
          (drawn.grid.get i).get j ≠ (d.grid.get i).get j ↔
            ∃ r c : Nat, r < n ∧ c < spriteWidth ∧ (i : Int) = (y + r) % height ∧
              (j : Int) = (x + c) % width ∧
              (memory.byte (a.toNat + r)).toNat.testBit (spriteWidth - 1 - c) = true) ∧
        (met = true ↔
          ∃ r c : Nat, r < n ∧ c < spriteWidth ∧
            (memory.byte (a.toNat + r)).toNat.testBit (spriteWidth - 1 - c) = true ∧
            d.cell (x + c) (y + r) = true)) := by
  have hsize : memorySize = 4096 := rfl
  have hwidth : 0 < spriteWidth := by decide
  refine ⟨?_, ?_, ?_⟩
  · rintro rfl
    exact d.draw_no_rows memory a x y
  · intro hn hout
    have hd : d.draw memory n a x y = .error (.fault (.outOfRange .sprite (a + n - 1))) := by
      rw [draw, if_neg (by omega), if_pos (by omega)]
    exact ⟨hd, by rw [respond, hd]⟩
  · intro hn ha hend hx hy
    have hstop : (a + n).toNat = a.toNat + n := by omega
    have hin : a.toNat + n ≤ memorySize := by omega
    have hlength := memory.length_slice hin
    have hc : (memory.slice a.toNat (a.toNat + n)).length < 2 ^ 63 := by omega
    have hyl : Seamless height y (memory.slice a.toNat (a.toNat + n)).length := hlength.symm ▸ hy
    have hd := d.draw_of_fits memory (n := n) (x := x) (y := y) (by omega) (by omega) (by omega)
      ha (by omega) hx.fits hy.fits
    rw [hstop] at hd
    refine ⟨_, _, hd, rfl, ?_, ?_⟩
    · intro i j
      have hmask := mask_eq_true_iff hw (by omega) hc hx hyl i j
      rw [hlength] at hmask
      rw [get_overlay_ne_iff, hmask]
      refine exists_congr fun r => exists_congr fun c => and_congr_right fun hr => ?_
      rw [spriteBit_slice memory hin hr]
    · have hmet := d.collides_eq_true_iff (by omega) (by omega) hc hx hyl
      rw [hlength] at hmet
      refine hmet.trans (exists_congr fun r => exists_congr fun c => and_congr_right fun hr => ?_)
      rw [spriteBit_slice memory hin hr]

/-- A sprite of two rows is drawn over the lower right corner of a display of ten by three cells, so
that it wraps around both edges, and it meets a cell that an earlier sprite has lit. -/
theorem draw_on_torus_corner :
    ∃ d : Display 10 3, (blank : Display 10 3).draw .fresh 1 0 (-1) 0 = .ok (d, false) ∧
      ∃ drawn met, d.draw .fresh 2 0 7 2 = .ok (drawn, met) ∧ drawn.dirty = true ∧ met = true ∧
        (drawn.grid.get 0).get 0 ≠ (d.grid.get 0).get 0 ∧
        (drawn.grid.get 2).get 0 ≠ (d.grid.get 2).get 0 ∧
        (drawn.grid.get 1).get 7 = (d.grid.get 1).get 7 := by
  refine ⟨_, rfl, ?_⟩
  let lit : Display 10 3 := ⟨overlay blank.grid (Memory.fresh.between 0 1) (-1) 0, true⟩
  obtain ⟨-, -, hdrawn⟩ := draw_on_torus lit .fresh 2 0 7 2 (by decide) (by decide)
  obtain ⟨drawn, met, hd, hdirty, hcells, hmet⟩ :=
    hdrawn (by decide) (by decide) (by decide) (by decide) (by decide)
  refine ⟨drawn, met, hd, hdirty, hmet.2 ?_, (hcells 0 0).2 ?_, (hcells 2 0).2 ?_, ?_⟩
  · exact ⟨1, 3, by decide, by decide, by decide +kernel, by decide +kernel⟩
  · exact ⟨1, 3, by decide, by decide, by decide, by decide, by decide +kernel⟩
  · exact ⟨0, 3, by decide, by decide, by decide, by decide, by decide +kernel⟩
  · refine Decidable.not_not.1 (mt (hcells 1 7).1 ?_)
    rintro ⟨r, c, hr, -, hi, -⟩
    have hrow : (1 : Int) = (2 + r) % 3 := hi
    omega

/-- Ten does not divide `2 ^ 64`. A sprite that reaches over the seam of the coordinates is torn
there: its bit in the third column belongs to the ninth cell of the row, but it is the third cell
that is switched on. -/
theorem draw_torn_at_seam :
    let x : Int := 9223372036854775806
    ∃ drawn met, (blank : Display 10 4).draw .fresh 1 5 x 0 = .ok (drawn, met) ∧
      (drawn.grid.get 0).get 2 = true ∧ ¬ ∀ (i : Fin 4) (j : Fin 10),
        (drawn.grid.get i).get j ≠ ((blank : Display 10 4).grid.get i).get j ↔
          ∃ r c : Nat, r < 1 ∧ c < spriteWidth ∧ (i : Int) = (0 + r) % 4 ∧
            (j : Int) = (x + c) % 10 ∧
            (Memory.fresh.byte (5 + r)).toNat.testBit (spriteWidth - 1 - c) = true := by
  intro x
  refine ⟨_, _, rfl, by decide +kernel, ?_⟩
  intro h
  have hnine : ∃ r c : Nat, r < 1 ∧ c < spriteWidth ∧ ((0 : Fin 4) : Int) = (0 + r) % 4 ∧
      ((8 : Fin 10) : Int) = (x + c) % 10 ∧
      (Memory.fresh.byte (5 + r)).toNat.testBit (spriteWidth - 1 - c) = true :=
    ⟨0, 2, by decide, by decide, by decide, by decide, by decide +kernel⟩
  exact (h 0 8).2 hnine (by decide +kernel)

end Display

end Chip8
