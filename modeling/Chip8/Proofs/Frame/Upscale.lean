import Chip8.Frame
import Chip8.Proofs.Display.Draw

/-!
# Frames as pictures

A frame shows its grid upside down, every cell as a square of pixels (`Frame.Upscales`). This is
what is made of a grid exactly if the bytes of the frame can be counted
(`Frame.ofPixels_upscales`). The grid can be read off the frame if the two colours differ
(`Frame.Upscales.pixels_eq`), and at scale one both ways to a frame lead to the same one.
-/

set_option autoImplicit false

namespace Chip8

/-- The entry in a place of a list of rows. -/
def cell? {β : Type} (rows : List (List β)) (i j : Nat) : Option β :=
  rows[i]?.bind (·[j]?)

/-! ## Repetition -/

section Repetition

variable {β γ : Type} (f : β → γ) (s : Nat) (xs : List β)

theorem length_flatMap_replicate :
    (xs.flatMap fun x => List.replicate s (f x)).length = xs.length * s := by
  induction xs with
  | nil => exact (Nat.zero_mul s).symm
  | cons x rest ih =>
      rw [List.flatMap_cons, List.length_append, List.length_replicate, ih, List.length_cons,
        Nat.succ_mul, Nat.add_comm]

/-- Each entry is found `s` times in a row. -/
theorem getElem?_flatMap_replicate {s : Nat} (hs : 0 < s) (i : Nat) :
    (xs.flatMap fun x => List.replicate s (f x))[i]? = (xs[i / s]?).map f := by
  induction xs generalizing i with
  | nil => rfl
  | cons x rest ih =>
      rw [List.flatMap_cons]
      by_cases hi : i < s
      · rw [List.getElem?_append_left (by rwa [List.length_replicate]),
          List.getElem?_replicate_of_lt hi, Nat.div_eq_of_lt hi]
        rfl
      · obtain ⟨k, rfl⟩ := Nat.exists_eq_add_of_le (Nat.not_lt.1 hi)
        rw [List.getElem?_append_right (by rw [List.length_replicate]; omega),
          List.length_replicate, Nat.add_sub_cancel_left, ih, Nat.add_div_left k hs,
          List.getElem?_cons_succ]

end Repetition

/-! ## Room -/

/-- A block can be laid out exactly if its bytes can be counted. -/
theorem Extent.check_eq_ok_iff {edges : List Nat} :
    check edges = .ok () ↔ span edges < countLimit := by
  rw [check]
  by_cases hcount : countLimit ≤ span edges
  · rw [if_pos hcount]
    exact iff_of_false nofun (Nat.not_lt.2 hcount)
  · rw [if_neg hcount]
    exact iff_of_true rfl (Nat.not_le.1 hcount)

theorem Extent.check_pixels_iff {a b : Nat} (ha : 0 < a) (hb : 0 < b) :
    check [a, b, 4] = .ok () ↔ a * b * 4 < countLimit := by
  have hspan : span [a, b, 4] = a * b * 4 := by
    simp only [span, List.filter_cons, List.filter_nil, decide_eq_true ha, decide_eq_true hb,
      decide_eq_true (show 0 < 4 by decide), if_true, List.foldl_cons, List.foldl_nil, Nat.one_mul]
  rw [check_eq_ok_iff, hspan]

namespace Frame

/-- Whether the bytes of a grid's frame can be counted, four for each of its pixels. -/
def HasRoom (width height scale : Nat) : Prop :=
  height * scale * (width * scale) * 4 < Extent.countLimit

instance (width height scale : Nat) : Decidable (HasRoom width height scale) :=
  inferInstanceAs (Decidable (_ < _))

/-- If a frame can be laid out, then so can that of one pixel for each cell. -/
theorem HasRoom.cells {width height scale : Nat} (hs : 0 < scale)
    (h : HasRoom width height scale) : height * width * 4 < Extent.countLimit := by
  have hle : height * width ≤ height * scale * (width * scale) :=
    Nat.mul_le_mul (Nat.le_mul_of_pos_right _ hs) (Nat.le_mul_of_pos_right _ hs)
  exact Nat.lt_of_le_of_lt (Nat.mul_le_mul_right 4 hle) h

/-- A length that can be counted is multiplied by the scale. -/
theorem stretch_of_lt {s n : Nat} (h : n * s < Extent.countLimit) :
    stretch s n = .ok (n * s) := by
  have hlimit : Extent.countLimit = 2 ^ 63 := rfl
  have hint : (Int64.ofInt ((s : Int) * n)).toInt = ((n * s : Nat) : Int) := by
    rw [← Int.natCast_mul, Nat.mul_comm]
    exact Int64.toInt_ofInt_of_le (by omega) (by omega)
  have hfits : Extent.fits ((n * s : Nat) : Int) = true := Extent.fits_iff.2 (by omega)
  have hnonneg : (0 : Int) ≤ (n * s : Nat) := Int.natCast_nonneg _
  rw [stretch, Extent.stretch, Extent.length, hint, hfits, decide_eq_true hnonneg]
  rfl

theorem except_bind_eq_ok_iff {ε β γ : Type} {x : Except ε β} {f : β → Except ε γ} {c : γ} :
    (x >>= f) = .ok c ↔ ∃ b, x = .ok b ∧ f b = .ok c := by
  cases x with
  | error reason =>
      constructor
      · intro h
        cases h
      · rintro ⟨b, hb, -⟩
        cases hb
  | ok b =>
      constructor
      · intro h
        exact ⟨b, rfl, h⟩
      · rintro ⟨_, hb, h⟩
        cases hb
        exact h

theorem checkRoom_eq_ok_iff {edges : List Nat} :
    checkRoom edges = .ok () ↔ Extent.check edges = .ok () := by
  rw [checkRoom]
  cases Extent.check edges with
  | error reason => exact ⟨nofun, nofun⟩
  | ok _ => exact ⟨fun _ => rfl, fun _ => rfl⟩

section Magnify

variable {width : Nat} {lit dark : Colour} {cells : List (List Bool)}

/-- What is checked before rows of cells are magnified, and what is made of them. -/
theorem magnify_eq_ok_iff {scale : Int} {f : Frame} :
    magnify (some width) scale lit dark cells = .ok f ↔
      Extent.fits scale = true ∧
      ∃ a, stretch scale cells.length = .ok a ∧
        Extent.check [a, width, dark.length] = .ok () ∧
        ∃ b, stretch scale width = .ok b ∧
          Extent.check [a, b, dark.length] = .ok () ∧
          (if (a : Int) = scale * cells.length ∧ (b : Int) = scale * width then
              Except.ok (ofRows (some width) scale.toNat lit dark cells)
            else .ok ⟨some b, dark.length, List.replicate a []⟩) =
          (.ok f : Except FrameError Frame) := by
  -- a check hands nothing on, so that it only has to pass
  have hunit {x : Except FrameError Unit} {f : Unit → Except FrameError Frame} {c : Frame} :
      (x >>= f) = .ok c ↔ x = .ok () ∧ f () = .ok c := by
    rw [except_bind_eq_ok_iff]
    exact ⟨fun ⟨_, h⟩ => h, fun h => ⟨(), h⟩⟩
  unfold magnify
  cases Extent.fits scale with
  | false => exact ⟨nofun, fun h => nomatch h.1⟩
  | true =>
      simp only [if_true, except_bind_eq_ok_iff, hunit, checkRoom_eq_ok_iff, true_and]
      exact Iff.rfl

/-- Whether rows of cells can be magnified is a matter of their number. -/
theorem exists_magnify_of_length {scale : Int} {others : List (List Bool)} {f : Frame}
    (h : magnify (some width) scale lit dark cells = .ok f) (hl : others.length = cells.length) :
    ∃ g, magnify (some width) scale lit dark others = .ok g := by
  obtain ⟨hfits, a, ha, hrows, b, hb, hpixels, -⟩ := magnify_eq_ok_iff.1 h
  rw [← hl] at ha
  -- the checks pass again, and what the last comparison says only matters for the answer
  by_cases hexact : (a : Int) = scale * others.length ∧ (b : Int) = scale * width
  · exact ⟨_, magnify_eq_ok_iff.2 ⟨hfits, a, ha, hrows, b, hb, hpixels, if_pos hexact⟩⟩
  · exact ⟨_, magnify_eq_ok_iff.2 ⟨hfits, a, ha, hrows, b, hb, hpixels, if_neg hexact⟩⟩

/-- Rows of cells make a frame if one pixel for each cell can be laid out, and then the rest. -/
theorem ofCells_eq_ok_iff {scale : Int} {f : Frame} :
    ofCells (some width) scale lit dark cells = .ok f ↔
      Extent.check [cells.length, width, dark.length] = .ok () ∧
      if scale = 1 then ofRows (some width) 1 lit dark cells = f
      else magnify (some width) scale lit dark cells = .ok f := by
  rw [ofCells, except_bind_eq_ok_iff]
  show (∃ done, checkRoom [cells.length, width, dark.length] = .ok done ∧ _) ↔ _
  by_cases hscale : scale = 1
  · simp only [if_pos hscale, ← checkRoom_eq_ok_iff]
    exact ⟨fun ⟨_, hcheck, h⟩ => ⟨hcheck, Except.ok.inj h⟩,
      fun ⟨hcheck, h⟩ => ⟨(), hcheck, congrArg Except.ok h⟩⟩
  · simp only [if_neg hscale, ← checkRoom_eq_ok_iff]
    exact ⟨fun ⟨_, hcheck, h⟩ => ⟨hcheck, h⟩, fun ⟨hcheck, h⟩ => ⟨(), hcheck, h⟩⟩

/-- If one grid can be shown, then so can every grid of the same size. -/
theorem exists_render {height : Nat} {scale : Int} {grid : Grid width height} {f : Frame}
    (h : render grid scale lit dark = .ok f) (other : Grid width height) :
    ∃ g, render other scale lit dark = .ok g := by
  have hlength : (other.toList.map Vector.toList).length =
      (grid.toList.map Vector.toList).length := by
    simp only [List.length_map, Vector.length_toList]
  obtain ⟨hcheck, h⟩ := ofCells_eq_ok_iff.1 h
  rw [← hlength] at hcheck
  by_cases hscale : scale = 1
  · exact ⟨_, ofCells_eq_ok_iff.2 ⟨hcheck, by rw [if_pos hscale]⟩⟩
  · rw [if_neg hscale] at h
    obtain ⟨g, hg⟩ := exists_magnify_of_length h hlength
    exact ⟨g, ofCells_eq_ok_iff.2 ⟨hcheck, by rw [if_neg hscale]; exact hg⟩⟩

/-- Rows of cells are magnified if the frame can be laid out. -/
theorem magnify_of_room {s : Nat} (hwidth : 0 < width) (hheight : 0 < cells.length) (hs : 0 < s)
    (hdark : dark.length = 4) (hroom : HasRoom width cells.length s) :
    magnify (some width) s lit dark cells = .ok (ofRows (some width) s lit dark cells) := by
  unfold HasRoom at hroom
  have hcount : Extent.countLimit = 2 ^ 63 := rfl
  have hrows : 0 < cells.length * s := Nat.mul_pos hheight hs
  have hcolumns : 0 < width * s := Nat.mul_pos hwidth hs
  -- every number on the way is at most the number of pixels of the frame
  have hrows_le : cells.length * s ≤ cells.length * s * (width * s) :=
    Nat.le_mul_of_pos_right _ hcolumns
  have hcolumns_le : width * s ≤ cells.length * s * (width * s) := Nat.le_mul_of_pos_left _ hrows
  have hscale_le : s ≤ cells.length * s := Nat.le_mul_of_pos_left s hheight
  have hhalf_le : cells.length * s * width ≤ cells.length * s * (width * s) :=
    Nat.mul_le_mul_left _ (Nat.le_mul_of_pos_right _ hs)
  have hfits : Extent.fits s = true := Extent.fits_iff.2 (by omega)
  refine magnify_eq_ok_iff.2 ⟨hfits, cells.length * s, stretch_of_lt (by omega), ?_, width * s,
    stretch_of_lt (by omega), ?_, ?_⟩
  · rw [hdark, Extent.check_pixels_iff hrows hwidth]
    omega
  · rw [hdark, Extent.check_pixels_iff hrows hcolumns]
    exact hroom
  · rw [if_pos ⟨by rw [Nat.mul_comm, Int.natCast_mul], by rw [Nat.mul_comm, Int.natCast_mul]⟩]
    rfl

/-- The edges of a frame of rows of cells. -/
theorem shape_ofRows (s : Nat) :
    (ofRows (some width) s lit dark cells).shape =
      [cells.length * s, width * s, dark.length] := by
  have hheight : (ofRows (some width) s lit dark cells).height = cells.length * s := by
    rw [height, ofRows, length_flatMap_replicate, List.length_reverse]
  rw [shape, hheight]
  rfl

/-- A frame that has been magnified has passed the check of its shape. -/
theorem check_of_magnify {s : Nat} {f : Frame}
    (h : magnify (some width) s lit dark cells = .ok f) : Extent.check f.shape = .ok () := by
  obtain ⟨-, a, -, -, b, -, hcheck, h⟩ := magnify_eq_ok_iff.1 h
  by_cases hexact : (a : Int) = s * cells.length ∧ (b : Int) = s * width
  · rw [if_pos hexact] at h
    cases h
    obtain ⟨ha, hb⟩ := hexact
    rw [← Int.natCast_mul, Int.natCast_inj, Nat.mul_comm] at ha hb
    rw [shape_ofRows, Int.toNat_natCast, ← ha, ← hb]
    exact hcheck
  · rw [if_neg hexact] at h
    cases h
    rw [shape, height, List.length_replicate]
    exact hcheck

end Magnify

/-! ## Pixels -/

/-- A grid: rows of the same length, every cell off or on. -/
structure IsGrid (pixels : List (List Int)) (width height : Nat) : Prop where
  height : pixels.length = height
  width : ∀ row ∈ pixels, row.length = width
  cell : ∀ row ∈ pixels, ∀ z ∈ row, z = 0 ∨ z = 1

/-- A colour: four components, each a byte. -/
structure IsColour (components : List Int) : Prop where
  length : components.length = 4
  component : ∀ z ∈ components, Byte.IsValue z

/-- A frame shows a grid upside down, every cell as a square of pixels in the colour of the
cell. -/
structure Upscales (f : Frame) (pixels : List (List Int)) (width height scale : Nat)
    (on off : List Int) : Prop where
  shape : f.shape = [height * scale, width * scale, 4]
  row : ∀ row ∈ f.rows, row.length = width * scale
  pixel : ∀ i j, i < height * scale → j < width * scale →
    ∃ z, cell? pixels (height - 1 - i / scale) (j / scale) = some z ∧
      (cell? f.rows i j).map Byte.values = some (if z = 1 then on else off)

/-- The cells that a grid stands for. -/
def cellsOfGrid (pixels : List (List Int)) : List (List Bool) :=
  pixels.map fun row => row.map (· = 1)

/-- The bytes of a colour. -/
def colourOf (components : List Int) : Colour :=
  components.map fun z => UInt8.ofNat z.toNat

section Grid

variable {pixels : List (List Int)} {width height s : Nat} {on off : List Int}

theorem IsGrid.exists_cell (h : IsGrid pixels width height) {i j : Nat} (hi : i < height)
    (hj : j < width) : ∃ z, cell? pixels i j = some z ∧ (z = 0 ∨ z = 1) := by
  have hi : i < pixels.length := h.height.symm ▸ hi
  have hrow : pixels[i] ∈ pixels := List.getElem_mem hi
  have hj : j < pixels[i].length := (h.width _ hrow).symm ▸ hj
  refine ⟨pixels[i][j], ?_, h.cell _ hrow _ (List.getElem_mem hj)⟩
  rw [cell?, List.getElem?_eq_getElem hi, Option.bind_some, List.getElem?_eq_getElem hj]

/-- The pixels of a frame of rows of cells. -/
theorem cell?_ofRows {lit dark : Colour} {cells : List (List Bool)} (hs : 0 < s) {i : Nat}
    (hi : i < cells.length * s) (j : Nat) :
    cell? (ofRows (some width) s lit dark cells).rows i j =
      (cell? cells (cells.length - 1 - i / s) (j / s)).map fun cell =>
        if cell then lit else dark := by
  have hrow : i / s < cells.length := (Nat.div_lt_iff_lt_mul hs).2 hi
  rw [cell?, ofRows, getElem?_flatMap_replicate _ _ hs, List.getElem?_reverse hrow, cell?]
  cases cells[cells.length - 1 - i / s]? with
  | none => rfl
  | some row => exact getElem?_flatMap_replicate _ row hs j

/-- The cell that a colour is taken from. -/
theorem cell?_cellsOfGrid (i j : Nat) :
    cell? (cellsOfGrid pixels) i j = (cell? pixels i j).map fun z => decide (z = 1) := by
  rw [cell?, cellsOfGrid, List.getElem?_map, cell?]
  cases pixels[i]? with
  | none => rfl
  | some row => exact List.getElem?_map ..

theorem length_cellsOfGrid (h : IsGrid pixels width height) :
    (cellsOfGrid pixels).length = height := by
  rw [cellsOfGrid, List.length_map, h.height]

theorem values_colourOf (h : IsColour on) : Byte.values (colourOf on) = on :=
  Byte.values_ofNat h.component

theorem ofRows_upscales (hgrid : IsGrid pixels width height) (hs : 0 < s) (hon : IsColour on)
    (hoff : IsColour off) :
    (ofRows (some width) s (colourOf on) (colourOf off) (cellsOfGrid pixels)).Upscales pixels
      width height s on off := by
  have hheight := length_cellsOfGrid hgrid
  refine ⟨?_, ?_, ?_⟩
  · rw [shape_ofRows, hheight, colourOf, List.length_map, hoff.length]
  · intro row hrow
    obtain ⟨cells, hcells, hrow⟩ := List.mem_flatMap.1 hrow
    obtain rfl := List.eq_of_mem_replicate hrow
    obtain ⟨zs, hzs, rfl⟩ := List.mem_map.1 (List.mem_reverse.1 hcells)
    rw [renderRow, length_flatMap_replicate, List.length_map, hgrid.width zs hzs]
  · intro i j hi hj
    have hrow : height - 1 - i / s < height := by
      have hpos : 0 < height := Nat.pos_of_mul_pos_right (Nat.zero_lt_of_lt hi)
      exact Nat.lt_of_le_of_lt (Nat.sub_le ..) (Nat.sub_lt hpos Nat.one_pos)
    obtain ⟨z, hz, -⟩ := hgrid.exists_cell hrow ((Nat.div_lt_iff_lt_mul hs).2 hj)
    refine ⟨z, hz, ?_⟩
    rw [cell?_ofRows hs (hheight.symm ▸ hi), hheight, cell?_cellsOfGrid, hz]
    by_cases hone : z = 1
    · subst hone
      exact congrArg some (values_colourOf hon)
    · simp only [Option.map_some, decide_eq_false hone, if_neg hone]
      exact congrArg some (values_colourOf hoff)

/-- Pixels and colours that make a grid pass the checks. -/
theorem ofPixels_of_grid (hgrid : IsGrid pixels width height) (hheight : 1 ≤ height)
    (hon : IsColour on) (hoff : IsColour off) (scale : Int) :
    ofPixels pixels scale on off =
      ofCells (some width) scale (colourOf on) (colourOf off) (cellsOfGrid pixels) := by
  have hhead : pixels.head?.map List.length = some width := by
    cases pixels with
    | nil =>
        have hnil : 0 = height := hgrid.height
        omega
    | cons first rest => exact congrArg some (hgrid.width first List.mem_cons_self)
  have hwidths : (pixels.all fun row => some row.length = some width) = true :=
    List.all_eq_true.2 fun row hrow => decide_eq_true (congrArg some (hgrid.width row hrow))
  have hbytes : (pixels.all fun row => row.all fun z => (Byte.ofInt? z).isSome) = true := by
    refine List.all_eq_true.2 fun row hrow => List.all_eq_true.2 fun z hz => ?_
    rcases hgrid.cell row hrow z hz with rfl | rfl <;> rfl
  have hcells : cellsOf pixels = .ok (cellsOfGrid pixels) := by
    refine if_pos (List.all_eq_true.2 fun row hrow => List.all_eq_true.2 fun z hz => ?_)
    rcases hgrid.cell row hrow z hz with rfl | rfl <;> rfl
  have hlengths : on.length = off.length := hon.length.trans hoff.length.symm
  rw [ofPixels, hhead, hwidths, hbytes, if_pos hlengths, Byte.ofInts_of_isValue hon.component,
    Byte.ofInts_of_isValue hoff.component, hcells]
  rfl

/-- Grids of the same size with the same cells are the same. -/
theorem IsGrid.ext {others : List (List Int)} (h : IsGrid pixels width height)
    (h' : IsGrid others width height)
    (hcell : ∀ i j, i < height → j < width → cell? pixels i j = cell? others i j) :
    pixels = others := by
  refine List.ext_getElem (h.height.trans h'.height.symm) fun i hi hi' => ?_
  have hwidth := h.width _ (List.getElem_mem hi)
  have hwidth' := h'.width _ (List.getElem_mem hi')
  refine List.ext_getElem (hwidth.trans hwidth'.symm) fun j hj hj' => ?_
  have hsame := hcell i j (h.height ▸ hi) (hwidth ▸ hj)
  rw [cell?, cell?, List.getElem?_eq_getElem hi, List.getElem?_eq_getElem hi'] at hsame
  simpa only [Option.bind_some, List.getElem?_eq_getElem hj, List.getElem?_eq_getElem hj',
    Option.some.injEq] using hsame

/-- The colour of a cell is that of the first pixel of its square. -/
theorem Upscales.corner {f : Frame} (h : f.Upscales pixels width height s on off)
    (hgrid : IsGrid pixels width height) (hs : 0 < s) {i j : Nat} (hi : i < height)
    (hj : j < width) :
    ∃ z, cell? pixels i j = some z ∧ (z = 0 ∨ z = 1) ∧
      (cell? f.rows ((height - 1 - i) * s) (j * s)).map Byte.values =
        some (if z = 1 then on else off) := by
  have hrow : height - 1 - i < height := by omega
  have hflip : height - 1 - (height - 1 - i) = i := by omega
  have hpixel := h.pixel ((height - 1 - i) * s) (j * s) (Nat.mul_lt_mul_of_pos_right hrow hs)
    (Nat.mul_lt_mul_of_pos_right hj hs)
  rw [Nat.mul_div_cancel _ hs, Nat.mul_div_cancel _ hs, hflip] at hpixel
  obtain ⟨z, hz, hcolour⟩ := hpixel
  obtain ⟨y, hy, hcell⟩ := hgrid.exists_cell hi hj
  cases hz.symm.trans hy
  exact ⟨z, hz, hcell, hcolour⟩

/-- A grid is read off its frame, if the colours differ. -/
theorem Upscales.pixels_eq {f : Frame} {others : List (List Int)} {width' height' : Nat}
    (hs : 0 < s) (hne : on ≠ off) (hgrid : IsGrid pixels width height)
    (hothers : IsGrid others width' height') (h : f.Upscales pixels width height s on off)
    (h' : f.Upscales others width' height' s on off) : others = pixels := by
  have hshape := h'.shape.symm.trans h.shape
  simp only [List.cons.injEq, and_true] at hshape
  obtain rfl : height' = height := Nat.eq_of_mul_eq_mul_right hs hshape.1
  obtain rfl : width' = width := Nat.eq_of_mul_eq_mul_right hs hshape.2
  refine hothers.ext hgrid fun i j hi hj => ?_
  obtain ⟨z, hz, hcell, hcolour⟩ := h.corner hgrid hs hi hj
  obtain ⟨z', hz', hcell', hcolour'⟩ := h'.corner hothers hs hi hj
  have hsame := Option.some.inj (hcolour.symm.trans hcolour')
  rw [hz, hz']
  -- the two cells have the same colour, and there is one cell for each colour
  rcases hcell with rfl | rfl <;> rcases hcell' with rfl | rfl
  · rfl
  · exact absurd hsame.symm hne
  · exact absurd hsame hne
  · rfl

/-- A frame that can be laid out is made, and shows the grid. -/
theorem exists_upscales (hgrid : IsGrid pixels width height) (hwidth : 1 ≤ width)
    (hheight : 1 ≤ height) (hs : 1 ≤ s) (hon : IsColour on) (hoff : IsColour off)
    (hroom : HasRoom width height s) :
    ∃ f, ofPixels pixels s on off = .ok f ∧ f.Upscales pixels width height s on off := by
  refine ⟨_, ?_, ofRows_upscales hgrid hs hon hoff⟩
  have hcells := length_cellsOfGrid hgrid
  have hdark : (colourOf off).length = 4 := (List.length_map ..).trans hoff.length
  rw [ofPixels_of_grid hgrid hheight hon hoff, ofCells_eq_ok_iff, hcells, hdark,
    Extent.check_pixels_iff hheight hwidth]
  refine ⟨hroom.cells hs, ?_⟩
  by_cases hone : s = 1
  · rw [if_pos (by omega), hone]
  · rw [if_neg (by omega)]
    exact magnify_of_room hwidth (hcells.symm ▸ hheight) hs hdark (hcells.symm ▸ hroom)

/-- No frame of its shape is made if it cannot be laid out. -/
theorem shape_ne_of_not_hasRoom (hgrid : IsGrid pixels width height) (hwidth : 1 ≤ width)
    (hheight : 1 ≤ height) (hs : 1 ≤ s) (hon : IsColour on) (hoff : IsColour off)
    (hroom : ¬ HasRoom width height s) {f : Frame} (hf : ofPixels pixels s on off = .ok f) :
    f.shape ≠ [height * s, width * s, 4] := by
  intro hshape
  have hdark : (colourOf off).length = 4 := (List.length_map ..).trans hoff.length
  rw [ofPixels_of_grid hgrid hheight hon hoff, ofCells_eq_ok_iff, length_cellsOfGrid hgrid, hdark]
    at hf
  obtain ⟨hcells, hf⟩ := hf
  by_cases hone : s = 1
  · rw [Extent.check_pixels_iff hheight hwidth] at hcells
    refine hroom ?_
    rwa [HasRoom, hone, Nat.mul_one, Nat.mul_one]
  · rw [if_neg (by omega)] at hf
    have hcheck := check_of_magnify hf
    have hrows : 0 < height * s := Nat.mul_pos hheight hs
    have hcolumns : 0 < width * s := Nat.mul_pos hwidth hs
    rw [hshape, Extent.check_pixels_iff hrows hcolumns] at hcheck
    exact hroom hcheck

end Grid

/-- What is made of a grid in two colours. If the bytes of the frame can be counted in 64 bits, it
shows the grid upside down, every cell as a square of pixels; otherwise there is no frame of that
shape. Two grids that give the same frame are the same if the colours differ. At scale one the grid
is not magnified, but to magnify it would give the same frame. -/
theorem ofPixels_upscales {pixels : List (List Int)} {width height : Nat}
    (hgrid : IsGrid pixels width height) (hwidth : 1 ≤ width) (hheight : 1 ≤ height)
    {scale : Int} (hscale : 1 ≤ scale) {on off : List Int} (hon : IsColour on)
    (hoff : IsColour off) :
    let s := scale.toNat
    (HasRoom width height s → ∃ f, ofPixels pixels scale on off = .ok f ∧
      f.Upscales pixels width height s on off) ∧
    (¬ HasRoom width height s → ∀ f, ofPixels pixels scale on off = .ok f →
      f.shape ≠ [height * s, width * s, 4]) ∧
    (on ≠ off → HasRoom width height s →
      ∀ others width' height', IsGrid others width' height' → 1 ≤ width' → 1 ≤ height' →
        HasRoom width' height' s →
        ofPixels others scale on off = ofPixels pixels scale on off → others = pixels) ∧
    (HasRoom width height 1 →
      magnify (some width) 1 (colourOf on) (colourOf off) (cellsOfGrid pixels) =
        ofPixels pixels 1 on off) := by
  intro s
  have hs : 0 < s := by omega
  have hcast : (s : Int) = scale := by omega
  rw [← hcast]
  refine ⟨exists_upscales hgrid hwidth hheight hs hon hoff,
    fun hroom _ => shape_ne_of_not_hasRoom hgrid hwidth hheight hs hon hoff hroom, ?_, ?_⟩
  · intro hne hroom others width' height' hothers hwidth' hheight' hroom' hsame
    obtain ⟨f, hf, hupscales⟩ := exists_upscales hgrid hwidth hheight hs hon hoff hroom
    obtain ⟨f', hf', hupscales'⟩ := exists_upscales hothers hwidth' hheight' hs hon hoff hroom'
    cases hf'.symm.trans (hsame.trans hf)
    exact hupscales.pixels_eq hs hne hgrid hothers hupscales'
  · intro hroom
    have hcells := length_cellsOfGrid hgrid
    have hdark : (colourOf off).length = 4 := (List.length_map ..).trans hoff.length
    have hcheck : Extent.check [(cellsOfGrid pixels).length, width, (colourOf off).length] =
        .ok () := by
      rw [hcells, hdark, Extent.check_pixels_iff hheight hwidth]
      exact hroom.cells Nat.one_pos
    have hplain : ofCells (some width) 1 (colourOf on) (colourOf off) (cellsOfGrid pixels) =
        .ok (ofRows (some width) 1 (colourOf on) (colourOf off) (cellsOfGrid pixels)) :=
      ofCells_eq_ok_iff.2 ⟨hcheck, by rw [if_pos rfl]⟩
    rw [ofPixels_of_grid hgrid hheight hon hoff, hplain]
    exact magnify_of_room hwidth (hcells.symm ▸ hheight) Nat.one_pos hdark (hcells.symm ▸ hroom)

/-- Two rows of three cells are drawn with squares of four pixels; one cell more makes another
frame. -/
theorem ofPixels_upscales_two_rows :
    let on := [255, 176, 0, 255]
    let off := [16, 16, 16, 0]
    (∃ f, ofPixels [[1, 0, 0], [0, 1, 1]] 2 on off = .ok f ∧ f.shape = [4, 6, 4] ∧
      (cell? f.rows 1 1).map Byte.values = some off ∧
      (cell? f.rows 1 2).map Byte.values = some on ∧
      (cell? f.rows 2 1).map Byte.values = some on) ∧
    ofPixels [[1, 0, 0], [1, 1, 1]] 2 on off ≠ ofPixels [[1, 0, 0], [0, 1, 1]] 2 on off := by
  intro on off
  have hgrid : IsGrid [[1, 0, 0], [0, 1, 1]] 3 2 := ⟨rfl, by decide, by decide⟩
  have hother : IsGrid [[1, 0, 0], [1, 1, 1]] 3 2 := ⟨rfl, by decide, by decide⟩
  have hon : IsColour on := ⟨rfl, by decide⟩
  have hoff : IsColour off := ⟨rfl, by decide⟩
  have hroom : HasRoom 3 2 2 := by decide
  obtain ⟨hmade, -, hdistinct, -⟩ :=
    ofPixels_upscales hgrid (by decide) (by decide) (show (1 : Int) ≤ 2 by decide) hon hoff
  constructor
  · obtain ⟨f, hf, hupscales⟩ := hmade hroom
    obtain ⟨_, hz, hfirst⟩ := hupscales.pixel 1 1 (by decide) (by decide)
    obtain ⟨_, hy, hright⟩ := hupscales.pixel 1 2 (by decide) (by decide)
    obtain ⟨_, hx, habove⟩ := hupscales.pixel 2 1 (by decide) (by decide)
    cases hz
    cases hy
    cases hx
    exact ⟨f, hf, hupscales.shape, hfirst, hright, habove⟩
  · intro hsame
    have hequal := hdistinct (by decide) hroom _ 3 2 hother (by decide) (by decide) hroom hsame
    exact absurd hequal (by decide)

/-- A scale that is no 64-bit number makes no frame of the smallest grid. -/
theorem ofPixels_too_large :
    let on := [255, 255, 255, 255]
    let off := [0, 0, 0, 255]
    IsGrid [[1]] 1 1 ∧ IsColour on ∧ IsColour off ∧
      ofPixels [[1]] 0x8000000000000000 on off = .error .scaleTooLarge ∧
      ¬ ∃ f, ofPixels [[1]] 0x8000000000000000 on off = .ok f ∧
        f.Upscales [[1]] 1 1 0x8000000000000000 on off := by
  intro on off
  have herror : ofPixels [[1]] 0x8000000000000000 on off = .error .scaleTooLarge :=
    rfl
  refine ⟨⟨rfl, by decide, by decide⟩, ⟨rfl, by decide⟩, ⟨rfl, by decide⟩, herror, ?_⟩
  rintro ⟨f, hf, -⟩
  cases herror.symm.trans hf

end Frame

end Chip8
