import Chip8.Proofs.Display.Torus

/-!
# Sequences of draws

A draw xors every cell with a mask that only depends on the sprite and its place, and it is refused
or not whatever the grid shows. A cell therefore counts, modulo two, the draws that cover it
(`Display.toNat_drawAll`), on displays of every size, also where a sprite wraps onto itself. So the
order of some draws does not matter, and draws that are repeated cancel each other
(`Display.drawAll_action`).
-/

set_option autoImplicit false

namespace Chip8

/-- The rows of a sprite and the position of its top left corner. -/
structure PlacedSprite where
  rows : List Byte
  x : Int
  y : Int
  deriving DecidableEq

/-- A call that draws. -/
structure Drawing where
  memory : Memory
  rows : Int
  address : Int
  x : Int
  y : Int

namespace Drawing

/-- The rows of the sprite that is drawn. -/
def shape (c : Drawing) : List Byte :=
  if 0 < c.rows then c.memory.between c.address (c.address + c.rows) else []

/-- What is drawn, and where. -/
def sprite (c : Drawing) : PlacedSprite :=
  ⟨c.shape, c.x, c.y⟩

end Drawing

namespace Display

variable {width height : Nat}

/-- The draw on a display. -/
def onto (d : Display width height) (c : Drawing) : Except Failure (Display width height × Bool) :=
  d.draw c.memory c.rows c.address c.x c.y

/-- The display after a list of draws, none of which may be refused. -/
def drawAll (d : Display width height) : List Drawing → Except Failure (Display width height)
  | [] => .ok d
  | c :: rest => do
    let (drawn, _) ← d.onto c
    drawn.drawAll rest

/-- A sprite covers a cell if the bit that decides about the cell is set. -/
def covers (width height : Nat) (i j : Nat) (s : PlacedSprite) : Bool :=
  mask width height s.rows (Int64.ofInt s.x) (Int64.ofInt s.y) i j

/-! ## One draw -/

theorem overlay_nil (grid : Grid width height) (x y : Coordinate) : overlay grid [] x y = grid := by
  refine Vector.ext fun i hi => Vector.ext fun j hj => ?_
  exact (get_overlay grid [] x y ⟨i, hi⟩ ⟨j, hj⟩).trans (Bool.xor_false _)

theorem coordinate_bind_eq_ok {β : Type} {z : Int} {f : Coordinate → Except Failure β} {r : β}
    (h : (coordinate z >>= f) = .ok r) :
    coordinate z = .ok (Int64.ofInt z) ∧ f (Int64.ofInt z) = .ok r := by
  unfold coordinate Coordinate.ofInt? at h ⊢
  by_cases hz : Extent.fits z = true
  · rw [if_pos hz] at h ⊢
    exact ⟨rfl, h⟩
  · rw [if_neg hz] at h
    cases h

/-- A sprite that can be drawn on one display can be drawn on every display of the same size, and
is then combined with the grid. -/
theorem grid_onto_of_ok {d : Display width height} {c : Drawing}
    {found : Display width height × Bool} (h : d.onto c = .ok found)
    (e : Display width height) :
    ∃ drawn met, e.onto c = .ok (drawn, met) ∧
      drawn.grid = overlay e.grid c.shape (Int64.ofInt c.x) (Int64.ofInt c.y) := by
  obtain ⟨memory, n, a, x, y⟩ := c
  -- without rows there is no check at all, and nothing is combined
  by_cases hn : n = 0
  · subst hn
    exact ⟨e, false, e.draw_no_rows memory a x y, (overlay_nil ..).symm⟩
  -- none of the checks looks at the grid, so both displays pass them
  simp only [onto, draw, if_neg hn] at h ⊢
  by_cases hout : a < 0 ∨ (memorySize : Int) - 1 < a + n - 1
  · rw [if_pos hout] at h
    cases h
  rw [if_neg hout] at h ⊢
  by_cases hmin : n < Int64.minValue.toInt
  · rw [if_pos hmin] at h
    cases h
  rw [if_neg hmin] at h ⊢
  obtain ⟨hy, h⟩ := coordinate_bind_eq_ok h
  obtain ⟨hx, h⟩ := coordinate_bind_eq_ok h
  rw [hy, hx]
  show ∃ drawn met, (if 0 < n then _ else _) = _ ∧ _
  by_cases hpos : 0 < n
  · rw [if_pos hpos, combine] at h
    by_cases hcells : width = 0 ∨ height = 0
    · rw [if_pos hcells] at h
      cases h
    · have hshape : Drawing.shape ⟨memory, n, a, x, y⟩ = memory.between a (a + n) := if_pos hpos
      rw [if_pos hpos, combine, if_neg hcells, hshape]
      exact ⟨_, _, rfl, rfl⟩
  · -- a negative number of rows leaves the grid as it is
    rw [if_neg hpos] at h
    by_cases hone : (memory.between a (a + n)).length ≤ 1
    · have hshape : Drawing.shape ⟨memory, n, a, x, y⟩ = [] := if_neg hpos
      rw [if_neg hpos, if_pos hone, hshape, overlay_nil]
      exact ⟨_, _, rfl, rfl⟩
    · rw [if_neg hone] at h
      cases h

/-! ## Sequences of draws -/

theorem drawAll_cons_eq_ok {d after : Display width height} {c : Drawing} {rest : List Drawing} :
    d.drawAll (c :: rest) = .ok after ↔
      ∃ drawn met, d.onto c = .ok (drawn, met) ∧ drawn.drawAll rest = .ok after := by
  rw [drawAll]
  cases d.onto c with
  | error reason =>
      constructor
      · intro h
        cases h
      · rintro ⟨drawn, met, h, -⟩
        cases h
  | ok found =>
      obtain ⟨drawn, met⟩ := found
      constructor
      · intro h
        exact ⟨drawn, met, rfl, h⟩
      · rintro ⟨_, _, h, hrest⟩
        cases h
        exact hrest

/-- Draws come through up to any of them. -/
theorem exists_drawAll_of_append {d after : Display width height} {before later : List Drawing}
    (h : d.drawAll (before ++ later) = .ok after) :
    ∃ now, d.drawAll before = .ok now ∧ now.drawAll later = .ok after := by
  induction before generalizing d with
  | nil => exact ⟨d, rfl, h⟩
  | cons c rest ih =>
      obtain ⟨drawn, met, hfirst, hmore⟩ := drawAll_cons_eq_ok.1 h
      obtain ⟨now, hrest, hlater⟩ := ih hmore
      exact ⟨now, drawAll_cons_eq_ok.2 ⟨drawn, met, hfirst, hrest⟩, hlater⟩

/-- Draws come through if each of them would on a blank display. -/
theorem exists_drawAll_iff {d : Display width height} {calls : List Drawing} :
    (∃ after, d.drawAll calls = .ok after) ↔
      ∀ c ∈ calls, ∃ found, (blank : Display width height).onto c = .ok found := by
  induction calls generalizing d with
  | nil => exact ⟨fun _ => nofun, fun _ => ⟨d, rfl⟩⟩
  | cons c rest ih =>
      rw [List.forall_mem_cons]
      constructor
      · rintro ⟨after, h⟩
        obtain ⟨drawn, met, hfirst, hrest⟩ := drawAll_cons_eq_ok.1 h
        obtain ⟨onBlank, metBlank, hblank, -⟩ := grid_onto_of_ok hfirst blank
        exact ⟨⟨_, hblank⟩, ih.1 ⟨after, hrest⟩⟩
      · rintro ⟨⟨found, hblank⟩, hmore⟩
        obtain ⟨drawn, met, hfirst, -⟩ := grid_onto_of_ok hblank d
        obtain ⟨after, hrest⟩ := (ih (d := drawn)).2 hmore
        exact ⟨after, drawAll_cons_eq_ok.2 ⟨drawn, met, hfirst, hrest⟩⟩

/-- A cell counts, modulo two, the draws that cover it. -/
theorem toNat_drawAll {d after : Display width height} {calls : List Drawing}
    (h : d.drawAll calls = .ok after) (i : Fin height) (j : Fin width) :
    ((after.grid.get i).get j).toNat =
      (((d.grid.get i).get j).toNat +
        (calls.map Drawing.sprite).countP (covers width height i j)) % 2 := by
  induction calls generalizing d with
  | nil =>
      obtain rfl : d = after := Except.ok.inj h
      have hbit := ((d.grid.get i).get j).toNat_le
      rw [List.map_nil, List.countP_nil]
      omega
  | cons c rest ih =>
      obtain ⟨drawn, met, hfirst, hrest⟩ := drawAll_cons_eq_ok.1 h
      obtain ⟨_, _, hsame, hgrid⟩ := grid_onto_of_ok hfirst d
      cases hfirst.symm.trans hsame
      have hcell : (drawn.grid.get i).get j =
          ((d.grid.get i).get j ^^ covers width height i j c.sprite) := by
        rw [hgrid, get_overlay]
        rfl
      -- one more draw is counted, and the cell changes, exactly if the draw covers the cell
      rw [ih hrest, hcell, List.map_cons, List.countP_cons]
      cases (d.grid.get i).get j <;> cases covers width height i j c.sprite <;> simp <;> omega

theorem grid_ext {d e : Display width height}
    (h : ∀ (i : Fin height) (j : Fin width),
      ((d.grid.get i).get j).toNat = ((e.grid.get i).get j).toNat) : d.grid = e.grid := by
  refine Vector.ext fun i hi => Vector.ext fun j hj => ?_
  refine Bool.eq_iff_iff.2 ?_
  rw [← Bool.toNat_eq_one, ← Bool.toNat_eq_one]
  exact Eq.congr_left (h ⟨i, hi⟩ ⟨j, hj⟩)

/-- If every entry stands in a list an even number of times, so do all entries of a kind. -/
theorem even_countP {β : Type} [DecidableEq β] {l : List β} (h : ∀ b, Even (l.count b))
    (p : β → Bool) : Even (l.countP p) := by
  -- the entries of a kind are counted entry by entry
  rw [← List.sum_map_count_dedup_filter_eq_countP, even_iff_two_dvd]
  refine List.dvd_sum fun count hcount => ?_
  obtain ⟨b, -, rfl⟩ := List.mem_map.1 hcount
  exact (h b).two_dvd

/-- Draws that come through do so in every order, and leave the same grid. They leave the grid as
it was if every sprite is drawn an even number of times at every place. On the way, every cell is
`0` or `1`, as it was at first if an even number of draws has covered it, and otherwise not. -/
theorem drawAll_action {d after : Display width height} {calls : List Drawing}
    (h : d.drawAll calls = .ok after) :
    (∀ other, calls.Perm other →
      ∃ drawn, d.drawAll other = .ok drawn ∧ drawn.grid = after.grid) ∧
    ((∀ s, Even ((calls.map Drawing.sprite).count s)) → after.grid = d.grid) ∧
    ∀ before later, calls = before ++ later →
      ∃ now, d.drawAll before = .ok now ∧ now.drawAll later = .ok after ∧
        ∀ (i : Fin height) (j : Fin width),
          ((now.grid.get i).get j).toNat ≤ 1 ∧
          ((now.grid.get i).get j).toNat = (((d.grid.get i).get j).toNat +
            (before.map Drawing.sprite).countP (covers width height i j)) % 2 := by
  have haccepted := exists_drawAll_iff.1 ⟨after, h⟩
  -- every part is read off the number of draws that cover a cell
  refine ⟨?_, ?_, ?_⟩
  · intro other hperm
    obtain ⟨drawn, hdrawn⟩ := exists_drawAll_iff.2 fun c hc => haccepted c (hperm.mem_iff.2 hc)
    refine ⟨drawn, hdrawn, grid_ext fun i j => ?_⟩
    rw [toNat_drawAll hdrawn, toNat_drawAll h, (hperm.map Drawing.sprite).countP_eq]
  · intro heven
    refine grid_ext fun i j => ?_
    have hbit := ((d.grid.get i).get j).toNat_le
    obtain ⟨half, hcount⟩ := even_countP heven (covers width height i j)
    rw [toNat_drawAll h, hcount]
    omega
  · rintro before later rfl
    obtain ⟨now, hbefore, hlater⟩ := exists_drawAll_of_append h
    exact ⟨now, hbefore, hlater, fun i j => ⟨Bool.toNat_le _, toNat_drawAll hbefore i j⟩⟩

/-- Two sprites are drawn twice each on a display of five by two cells, on which both of them fall
onto themselves, and no cell is left on. After the first of the four draws one is. -/
theorem drawAll_action_narrow :
    let zero : Drawing := ⟨.fresh, 5, 0, 1, 0⟩
    let one : Drawing := ⟨.fresh, 3, 5, -1, 1⟩
    let blank : Display 5 2 := blank
    ∃ after, blank.drawAll [zero, one, zero, one] = .ok after ∧ after.grid = blank.grid ∧
      (∃ drawn, blank.drawAll [one, zero, zero, one] = .ok drawn ∧ drawn.grid = after.grid) ∧
      ∃ now, blank.drawAll [zero] = .ok now ∧ now.drawAll [one, zero, one] = .ok after ∧
        ((now.grid.get 0).get 4).toNat = 1 := by
  intro zero one blank
  have h : blank.drawAll [zero, one, zero, one] = .ok _ := rfl
  obtain ⟨hperm, heven, hprefix⟩ := drawAll_action h
  refine ⟨_, h, heven fun s => ?_, hperm _ (.swap one zero _), ?_⟩
  · simp only [List.map_cons, List.map_nil, List.count_cons, List.count_nil]
    split_ifs <;> decide
  · obtain ⟨now, hnow, hlater, hcells⟩ := hprefix [zero] [one, zero, one] rfl
    refine ⟨now, hnow, hlater, ((hcells 0 4).2).trans ?_⟩
    decide +kernel

end Display

end Chip8
