import Chip8.Display

/-!
# Frames and the flag

A display tells by a flag whether its grid may have changed since a frame was last taken. Whatever
writes to the grid raises the flag, or leaves grid and flag alone (`Display.Marks`), and only a
frame that is taken lowers it. So the last frame that was taken is the grid, as long as the flag is
down (`Display.upToDate_after`); this holds for displays of every size.
-/

set_option autoImplicit false

namespace Chip8

/-- A call to a display. -/
inductive DisplayCall where
  | draw (memory : Memory) (rows address x y : Int)
  | clear
  | snapshot
  | pixel (x y : Int)
  | takeFrame

namespace Display

variable {width height : Nat}

/-- What a call leaves of the display, and the frame that it takes. A draw that is refused leaves
the display as it is, and to look at it takes no frame. -/
def respond (d : Display width height) :
    DisplayCall → Display width height × Option (Grid width height)
  | .draw memory rows address x y =>
    match d.draw memory rows address x y with
    | .ok (drawn, _) => (drawn, none)
    | .error _ => (d, none)
  | .clear => (d.clear, none)
  | .snapshot | .pixel _ _ => (d, none)
  | .takeFrame => d.takeFrame

/-- The display after a list of calls. -/
def after (d : Display width height) (calls : List DisplayCall) : Display width height :=
  calls.foldl (fun d c => (d.respond c).1) d

/-- The last frame that a list of calls takes, if `last` is the last one before. -/
def lastFrame (d : Display width height) (last : Option (Grid width height)) :
    List DisplayCall → Option (Grid width height)
  | [] => last
  | c :: rest => (d.respond c).1.lastFrame ((d.respond c).2.or last) rest

/-! ## Marks -/

/-- Between two states of a display its flag has been raised, or nothing has changed. -/
def Marks (d after : Display width height) : Prop :=
  after.dirty = false → after = d

theorem Marks.refl (d : Display width height) : d.Marks d :=
  fun _ => rfl

theorem Marks.of_dirty {d after : Display width height} (h : after.dirty = true) :
    d.Marks after := by
  intro hclean
  rw [h] at hclean
  cases hclean

theorem Marks.trans {d e f : Display width height} (hde : d.Marks e) (hef : e.Marks f) :
    d.Marks f := by
  intro hclean
  obtain rfl := hef hclean
  exact hde hclean

theorem marks_clear (d : Display width height) : d.Marks d.clear :=
  .of_dirty rfl

/-- A sprite that is drawn raises the flag, unless it has no rows. -/
theorem marks_draw {d drawn : Display width height} {memory : Memory} {rows address x y : Int}
    {collision : Bool} (h : d.draw memory rows address x y = .ok (drawn, collision)) :
    d.Marks drawn := by
  unfold draw combine at h
  -- the draw asks for its number of rows, its bytes, and its coordinates
  split at h
  · cases h
    exact .refl d
  split at h
  · cases h
  split at h
  · cases h
  rcases hy : coordinate y with reason | py <;> rw [hy] at h
  · cases h
  rcases hx : coordinate x with reason | px <;> rw [hx] at h
  · cases h
  simp only [bind, Except.bind, pure, Except.pure] at h
  split at h
  · split at h
    · cases h
    · cases h
      exact .of_dirty rfl
  · split at h
    · cases h
      exact .of_dirty rfl
    · cases h

/-! ## The last frame -/

/-- The last frame that was taken is the grid, unless the flag is up. -/
def UpToDate (d : Display width height) (last : Option (Grid width height)) : Prop :=
  d.dirty = false → last = some d.grid

theorem upToDate_blank (last : Option (Grid width height)) :
    (blank : Display width height).UpToDate last :=
  nofun

theorem UpToDate.marks {d after : Display width height} {last : Option (Grid width height)}
    (h : d.UpToDate last) (hm : d.Marks after) : after.UpToDate last := by
  intro hclean
  obtain rfl := hm hclean
  exact h hclean

/-- A poll takes the grid, or the last frame is still the grid. -/
theorem UpToDate.takeFrame {d : Display width height} {last : Option (Grid width height)}
    (h : d.UpToDate last) :
    d.takeFrame.1.dirty = false ∧ d.takeFrame.1.grid = d.grid ∧
      d.takeFrame.2.or last = some d.grid := by
  unfold Display.takeFrame
  cases hd : d.dirty with
  | true => exact ⟨rfl, rfl, rfl⟩
  | false => exact ⟨hd, rfl, h hd⟩

/-- What a call leaves is up to date with the frame that it takes. -/
theorem UpToDate.respond {d : Display width height} {last : Option (Grid width height)}
    (h : d.UpToDate last) (c : DisplayCall) :
    (d.respond c).1.UpToDate ((d.respond c).2.or last) := by
  cases c with
  | draw memory rows address x y =>
      cases hd : d.draw memory rows address x y with
      | error reason =>
          simp only [Display.respond, hd]
          exact h
      | ok drawn =>
          simp only [Display.respond, hd]
          exact h.marks (marks_draw hd)
  | clear => exact h.marks (marks_clear d)
  | snapshot => exact h
  | pixel x y => exact h
  | takeFrame =>
      obtain ⟨-, hgrid, hlast⟩ := h.takeFrame
      intro _
      show d.takeFrame.2.or last = some d.takeFrame.1.grid
      rw [hgrid, hlast]

/-- Whatever is done to a display, the last frame that was taken is the grid, unless the flag is
up. -/
theorem upToDate_after {d : Display width height} {last : Option (Grid width height)}
    (h : d.UpToDate last) (calls : List DisplayCall) :
    (d.after calls).UpToDate (d.lastFrame last calls) := by
  induction calls generalizing d last with
  | nil => exact h
  | cons c rest ih => exact ih (h.respond c)

end Display

end Chip8
