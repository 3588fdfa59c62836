import Chip8.Proofs.Display.Frames
import Chip8.Proofs.Machine.Cycle
import Chip8.Proofs.Machine.History
import Chip8.Proofs.Machine.Patch

/-!
# Frames of a running machine

A program reaches the display by its instructions, and so do resets and the calls that draw from
outside. None of them changes the grid without raising the display's flag
(`Machine.marks_perform`); this holds of every machine, whatever has been put into its registers.
Hence a renderer that paints a frame only when a poll returns one shows the present grid after
every poll (`Machine.grid_eq_lastFrame`).
-/

set_option autoImplicit false

namespace Chip8

namespace Machine

/-- Between two states of a machine the display's flag has been raised, or the display is as it
was. -/
def Marks (m after : Machine) : Prop :=
  m.display.Marks after.display

theorem Marks.of_display {m after : Machine} (h : after.display = m.display) : m.Marks after := by
  intro _
  exact h

theorem Marks.refl (m : Machine) : m.Marks m :=
  .of_display rfl

theorem Marks.trans {m n after : Machine} (hn : m.Marks n) (ha : n.Marks after) :
    m.Marks after :=
  Display.Marks.trans hn ha

/-! ## Instructions -/

end Machine

open Machine in
/-- An instruction leaves the display alone, or it draws or clears and raises the flag; also one
that fails. -/
theorem Instruction.marks_run (i : Instruction) (m : Machine) : m.Marks (i.run m).machine := by
  cases i with
  | clear => exact Display.marks_clear m.display
  | draw x y rows =>
      simp only [run]
      cases hd : m.display.draw m.memory rows.val m.index (m.value x) (m.value y) with
      | error reason => exact .refl m
      | ok drawn => exact Display.marks_draw hd
  -- what the others can change is not the display
  | _ =>
      rw [run_eq_patch]
      exact .of_display rfl

namespace Machine

/-! ## Steps and operations -/

theorem marks_execute (m : Machine) (w : Word) (i : Instruction) :
    m.Marks (m.execute w i).machine := by
  have hrun := i.marks_run m
  unfold execute
  generalize i.run m = effect at hrun ⊢
  rcases effect with ⟨left, _ | reason⟩
  · exact hrun
  · exact hrun

theorem marks_fetch {m fetched : Machine} {w : Word} (h : m.fetch = .ok (fetched, w)) :
    m.Marks fetched := by
  rw [eq_of_fetch h]
  exact .of_display rfl

variable [Tracing]

theorem marks_cycle (m : Machine) : m.Marks m.cycle.machine := by
  unfold cycle
  cases hf : m.fetch with
  | error reason => exact .refl m
  | ok found =>
      have hfetched : m.Marks found.1 := marks_fetch hf
      dsimp only
      cases Instruction.decode? found.2 with
      | none => exact hfetched
      | some i => exact hfetched.trans (marks_execute found.1 found.2 i)

theorem marks_step (m : Machine) : m.Marks m.step.machine := by
  cases hd : m.answered? with
  | none =>
      rw [step_of_unanswered hd]
      exact .refl m
  | some d =>
      have hdelivered : m.Marks d := by
        rcases answered?_eq_some hd with ⟨-, rfl⟩ | ⟨x, k, rest, -, -, rfl⟩
        · exact .refl d
        · exact .of_display rfl
      rw [step_of_answered hd]
      exact hdelivered.trans (marks_cycle d)

omit [Tracing] in
theorem display_onKey (m : Machine) (key : Int) (act : Keypad → Key → Keypad)
    (note : Key → Entry) : (m.onKey key act note).machine.display = m.display := by
  unfold onKey
  cases Key.ofInt? key with
  | none => rfl
  | some k => rfl

/-- Everything that is done to a machine marks its display, except for a frame that is taken. -/
theorem marks_perform (m : Machine) {o : Operation} (ho : o ≠ .takeFrame) :
    m.Marks (m.perform o).machine := by
  cases o with
  | init program =>
      show m.Marks (m.loaded program.length (m.init program)).machine
      rcases init_cases program with ⟨reason, hi⟩ | ⟨bytes, hi⟩
      · rw [hi]
        exact .refl m
      · rw [hi]
        exact .of_display rfl
  | reset => exact Display.marks_clear m.display
  | step => exact marks_step m
  | fetch =>
      simp only [perform]
      cases hf : m.fetch with
      | error reason => exact .refl m
      | ok found => exact marks_fetch hf
  | execute w =>
      simp only [perform, execute?]
      cases Instruction.decode? w with
      | none => exact .refl m
      | some i => exact marks_execute m w i
  | push address =>
      simp only [perform]
      cases hp : m.push address with
      | error reason => exact .refl m
      | ok pushed =>
          obtain ⟨stack, depth, rfl⟩ := eq_of_push hp
          exact .of_display rfl
  | pop =>
      obtain ⟨depth, hpop⟩ := m.pop_eq
      simp only [perform, hpop]
      cases m.pop.2 with
      | error reason => exact .of_display rfl
      | ok address => exact .of_display rfl
  | load program =>
      simp only [perform]
      cases m.memory.load program with
      | error reason => exact .refl m
      | ok memory => exact .of_display rfl
  | write address value =>
      simp only [perform]
      cases m.memory.write address value with
      | error reason => exact .refl m
      | ok memory => exact .of_display rfl
  | writeBlock address values =>
      simp only [perform]
      cases m.memory.writeBlock address values with
      | error reason => exact .refl m
      | ok memory => exact .of_display rfl
  | read address =>
      simp only [perform]
      cases m.memory.read address with
      | error reason => exact .refl m
      | ok byte => exact .refl m
  | readBlock address count =>
      simp only [perform]
      cases m.memory.readBlock address count with
      | error reason => exact .refl m
      | ok bytes => exact .refl m
  | draw rows address x y =>
      simp only [perform]
      cases hd : m.display.draw m.memory rows address x y with
      | error reason => exact .refl m
      | ok drawn => exact Display.marks_draw hd
  | clear => exact Display.marks_clear m.display
  | press key => exact .of_display (display_onKey m key _ _)
  | release key => exact .of_display (display_onKey m key _ _)
  | takeFrame => exact absurd rfl ho
  | snapshot => exact .refl m
  | wipe =>
      show m.Marks { m with memory := m.memory.reset }
      exact .of_display rfl
  | tick | releaseAll | flush | poll => exact .of_display rfl

/-! ## Polls -/

/-- The frame that an operation takes, if it is a poll that returns one. -/
def taken? (m : Machine) : Operation → Option (Grid 64 32)
  | .takeFrame => m.display.takeFrame.2
  | _ => none

/-- The last frame that a list of operations takes, if `last` is the last one before. -/
def lastFrame (m : Machine) (last : Option (Grid 64 32)) :
    List Operation → Option (Grid 64 32)
  | [] => last
  | o :: rest => (m.perform o).machine.lastFrame ((m.taken? o).or last) rest

/-- What a renderer shows after a list of operations. It replaces its image when a poll returns a
frame, and only then. -/
def image {β : Type} (paint : Grid 64 32 → β) (m : Machine) (shown : β) : List Operation → β
  | [] => shown
  | o :: rest =>
    let shown := match m.taken? o with
      | some grid => paint grid
      | none => shown
    (m.perform o).machine.image paint shown rest

/-- A renderer shows the last frame that was taken, or what it began with. -/
theorem image_eq_lastFrame {β : Type} (paint : Grid 64 32 → β) (m : Machine) (shown : β)
    (last : Option (Grid 64 32)) (ops : List Operation) :
    m.image paint ((last.map paint).getD shown) ops =
      ((m.lastFrame last ops).map paint).getD shown := by
  induction ops generalizing m last with
  | nil => rfl
  | cons o rest ih =>
      rw [lastFrame, image, ← ih]
      cases m.taken? o with
      | none => rfl
      | some grid => rfl

/-- An operation leaves the display up to date with the last frame, and a poll leaves it clean. -/
theorem upToDate_perform {m : Machine} {last : Option (Grid 64 32)}
    (h : m.display.UpToDate last) (o : Operation) :
    (m.perform o).machine.display.UpToDate ((m.taken? o).or last) := by
  by_cases ho : o = .takeFrame
  · subst ho
    exact h.respond .takeFrame
  · have hnone : m.taken? o = none := by
      cases o with
      | takeFrame => exact absurd rfl ho
      | _ => rfl
    rw [hnone]
    exact h.marks (m.marks_perform ho)

theorem upToDate_after {m : Machine} {last : Option (Grid 64 32)} (h : m.display.UpToDate last)
    (ops : List Operation) :
    (m.after ops).display.UpToDate (m.lastFrame last ops) := by
  induction ops generalizing m last with
  | nil => exact h
  | cons o rest ih => exact ih (upToDate_perform h o)

end Machine

/-- No frame is lost. On a display of any size, whatever is called, the grid is the last frame that
was taken as long as the flag is down. The same holds for the display of a machine that is switched
on, whatever is done to it: steps, resets, draws and polls in any order. So a renderer that
replaces its image only when a poll returns a frame shows the present grid after every poll. -/
theorem Machine.grid_eq_lastFrame [Tracing] :
    (∀ {width height : Nat} (calls : List DisplayCall),
      let d := (Display.blank : Display width height).after calls
      d.dirty = false → Display.blank.lastFrame none calls = some d.grid) ∧
    ∀ (keypad : Keypad) (random : RandomSource) (ops : List Operation),
      let start := Machine.fresh keypad random
      let now := start.after ops
      (now.display.dirty = false → start.lastFrame none ops = some now.display.grid) ∧
        ∀ {β : Type} (paint : Grid 64 32 → β) (shown : β),
          start.image paint shown (ops ++ [.takeFrame]) = paint now.display.grid := by
  constructor
  · intro width height calls d
    exact Display.upToDate_after (Display.upToDate_blank none) calls
  · intro keypad random ops start now
    have hnow : now.display.UpToDate (start.lastFrame none ops) :=
      upToDate_after (Display.upToDate_blank none) ops
    refine ⟨hnow, ?_⟩
    intro β paint shown
    -- after the poll the flag is down, so that the last frame is the grid
    have hpolled : (start.after (ops ++ [.takeFrame])).display.UpToDate
        (start.lastFrame none (ops ++ [.takeFrame])) :=
      upToDate_after (Display.upToDate_blank none) _
    obtain ⟨hclean, hgrid, -⟩ := hnow.takeFrame
    rw [after_concat] at hpolled
    have hlast : start.lastFrame none (ops ++ [.takeFrame]) = some now.display.grid := by
      rw [← hgrid]
      exact hpolled hclean
    have himage := image_eq_lastFrame paint start shown none (ops ++ [.takeFrame])
    rw [hlast] at himage
    exact himage

open Tracing.Off in
/-- On a small display a sprite is drawn, taken, and followed by one that runs over the end of
memory. A program draws, is polled, fails to draw, is reset and polled again. -/
theorem Machine.grid_eq_lastFrame_refused_draw :
    let calls : List DisplayCall :=
      [.draw .fresh 5 0 1 1, .takeFrame, .draw .fresh 5 4095 0 0, .draw .fresh 0 0 0 0]
    let ops : List Operation :=
      [.init [0xD0, 0x05, 0xAF, 0xFF, 0xD0, 0x05], .step, .takeFrame, .step, .step]
    let d := (Display.blank : Display 16 8).after calls
    let m := (Machine.fresh .idle ⟨fun _ => 0, 0⟩).after ops
    (d.dirty = false ∧ d.cell 1 1 = true ∧ Display.blank.lastFrame none calls = some d.grid) ∧
      m.display.dirty = false ∧ m.display.cell 0 0 = true ∧
      (Machine.fresh .idle ⟨fun _ => 0, 0⟩).lastFrame none ops = some m.display.grid ∧
      (Machine.fresh .idle ⟨fun _ => 0, 0⟩).image some none (ops ++ [.takeFrame]) =
        some m.display.grid := by
  intro calls ops d m
  obtain ⟨hdisplay, hmachine⟩ := Machine.grid_eq_lastFrame
  have hd : d.dirty = false := by decide +kernel
  have hm : m.display.dirty = false := by decide +kernel
  have hcorner : m.display.cell 0 0 = true := by decide +kernel
  -- from here on the run is any list of operations
  clear_value ops
  obtain ⟨hlast, himage⟩ := hmachine .idle ⟨fun _ => 0, 0⟩ ops
  exact ⟨⟨hd, by decide +kernel, hdisplay calls hd⟩, hm, hcorner, hlast hm, himage some none⟩

end Chip8
