import Chip8.Proofs.Frame.Upscale
import Chip8.Proofs.Session.Buzzer

/-!
# The caption of a window

A window changes its caption only when it is refreshed, and only to show a fault. So the caption
shows the fault that a refresh has found last (`Session.shownFaults`), or none if no refresh has
found one: nothing else that happens to a session touches the heading of its window
(`Session.heading?_act`), one lemma says what a refresh makes of it, and the rest is an induction
over the history. `Session.caption_after_refresh` compares the caption with the fault of the
engine.
-/

set_option autoImplicit false

namespace Chip8

/-- The caption that begins with a text and goes on with a fault, if there is one. -/
def Window.captionOf (base : String) : Option Fault → String
  | none => base
  | some fault => base ++ " - " ++ fault.message

/-- What stands above the picture of a window: its caption and what that begins with, and the
scale, on which the size of the window depends. -/
structure Heading where
  scale : Int
  base : String
  caption : String

/-- The heading of a window. -/
def Window.heading (w : Window) : Heading where
  scale := w.scale
  base := w.baseCaption
  caption := w.caption

/-- The heading of a window that has last shown a given fault, or none so far. -/
def Heading.showing (scale : Int) (base : String) (last : Option Fault) : Heading where
  scale := scale
  base := base
  caption := Window.captionOf base last

namespace Session

variable {α : Type}

/-- The heading of the window, if there is one. -/
def heading? (s : Session α) : Option Heading :=
  s.window.map Window.heading

theorem heading?_congr {s f : Session α} {w w' : Window} (hs : s.window = some w)
    (hf : f.window = some w') (h : w'.heading = w.heading) : f.heading? = s.heading? := by
  rw [heading?, heading?, hs, hf]
  exact congrArg some h

/-! ## What leaves the heading alone -/

theorem heading?_receive (s : Session α) (signal : Signal) :
    (s.receive signal).heading? = s.heading? := by
  cases signal with
  | entry entry => rfl
  | buzzer on =>
      unfold receive
      cases hw : s.window with
      | none => rfl
      | some w => exact heading?_congr hw rfl rfl
  | _ =>
      simp only [receive, announce]
      split <;> rfl

theorem heading?_adopt (s : Session α) (engine : Engine α) :
    (s.adopt engine).heading? = s.heading? := by
  -- the signals of the trail are received one by one, and each leaves the heading alone
  have hsignals (signals : List Signal) (f : Session α) :
      (signals.foldl receive f).heading? = f.heading? := by
    induction signals generalizing f with
    | nil => rfl
    | cons signal rest ih => exact (ih (f.receive signal)).trans (f.heading?_receive signal)
  exact hsignals engine.trail.reverse { s with engine := { engine with trail := [] } }

theorem heading?_beep (s : Session α) (spread : Int) : (s.beep spread).heading? = s.heading? := by
  unfold beep
  cases hw : s.window with
  | none => rfl
  | some w => exact heading?_congr hw rfl rfl

theorem heading?_endTone (s : Session α) : s.endTone.1.heading? = s.heading? := by
  unfold endTone
  cases hw : s.window with
  | none => rfl
  | some w =>
      dsimp only
      split
      · exact heading?_congr hw rfl rfl
      · rfl

theorem heading?_showSound (s : Session α) : s.showSound.heading? = s.heading? := by
  unfold showSound
  split
  · rfl
  · split
    · exact s.heading?_beep defaultSpread
    · rfl

theorem heading?_draw (s : Session α) : s.drawWindow.heading? = s.heading? := by
  unfold drawWindow
  split <;> rfl

variable [Quantity α]

theorem heading?_showRate (s : Session α) (dt : α) :
    (s.showRate dt).1.heading? = s.heading? := by
  unfold showRate
  cases hw : s.window with
  | none => rfl
  | some w =>
      dsimp only
      split
      · rfl
      · exact heading?_congr hw rfl rfl

theorem heading?_command (s : Session α) (c : Command α) :
    (s.command c).1.heading? = s.heading? :=
  s.heading?_adopt _

/-- Of all actions only a refresh touches the heading. -/
theorem heading?_act (s : Session α) {a : Action α} (ha : a ≠ .refresh) :
    (s.act a).1.heading? = s.heading? := by
  cases a with
  | command c => exact s.heading?_command c
  | switchJournal on => rfl
  | refresh => exact absurd rfl ha
  | showRate dt => exact s.heading?_showRate dt
  | beep spread => exact s.heading?_beep spread
  | endTone => exact s.heading?_endTone
  | draw => exact s.heading?_draw
  | deactivate => exact s.heading?_command _
  | keyDown symbol =>
      simp only [act, keyDown]
      rcases KeyAction.ofSymbol? symbol with _ | _ | _ | k
      · rfl
      · rfl
      · rfl
      · exact s.heading?_command _
  | keyUp symbol =>
      simp only [act, keyUp]
      rcases Key.ofSymbol? symbol with _ | k
      · rfl
      · exact s.heading?_command _
  | close =>
      exact heading?_command ((s.call (.unschedule .refresh)).call (.unschedule .rate)) .stop

/-! ## A refresh -/

section Refresh

omit [Quantity α]

theorem engine_showSound (s : Session α) : s.showSound.engine = s.engine := by
  unfold showSound
  split
  · rfl
  next w hw =>
    split
    · unfold beep nextPitch
      rw [hw]
      cases s.pitches <;> rfl
    · rfl

theorem engine_showFault (s : Session α) : s.showFault.engine = s.engine := by
  unfold showFault
  split
  · dsimp only
    split <;> rfl
  · rfl

/-- A fault goes into the caption. Without one the caption stays. -/
theorem heading?_showFault {s : Session α} {scale : Int} {base : String} {last : Option Fault}
    (h : s.heading? = some (.showing scale base last)) :
    s.showFault.heading? = some (.showing scale base (s.engine.fault.or last)) := by
  obtain ⟨w, hw, hheading⟩ := Option.map_eq_some_iff.1 h
  obtain ⟨rfl, rfl, hcaption⟩ := Heading.mk.inj hheading
  unfold showFault
  rw [hw]
  cases hf : s.engine.fault with
  | none => exact h
  | some fault =>
      dsimp only
      by_cases hshown : w.caption = w.faultCaption fault
      · rw [if_pos hshown, heading?, hw]
        exact congrArg (fun caption => some (Heading.mk w.scale w.baseCaption caption)) hshown
      · rw [if_neg hshown]
        rfl

/-- A new picture can always be shown, if pictures of that scale can. -/
theorem showFrame_ok (s : Session α) {w : Window}
    (hroom : ∀ grid, ∃ frame, w.picture grid = .ok frame) (m : Machine) :
    ∃ f : Session α, s.showFrame w m = (f, .ok ()) ∧ f.heading? = s.heading? ∧
      f.engine.fault = s.engine.fault := by
  unfold showFrame
  cases m.display.takeFrame with
  | mk display shown =>
      cases shown with
      | none => exact ⟨_, rfl, rfl, rfl⟩
      | some grid =>
          obtain ⟨frame, hframe⟩ := hroom grid
          simp only [hframe]
          exact ⟨_, rfl, rfl, rfl⟩

/-- A refresh comes back, as long as the engine has a machine. -/
theorem refresh_of_machine {s : Session α} {scale : Int} {base : String} {last : Option Fault}
    (hroom : ∀ grid : Grid 64 32, ∃ frame, Frame.render grid scale .lit .dark = .ok frame)
    (h : s.heading? = some (.showing scale base last)) {m : Machine}
    (hm : s.engine.machine = some m) :
    ∃ f : Session α, s.refresh = (f, .ok .done) ∧ f.engine.fault = s.engine.fault ∧
      f.heading? = some (.showing scale base (s.engine.fault.or last)) := by
  obtain ⟨w, hw, hheading⟩ := Option.map_eq_some_iff.1 h
  obtain rfl : w.scale = scale := congrArg Heading.scale hheading
  obtain ⟨f, hframe, hkept, hfault⟩ := s.showFrame_ok (w := w) hroom m
  refine ⟨f.showSound.showFault, ?_, ?_, ?_⟩
  · unfold refresh
    rw [hw, hm]
    simp only [hframe]
  · rw [engine_showFault, engine_showSound, hfault]
  · have hsound : f.showSound.heading? = some (.showing w.scale base last) :=
      f.heading?_showSound.trans (hkept.trans h)
    rw [heading?_showFault hsound, engine_showSound, hfault]

theorem refresh_of_noMachine {s : Session α} {h : Heading} (hs : s.heading? = some h)
    (hm : s.engine.machine = none) : s.refresh = (s, .error .noMachine) := by
  obtain ⟨w, hw, -⟩ := Option.map_eq_some_iff.1 hs
  unfold refresh
  rw [hw, hm]

end Refresh

/-- A session with a window can be refreshed. -/
theorem perform_refresh {s : Session α} {h : Heading} (hs : s.heading? = some h) :
    s.perform .refresh = s.refresh := by
  obtain ⟨w, hw, -⟩ := Option.map_eq_some_iff.1 hs
  unfold perform
  rw [hw]
  rfl

omit [Quantity α] in
/-- A window opens with the caption that it is given, and can then show every grid. -/
theorem openWindow_heading {s₀ s : Session α} {scale : Int} {base : String}
    (h : s₀.openWindow scale base = .ok s) :
    s.heading? = some (.showing scale base none) ∧
      ∀ grid : Grid 64 32, ∃ frame, Frame.render grid scale .lit .dark = .ok frame := by
  unfold openWindow at h
  dsimp only at h
  split at h
  · cases h
  · split at h
    · cases h
    next frame hframe =>
      cases h
      exact ⟨rfl, Frame.exists_render hframe⟩

/-! ## Histories -/

omit [Quantity α] in
/-- The fault that a turn shows in the caption: a refresh shows the fault of the engine, as long as
the engine has a machine. -/
def shownFault? (s : Session α) : Turn α → Option Fault
  | .act _ .refresh => s.engine.machine.bind fun _ => s.engine.fault
  | _ => none

/-- The faults that the turns of a history show in the caption. -/
def shownFaults (s : Session α) : List (Turn α) → List Fault
  | [] => []
  | t :: rest => (s.shownFault? t).toList ++ (s.turn t).shownFaults rest

section History

variable {scale : Int} {base : String} {last : Option Fault}
  (hroom : ∀ grid : Grid 64 32, ∃ frame, Frame.render grid scale .lit .dark = .ok frame)

include hroom

/-- The fault that a turn shows takes the place of the one before it. -/
theorem heading?_turn {s : Session α} (h : s.heading? = some (.showing scale base last))
    (t : Turn α) :
    (s.turn t).heading? = some (.showing scale base ((s.shownFault? t).or last)) := by
  unfold shownFault?
  split
  next files =>
    have hfiles : ({ s with files } : Session α).heading? = some (.showing scale base last) := h
    show ({ s with files }.perform .refresh).1.heading? = _
    rw [perform_refresh hfiles]
    cases hm : s.engine.machine with
    | none =>
        rw [refresh_of_noMachine hfiles hm]
        exact h
    | some m =>
        obtain ⟨f, hf, -, hheading⟩ := refresh_of_machine hroom hfiles hm
        rw [hf]
        exact hheading
  next hnot =>
    cases t with
    | act files a =>
        have hact := heading?_act { s with files } fun ha : a = .refresh => hnot files (ha ▸ rfl)
        show ({ s with files }.perform a).1.heading? = _
        unfold perform
        split
        · exact h
        · exact hact.trans h
    | tick dt => exact (s.heading?_adopt _).trans h
    | report => exact h

/-- The caption shows the fault that was shown last. -/
theorem heading?_after {s : Session α} (h : s.heading? = some (.showing scale base last))
    (history : List (Turn α)) :
    (s.after history).heading? =
      some (.showing scale base ((s.shownFaults history).getLast?.or last)) := by
  -- every turn may put a fault in the place of `last`, so the hypothesis is for all of them
  induction history generalizing s last with
  | nil => exact h
  | cons t rest ih =>
      have hlast : ((s.shownFault? t).toList).getLast? = s.shownFault? t := by
        cases s.shownFault? t <;> rfl
      rw [shownFaults, List.getLast?_append, hlast, Option.or_assoc]
      exact ih (heading?_turn hroom h t)

end History

/-- A caption that shows a fault is not the base caption. -/
theorem captionOf_eq_base_iff (base : String) (last : Option Fault) :
    Window.captionOf base last = base ↔ last = none := by
  cases last with
  | none => exact iff_of_true rfl rfl
  | some fault =>
      refine iff_of_false (fun h => ?_) nofun
      have hlength := congrArg String.length h
      rw [Window.captionOf, String.length_append, String.length_append] at hlength
      have hdash : " - ".length = 3 := rfl
      omega

/-- What a refresh makes of the caption, whatever has happened since the window was opened. It
comes back, as long as the engine has a machine, and leaves the engine's fault as it is. If there is
a fault, the caption is the base caption with the text of that fault. If there is none, the caption
is the one for the fault that was shown last; so it is the base caption exactly if no refresh has
found a fault. -/
theorem caption_after_refresh {s₀ s : Session α} {scale : Int} {base : String}
    (hopen : s₀.openWindow scale base = .ok s) (history : List (Turn α)) :
    let before := s.after history
    let p := before.perform .refresh
    (before.engine.machine = none → p = (before, .error .noMachine)) ∧
    (before.engine.machine.isSome = true →
      p.2 = .ok .done ∧ p.1.engine.fault = before.engine.fault ∧
      ∃ w, p.1.window = some w ∧ w.baseCaption = base ∧
        (∀ fault, p.1.engine.fault = some fault →
          w.caption = base ++ " - " ++ fault.message) ∧
        (p.1.engine.fault = none →
          w.caption = Window.captionOf base (s.shownFaults history).getLast? ∧
            (w.caption = base ↔ s.shownFaults history = []))) := by
  intro before p
  obtain ⟨hopened, hroom⟩ := openWindow_heading hopen
  have hbefore := heading?_after hroom hopened history
  have hp : p = before.refresh := perform_refresh hbefore
  refine ⟨fun hm => hp.trans (refresh_of_noMachine hbefore hm), fun hsome => ?_⟩
  obtain ⟨m, hm⟩ := Option.isSome_iff_exists.1 hsome
  obtain ⟨f, hf, hfault, hheading⟩ := refresh_of_machine hroom hbefore hm
  obtain ⟨w, hw, hshowing⟩ := Option.map_eq_some_iff.1 hheading
  have hcaption : w.caption = Window.captionOf base
      (before.engine.fault.or (s.shownFaults history).getLast?) := by
    rw [← Option.or_none (o := (s.shownFaults history).getLast?)]
    exact congrArg Heading.caption hshowing
  rw [hp, hf]
  refine ⟨rfl, hfault, w, hw, congrArg Heading.base hshowing, fun fault hnow => ?_, fun hnone => ?_⟩
  · rw [hcaption, ← hfault, hnow]
    rfl
  · rw [← hfault, hnone, Option.none_or] at hcaption
    refine ⟨hcaption, ?_⟩
    rw [hcaption, captionOf_eq_base_iff, List.getLast?_eq_none_iff]

/-- A program meets a fault, the window shows it, and the next program meets another one. A fault
that is cleared before a refresh finds it is never shown. -/
theorem caption_after_refresh_next_fault :
    let give (c : Command Number) : Turn Number := .act .emptyDirectory (.command c)
    let failed := [give (.init [0x00, 0xEE]), give (.runCycles 1)]
    let another := failed ++
      [.act .emptyDirectory .refresh, give (.init [0x1F, 0xFF]), give (.runCycles 2)]
    let cleared := failed ++ [give .reset]
    ∃ (new : Engine Number) (s : Session Number),
      Engine.create (.int 60) (.int 60) ⟨fun _ => 0, 0⟩ ⟨.ignore, none, none⟩ [] = .ok new ∧
      (create new false []).openWindow 1 "CHIP-8" = .ok s ∧
      (∃ w, ((s.after another).perform .refresh).1.window = some w ∧
        w.caption = "CHIP-8" ++ " - " ++ (Fault.outOfRange .fetch 0xFFF).message) ∧
      ∃ w, ((s.after cleared).perform .refresh).1.window = some w ∧ w.caption = "CHIP-8" := by
  intro give failed another cleared
  -- what happens to the engine is computed, and the captions follow
  obtain ⟨new, s, hnew, hopen, ⟨hsome, hfault⟩, hsome', hfault', hshown⟩ :
      ∃ (new : Engine Number) (s : Session Number),
        Engine.create (.int 60) (.int 60) ⟨fun _ => 0, 0⟩ ⟨.ignore, none, none⟩ [] = .ok new ∧
        (create new false []).openWindow 1 "CHIP-8" = .ok s ∧
        ((s.after another).engine.machine.isSome = true ∧
          (s.after another).engine.fault = some (.outOfRange .fetch 0xFFF)) ∧
        (s.after cleared).engine.machine.isSome = true ∧
          (s.after cleared).engine.fault = none ∧ s.shownFaults cleared = [] :=
    ⟨_, _, rfl, rfl, by decide +kernel⟩
  refine ⟨new, s, hnew, hopen, ?_, ?_⟩
  · obtain ⟨-, hkept, w, hw, -, hcaption, -⟩ := (caption_after_refresh hopen another).2 hsome
    exact ⟨w, hw, hcaption _ (hkept.trans hfault)⟩
  · obtain ⟨-, hkept, w, hw, -, -, hcaption⟩ := (caption_after_refresh hopen cleared).2 hsome'
    exact ⟨w, hw, (hcaption (hkept.trans hfault')).2.2 hshown⟩

/-- A fault stays in the caption when it is over: a program meets one, the window shows it, the
engine is reset, and the window is refreshed. -/
theorem caption_of_past_fault :
    ∃ (new : Engine Number) (s : Session Number),
      Engine.create (.int 60) (.int 60) ⟨fun _ => 0, 0⟩ ⟨.ignore, none, none⟩ [] = .ok new ∧
      (create new false []).openWindow 1 "CHIP-8" = .ok s ∧
      let give (c : Command Number) : Turn Number := .act .emptyDirectory (.command c)
      let p := (s.after [give (.init [0x00, 0xEE]), give (.runCycles 1),
        .act .emptyDirectory .refresh, give .reset]).perform .refresh
      p.1.engine.fault = none ∧
        p.1.window.map (fun w => (w.baseCaption, w.caption)) =
          some ("CHIP-8", "CHIP-8 - Stack underflow on RET at 0x200") :=
  ⟨_, _, rfl, rfl, by decide +kernel⟩

end Session

end Chip8
