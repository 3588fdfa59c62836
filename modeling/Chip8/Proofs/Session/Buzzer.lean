import Chip8.Number.Exact
import Chip8.Session.Action
import Chip8.Proofs.Engine.Buzzer

/-!
# The buzzer of a session

A window that is opened on a new engine hears every change of the buzzer, so that it wants sound
exactly while the buzzer is on (`Session.Attuned`): one step lemma for whatever happens to a
session, then an induction over its history. `Engine.buzzer_reported` puts together what the
outside knows of the buzzer.
-/

set_option autoImplicit false

namespace Chip8

/-- Something that happens to a session: an action, with the program files that are there at that
time, one more tick of a live run, or a report of what has happened. -/
inductive Turn (α : Type) where
  | act (files : Node) (a : Action α)
  | tick (dt : α)
  | report

namespace Session

variable {α : Type}

/-- Whether the window, if there is one, wants sound. -/
def wanted (s : Session α) : Option Bool :=
  s.window.map Window.soundWanted

/-- The window wants sound exactly while the buzzer is on, and it has heard all that the engine
has signalled. -/
structure Attuned (s : Session α) : Prop where
  wanted : s.wanted = some s.engine.soundOn
  trail : s.engine.trail = []

theorem Attuned.congr {s f : Session α} (h : s.Attuned) (hw : f.wanted = s.wanted)
    (hs : f.engine.soundOn = s.engine.soundOn) (ht : f.engine.trail = s.engine.trail) :
    f.Attuned where
  wanted := by rw [hw, hs, h.wanted]
  trail := ht.trans h.trail

/-! ## Signals -/

theorem engine_receive (s : Session α) (signal : Signal) :
    (s.receive signal).engine = s.engine := by
  cases signal with
  | entry entry => rfl
  | buzzer on =>
      unfold receive
      cases s.window <;> rfl
  | _ =>
      simp only [receive, announce]
      split <;> rfl

/-- A window notes the buzzer's changes and nothing else. -/
theorem wanted_receive {s : Session α} {now : Bool} (hw : s.wanted = some now)
    (signal : Signal) : (s.receive signal).wanted = some (signal.buzzer?.getD now) := by
  cases signal with
  | entry entry => exact hw
  | buzzer on =>
      obtain ⟨w, hwindow, -⟩ := Option.map_eq_some_iff.1 hw
      simp only [receive, hwindow]
      rfl
  | _ =>
      simp only [receive, announce]
      split <;> exact hw

/-- After the signals of a buzzer's changes the window wants what the buzzer has become. -/
theorem wanted_foldl_receive {s : Session α} {start now : Bool} {signals : List Signal}
    (hw : s.wanted = some start) (hf : Engine.Flips start (signals.filterMap Signal.buzzer?) now) :
    (signals.foldl receive s).wanted = some now ∧
      (signals.foldl receive s).engine = s.engine := by
  induction signals generalizing s start with
  | nil =>
      cases hf
      exact ⟨hw, rfl⟩
  | cons signal rest ih =>
      have hheard := wanted_receive hw signal
      have hengine := engine_receive s signal
      rw [List.foldl_cons, ← hengine]
      cases hb : signal.buzzer? with
      | none =>
          rw [List.filterMap_cons_none hb] at hf
          rw [hb] at hheard
          exact ih hheard hf
      | some on =>
          rw [List.filterMap_cons_some hb] at hf
          rw [hb] at hheard
          obtain ⟨rfl, hrest⟩ := hf
          exact ih hheard hrest

/-- A session that takes its engine over after something was done to it stays attuned. -/
theorem Attuned.adopt [Tracing] {s : Session α} (h : s.Attuned) {allowed : Operation → Prop}
    {f : Engine α} (ho : s.engine.Outward allowed f) : (s.adopt f).Attuned := by
  obtain ⟨new, htrail, hflips⟩ := ho.flips
  rw [h.trail, List.append_nil] at htrail
  subst htrail
  obtain ⟨hwanted, hengine⟩ :=
    wanted_foldl_receive (s := { s with engine := { f with trail := [] } }) h.wanted hflips
  constructor
  · exact hwanted.trans (congrArg (fun e : Engine α => some e.soundOn) hengine).symm
  · exact congrArg Engine.trail hengine

/-! ## What the window does -/

theorem attuned_of_openWindow {e : Engine α} (hs : e.soundOn = false) (ht : e.trail = [])
    {listening : Bool} {pitches : List Int} {scale : Int} {caption : String} {s : Session α}
    (h : (create e listening pitches).openWindow scale caption = .ok s) : s.Attuned := by
  unfold openWindow at h
  dsimp only at h
  split at h
  · cases h
  · split at h
    · cases h
    · cases h
      exact ⟨congrArg some hs.symm, ht⟩

/-- A window that is not magnified can be opened as long as there is a machine. -/
theorem openWindow_unscaled {e : Engine α} {m : Machine} (hm : e.machine = some m)
    (listening : Bool) (pitches : List Int) (caption : String) :
    ∃ s, (create e listening pitches).openWindow 1 caption = .ok s := by
  have hrows : (m.display.grid.toList.map Vector.toList).length = 32 := by
    rw [List.length_map, Vector.length_toList]
  simp only [openWindow, create, hm, Window.picture, Window.create, Frame.render,
    Frame.ofCells, hrows]
  exact ⟨_, rfl⟩

/-- What a window does with itself is of no account as long as it still wants what it wanted. -/
theorem Attuned.changeWindow {s f : Session α} (h : s.Attuned) {w w' : Window}
    (hw : s.window = some w) (hf : f.window = some w')
    (hwanted : w'.soundWanted = w.soundWanted) (he : f.engine = s.engine) : f.Attuned := by
  apply h.congr
  · unfold Session.wanted
    rw [hw, hf]
    exact congrArg some hwanted
  · rw [he]
  · rw [he]

theorem Attuned.beep {s : Session α} (h : s.Attuned) (spread : Int) :
    (s.beep spread).Attuned := by
  unfold Session.beep
  cases hw : s.window with
  | none => exact h
  | some w =>
      cases hp : s.pitches <;> simp only [nextPitch, hp] <;> exact h.changeWindow hw rfl rfl rfl

theorem Attuned.endTone {s : Session α} (h : s.Attuned) : s.endTone.1.Attuned := by
  unfold Session.endTone
  cases hw : s.window with
  | none => exact h
  | some w =>
      dsimp only
      split
      · exact h.changeWindow hw rfl rfl rfl
      · exact h

theorem Attuned.showSound {s : Session α} (h : s.Attuned) : s.showSound.Attuned := by
  unfold Session.showSound
  split
  · exact h
  · split
    · exact h.beep defaultSpread
    · exact h

/-- The picture is taken from the machine, which the buzzer does not notice. -/
theorem Attuned.showFrame {s : Session α} (h : s.Attuned) (w : Window) (m : Machine) :
    (s.showFrame w m).1.Attuned := by
  unfold Session.showFrame
  dsimp only
  split
  · exact h.congr rfl rfl rfl
  · split <;> exact h.congr rfl rfl rfl

theorem Attuned.showFault {s : Session α} (h : s.Attuned) : s.showFault.Attuned := by
  unfold Session.showFault
  split
  next w fault hw hf =>
    dsimp only
    split
    · exact h
    · have hkept : s.wanted = some w.soundWanted := congrArg (Option.map Window.soundWanted) hw
      exact h.changeWindow hw rfl rfl rfl
  next => exact h

theorem Attuned.refresh {s : Session α} (h : s.Attuned) : s.refresh.1.Attuned := by
  unfold Session.refresh
  split
  · exact h
  · exact h
  next w m _ _ =>
    have hshown := h.showFrame w m
    generalize s.showFrame w m = shown at hshown ⊢
    rcases shown with ⟨f, reason | done⟩
    · exact hshown
    · exact hshown.showSound.showFault

/-! ## Turns -/

variable [Quantity α]

theorem Attuned.command {s : Session α} (h : s.Attuned) (c : Command α) :
    (s.command c).1.Attuned := by
  let _ := s.journal.tracing
  apply h.adopt
  exact Engine.outward_next Engine.drives_any (o := .command s.files c)
    (fun _ _ _ => trivial) s.engine

theorem Attuned.advance {s : Session α} (h : s.Attuned) (dt : α) : (s.advance dt).Attuned := by
  let _ := s.journal.tracing
  apply h.adopt
  exact Engine.outward_next Engine.drives_any (o := .tick dt) (fun _ _ _ => trivial) s.engine

theorem Attuned.showRate {s : Session α} (h : s.Attuned) (dt : α) :
    (s.showRate dt).1.Attuned := by
  unfold Session.showRate
  cases hw : s.window with
  | none => exact h
  | some w =>
      dsimp only
      split
      · exact h
      · exact h.changeWindow hw rfl rfl rfl

/-- Whatever is done with a session, it stays attuned. -/
theorem Attuned.act {s : Session α} (h : s.Attuned) (a : Action α) : (s.act a).1.Attuned := by
  cases a with
  | command c => exact h.command c
  | switchJournal on => exact h.congr rfl rfl rfl
  | refresh => exact h.refresh
  | showRate dt => exact h.showRate dt
  | beep spread => exact h.beep spread
  | endTone => exact h.endTone
  | keyDown symbol =>
      show (s.keyDown symbol).1.Attuned
      unfold keyDown
      split
      · exact h
      · exact h.congr rfl rfl rfl
      · exact h.congr rfl rfl rfl
      · exact h.command _
  | keyUp symbol =>
      show (s.keyUp symbol).1.Attuned
      unfold keyUp
      split
      · exact h
      · exact h.command _
  | draw =>
      show s.drawWindow.Attuned
      unfold drawWindow
      split
      · exact h
      · exact h.congr rfl rfl rfl
  | deactivate => exact h.command _
  | close =>
      have hended : ((s.call (.unschedule .refresh)).call (.unschedule .rate)).Attuned :=
        h.congr rfl rfl rfl
      exact (hended.command .stop).congr rfl rfl rfl

/-- The session after something has happened to it. -/
def turn (s : Session α) : Turn α → Session α
  | .act files a => ({ s with files }.perform a).1
  | .tick dt => s.advance dt
  | .report => s.report.2.2

/-- The session after a history. -/
def after (s : Session α) (history : List (Turn α)) : Session α :=
  history.foldl turn s

theorem Attuned.turn {s : Session α} (h : s.Attuned) (t : Turn α) : (s.turn t).Attuned := by
  cases t with
  | act files a =>
      have hfiles : { s with files }.Attuned := h.congr rfl rfl rfl
      show ({ s with files }.perform a).1.Attuned
      unfold perform
      split
      · exact hfiles
      · exact hfiles.act a
  | tick dt => exact h.advance dt
  | report => exact h.congr rfl rfl rfl

theorem Attuned.after {s : Session α} (h : s.Attuned) (history : List (Turn α)) :
    (s.after history).Attuned := by
  induction history generalizing s with
  | nil => exact h
  | cons t rest ih => exact ih (h.turn t)

end Session

namespace Engine

variable {α : Type} [Quantity α]

/-- What the outside knows of the buzzer of a new engine, whatever is done with it. The reports
alternate and begin with the buzzer on, and the buzzer is what was reported last. It is in tune
with the sound timer when a reset, a call for instructions or a tick of the timers comes back, if
no run has ended meanwhile, and after every tick that does not break its run off. Once a run has
ended it is off until the next call for instructions or tick of the timers, if the period of the
timers can be computed. A window that is opened on the new engine always wants sound exactly while
the buzzer is on. -/
theorem buzzer_reported [Tracing] {rate timerRate : α} {random : RandomSource} {policy : Policy}
    {schedule : List (List α)} {new : Engine α}
    (hc : create rate timerRate random policy schedule = .ok new) :
    (∀ history,
      (∀ i on, (new.after history).buzzes[i]? = some on → (on = true ↔ i % 2 = 0)) ∧
      (new.after history).soundOn = (new.after history).buzzes.getLast?.getD false) ∧
    ((∀ e f : Engine α, e.reset = (f, .ok ()) → f.InTune) ∧
      (∀ (e f : Engine α) caller count executed,
        e.runCycles caller count = (f, .ok executed) → f.InTune) ∧
      (∀ (e f : Engine α) caller, e.tickTimers caller = (f, .ok ()) →
        (∀ id, f.HasEnded id → e.HasEnded id) → f.InTune) ∧
      ∀ history, ∀ t ∈ new.beats history,
        (t.before.tick t.run t.dt).2 = .ok () → t.after.InTune) ∧
    (new.HasPeriod → ∀ history, (∀ d ∈ new.deeds history, d.Returns) →
      (∀ pre rest, new.deeds history = pre ++ rest → (∀ d ∈ pre, d.job = .begin) →
        (found rest (new.after history)).soundOn = false) ∧
      ∀ pre mid rest, new.deeds history = pre ++ mid ++ rest →
        (∀ d ∈ mid.tail, d.job = .begin) →
        (found (mid ++ rest) (new.after history)).EndsSilently
          (found rest (new.after history))) ∧
    ∀ listening pitches scale caption s,
      (Session.create new listening pitches).openWindow scale caption = .ok s →
      ∀ turns, ∃ w, (s.after turns).window = some w ∧
        w.soundWanted = (s.after turns).engine.soundOn := by
  obtain ⟨-, hcontrol⟩ := eq_of_create hc
  obtain ⟨hsilent, hquiet⟩ := silent_of_create hc
  refine ⟨fun history => ⟨fun i on hi => ?_, ?_⟩, ⟨?_, ?_, ?_, ?_⟩, ?_, ?_⟩
  · rw [(flips_of_create hc history).alternate hi]
    by_cases hparity : i % 2 = 0 <;> simp [hparity]
  · exact (flips_of_create hc history).last
  · intro e f h
    exact inTune_reset h
  · intro e f caller count executed h
    exact inTune_runCycles h
  · intro e f caller h hends
    exact inTune_tickTimers h hends
  · intro history t ht hok
    exact inTune_beat ht hok
  · intro hperiod history hreturns
    have hphase : new.phase = .absent := congrArg Control.phase hcontrol
    have hstartable : new.Startable := ⟨by rw [hphase]; nofun, hperiod⟩
    constructor
    · intro pre rest hd hbegin
      exact silent_of_no_deed hstartable hsilent hd hbegin
    · intro pre mid rest hd hbegin
      exact silent_of_ended hstartable hreturns hd hbegin
  · intro listening pitches scale caption s hopen turns
    have hattuned : (s.after turns).Attuned :=
      (Session.attuned_of_openWindow hsilent hquiet hopen).after turns
    obtain ⟨w, hw, hwanted⟩ := Option.map_eq_some_iff.1 hattuned.wanted
    exact ⟨w, hw, hwanted⟩

/-- With exact numbers, the period of every rate can be computed. -/
theorem hasPeriod_of_ne_zero {e : Engine Rat} (h : e.timerRate ≠ 0) : e.HasPeriod :=
  ⟨_, if_neg h⟩

open Tracing.Off in
/-- A program switches the buzzer on from within a run, which is then stopped from outside: the
run's end switches it off, although the sound timer still runs. A window has heard it all. -/
theorem buzzer_reported_stopped_run :
    ∃ new : Engine Rat,
      create 60 60 ⟨fun _ => 0, 0⟩ ⟨.ignore, none, none⟩ [[1 / 60, 1 / 60]] = .ok new ∧
      let history := [.command .emptyDirectory (.init [0x60, 0x05, 0xF0, 0x18, 0x12, 0x04]),
        .command .emptyDirectory .start, .command .emptyDirectory .stop]
      let deeds := new.deeds history
      let stopped := new.after history
      stopped.buzzes = [true, false] ∧ stopped.machine.map Machine.sound = some 5 ∧
        deeds.length = 5 ∧ stopped.HasEnded 1 ∧ stopped.soundOn = false ∧
        ∃ s, (Session.create new false []).openWindow 1 "" = .ok s ∧
          let started := s.after [.act .emptyDirectory (.command .start)]
          ∃ w, started.window = some w ∧ w.soundWanted = started.engine.soundOn := by
  refine ⟨_, rfl, ?_⟩
  intro history deeds stopped
  have hnew : create (60 : Rat) 60 ⟨fun _ => 0, 0⟩ ⟨.ignore, none, none⟩
      [[1 / 60, 1 / 60]] = .ok _ := rfl
  have hbuzzes : stopped.buzzes = [true, false] := by decide +kernel
  have hruns : ∀ d ∈ deeds, d.run.isSome = true := by decide +kernel
  have hreturns : ∀ d ∈ deeds, d.Returns := by
    intro d hd count _ hnone
    have := hruns d hd
    rw [hnone] at this
    cases this
  -- the last deed is the call for the instruction that sets the sound timer
  have hparts : deeds = deeds.take 4 ++ deeds.drop 4 ++ [] := by simp
  have hquiet : ∀ d ∈ (deeds.drop 4).tail, d.job = .begin := by
    have hlast : (deeds.drop 4).tail = [] := List.isEmpty_iff.1 (by decide +kernel)
    rw [hlast]
    exact List.forall_mem_nil _
  have hbegun : ¬ (found (deeds.drop 4 ++ []) stopped).HasEnded 1 := by decide +kernel
  have hended : stopped.HasEnded 1 := by decide +kernel
  obtain ⟨-, -, hsilent, hwindow⟩ := buzzer_reported hnew
  have hoff : stopped.soundOn = false := by
    have hends :=
      (hsilent (hasPeriod_of_ne_zero (by decide)) history hreturns).2 _ _ _ hparts hquiet
    rw [found_nil] at hends
    exact Bool.eq_false_iff.2 fun hon => hbegun (hends hon 1 hended)
  refine ⟨hbuzzes, by decide +kernel, by decide +kernel, hended, hoff, ?_⟩
  obtain ⟨s, hs⟩ := Session.openWindow_unscaled (eq_of_create hnew).1 false [] ""
  exact ⟨s, hs, hwindow false [] 1 "" s hs [_]⟩

open Tracing.Off in
/-- Where the period cannot be computed, a run dies before it has begun, and it leaves the buzzer
on: a timer rate that is too large an integer is accepted, a call for instructions switches the
buzzer on, and a run is started. -/
theorem soundOn_of_dead_run :
    ∃ new : Engine Number,
      create (.int 500) (.int (10 ^ 200 * 10 ^ 200)) ⟨fun _ => 0, 0⟩ ⟨.ignore, none, none⟩ [] =
        .ok new ∧
      let before := new.after
        [.command .emptyDirectory (.init [0x60, 0x05, 0xF0, 0x18, 0x12, 0x04]),
          .command .emptyDirectory (.runCycles 2)]
      let start := .command .emptyDirectory .start
      before.deeds [start] = [] ∧ ¬ before.HasEnded 1 ∧ (before.next start).HasEnded 1 ∧
        (before.next start).soundOn = true := by
  refine ⟨_, rfl, ?_⟩
  intro before start
  refine ⟨?_, ?_, ?_, ?_⟩
  · exact List.isEmpty_iff.1 (by decide +kernel)
  · decide +kernel
  · decide +kernel
  · decide +kernel

end Engine

end Chip8
