import Chip8.Number.Basic
import Chip8.Proofs.Engine.History

/-!
# One scheduler at a time

A run's clock calls the run's functions until the run has ended. `Engine.ended` are the clocks of
the runs that have ended, and an engine is orderly if none of these calls anything and the clock of
a live run calls both of the run's functions. Every call keeps an engine orderly, and never touches
the clock of a run that has ended (`Engine.Inherits`): a stop silences the clock of the live run,
and a run that is superseded from within silences its own clock, before the new run makes one.
-/

set_option autoImplicit false

namespace Chip8.Engine

variable {α : Type}

/-- The clocks of the runs that have ended: all clocks, except that of a live run. -/
def ended (e : Engine α) : List (Clock α) :=
  if e.phase = .live then e.clocks.tail else e.clocks

theorem ended_of_live {e : Engine α} (h : e.phase = .live) : e.ended = e.clocks.tail :=
  if_pos h

theorem ended_of_not_live {e : Engine α} (h : e.phase ≠ .live) : e.ended = e.clocks :=
  if_neg h

/-- Whether the clock of a run has been made with the period of the timers, and calls the run's
functions. -/
def Calls [Quantity α] (timerRate : α) (c : Clock α) : Prop :=
  c.scheduled = clockFunctions ∧ Quantity.div (Quantity.one : α) timerRate = .ok c.period

/-- Only the clock of a live run calls anything, and it calls the run's functions. -/
structure Orderly [Quantity α] (e : Engine α) : Prop where
  ended : ∀ c ∈ e.ended, c.scheduled = 0
  live : e.phase = .live → ∃ c, e.clocks = c :: e.ended ∧ Calls e.timerRate c

theorem silenced_of_silent {clocks : List (Clock α)} (h : ∀ c ∈ clocks, c.scheduled = 0) :
    silenced clocks = clocks := by
  cases clocks with
  | nil => rfl
  | cons c older =>
      have hc : c.scheduled = 0 := h c List.mem_cons_self
      show { c with scheduled := 0 } :: older = c :: older
      rw [← hc]

theorem silent_silenced {c : Clock α} {older : List (Clock α)}
    (h : ∀ o ∈ older, o.scheduled = 0) : ∀ o ∈ silenced (c :: older), o.scheduled = 0 :=
  List.forall_mem_cons.2 ⟨rfl, h⟩

variable [Quantity α]

theorem Orderly.of_not_live {e : Engine α} (hp : e.phase ≠ .live)
    (hc : ∀ c ∈ e.clocks, c.scheduled = 0) : e.Orderly where
  ended := by
    rw [ended_of_not_live hp]
    exact hc
  live := fun hl => absurd hl hp

theorem Orderly.silent {e : Engine α} (h : e.Orderly) (hp : e.phase ≠ .live) :
    ∀ c ∈ e.clocks, c.scheduled = 0 := by
  rw [← ended_of_not_live hp]
  exact h.ended

/-- An orderly engine stays orderly, and the clocks of the runs that have ended stay as they
are. -/
def Inherits (e f : Engine α) : Prop :=
  e.Orderly → f.Orderly ∧ e.ended <:+ f.ended

theorem Inherits.trans {e f g : Engine α} (hf : e.Inherits f) (hg : f.Inherits g) :
    e.Inherits g := by
  intro he
  obtain ⟨hof, hsf⟩ := hf he
  obtain ⟨hog, hsg⟩ := hg hof
  exact ⟨hog, hsf.trans hsg⟩

theorem Inherits.of_control {e f : Engine α} {requested : Bool} {cycles refreshes generation : Nat}
    (h : f.control = { e.control with
      stopRequested := requested, cycles, refreshes, generation }) : e.Inherits f := by
  have hp : f.phase = e.phase := congrArg Control.phase h
  have hc : f.clocks = e.clocks := congrArg Control.clocks h
  have ht : f.timerRate = e.timerRate := congrArg Control.timerRate h
  have hended : f.ended = e.ended := by
    unfold ended
    rw [hp, hc]
  intro he
  refine ⟨⟨?_, ?_⟩, hended ▸ List.suffix_refl e.ended⟩
  · rw [hended]
    exact he.ended
  · rw [hp, hc, ht, hended]
    exact he.live

/-- An engine without a live run inherits if its clocks are those of before. -/
theorem Inherits.of_clocks {e f : Engine α} (he : e.phase ≠ .live) (hf : f.phase ≠ .live)
    (hc : f.clocks = e.clocks) : e.Inherits f := by
  intro ho
  have hended : e.ended = f.ended :=
    (ended_of_not_live he).trans (hc.symm.trans (ended_of_not_live hf).symm)
  exact ⟨.of_not_live hf (hc ▸ ho.silent he), [], hended⟩

/-- Silencing the newest clock ends the live run. -/
theorem Inherits.of_silenced {e f : Engine α} (hf : f.phase ≠ .live)
    (hc : f.clocks = silenced e.clocks) : e.Inherits f := by
  intro ho
  by_cases he : e.phase = .live
  · obtain ⟨c, hclocks, -⟩ := ho.live he
    rw [hclocks] at hc
    refine ⟨.of_not_live hf (hc ▸ silent_silenced ho.ended), ?_⟩
    rw [ended_of_not_live hf, hc]
    exact List.suffix_cons _ _
  · rw [silenced_of_silent (ho.silent he)] at hc
    exact Inherits.of_clocks he hf hc ho

/-! ## Stops and starts from outside -/

theorem inherits_finish (e : Engine α) : e.Inherits e.finish := by
  have h := control_finish e
  have hp : e.finish.phase ≠ .live := by
    rw [show e.finish.phase = _ from congrArg Control.phase h]
    by_cases hl : e.phase = .live
    · rw [if_pos hl]
      nofun
    · rw [if_neg hl]
      exact hl
  exact .of_silenced hp (congrArg Control.clocks h)

theorem inherits_rest (e : Engine α) (id : Nat) : e.Inherits (e.rest id) := by
  rcases rest_cases e id with h | h
  · rw [h]
    exact inherits_finish e
  · rw [h]
    exact fun he => ⟨he, List.suffix_refl e.ended⟩

theorem inherits_stop (e : Engine α) : e.Inherits (e.stop .outside) := by
  have h := control_stop_outside e
  have hp : (e.stop .outside).phase = .absent := congrArg Control.phase h
  have hnot : (e.stop .outside).phase ≠ .live := by
    rw [hp]
    nofun
  have hc : (e.stop .outside).clocks = if e.phase = .live then silenced e.clocks else e.clocks :=
    congrArg Control.clocks h
  by_cases hl : e.phase = .live
  · exact .of_silenced hnot (hc.trans (if_pos hl))
  · exact .of_clocks hl hnot (hc.trans (if_neg hl))

/-- The clock that a run makes is the newest one, if no run is live. -/
theorem inherits_openClock {e f : Engine α} {later : List (List α)} (he : e.phase ≠ .live)
    (h : e.openClock later = some f) : e.Inherits f := by
  obtain ⟨period, hperiod, hf⟩ := control_of_openClock h
  have hp : f.phase = .live := congrArg Control.phase hf
  have hc : f.clocks = ⟨period, 0, clockFunctions⟩ :: e.clocks := congrArg Control.clocks hf
  have ht : f.timerRate = e.timerRate := congrArg Control.timerRate hf
  have hended : f.ended = e.clocks := by
    rw [ended_of_live hp, hc]
    rfl
  intro ho
  refine ⟨⟨?_, fun _ => ⟨_, hc.trans (by rw [hended]), rfl, by rw [ht, hperiod]⟩⟩, ?_⟩
  · rw [hended]
    exact ho.silent he
  · exact ⟨[], (ended_of_not_live he).trans hended.symm⟩

theorem inherits_enter {e : Engine α} (he : e.phase ≠ .live) : e.Inherits e.enter := by
  have hstages := enter_stages e
  generalize e.enter = f at hstages ⊢
  cases hstages with
  | ticking _ => exact fun ho => ⟨ho, List.suffix_refl e.ended⟩
  | noClock _ _ => exact .of_clocks he nofun rfl
  | idle _ ho => exact (inherits_openClock he ho).trans (inherits_rest _ _)

theorem inherits_start (e : Engine α) : e.Inherits (e.start .outside) := by
  have hrenewed : e.Inherits e.renewed := by
    have hp : (e.stop .outside).phase = .absent := congrArg Control.phase (control_stop_outside e)
    rw [renewed_eq]
    refine (inherits_stop e).trans (.of_clocks ?_ nofun rfl)
    rw [hp]
    nofun
  have hpending : e.renewed.phase ≠ .live := nofun
  exact (hrenewed.trans (inherits_enter hpending)).trans (.of_control (control_start_outside e))

section Runs

variable [Tracing]

theorem Moves.inherits {odd counting : Prop} {e f : Engine α}
    (h : e.Moves .outside odd counting f) : e.Inherits f := by
  induction h with
  | quiet h _ | work _ _ h _ | remove h _ | request h _ | count _ h _ => exact .of_control h
  | stop e => exact inherits_stop e
  | start e => exact inherits_start e
  | trans _ _ hf hg => exact hf.trans hg

/-! ## Runs -/

/-- The run `id` is at work, its clock calls the run's functions, and the clocks of the runs before
it are `older`. -/
structure Driven (id : Nat) (older : List (Clock α)) (e : Engine α) : Prop where
  atWork : e.AtWork id
  clock : ∃ c, e.clocks = c :: older ∧ Calls e.timerRate c

section Driven

variable {id : Nat} {older : List (Clock α)} {e : Engine α}

omit [Tracing] in
theorem Driven.onward {f : Engine α} (h : e.Driven id older) (hf : e.Onward f) :
    f.Driven id older where
  atWork := h.atWork.onward hf
  clock := by
    rw [hf.clocks, hf.timerRate]
    exact h.clock

omit [Tracing] in
theorem Driven.countTick (h : e.Driven id older) : e.countTick.Driven id older := by
  obtain ⟨c, hc, hcalls⟩ := h.clock
  have hcounted : e.countTick = { e with clocks := { c with ticks := c.ticks + 1 } :: older } := by
    rw [Engine.countTick, hc]
  rw [hcounted]
  exact ⟨h.atWork, _, rfl, hcalls⟩

theorem Driven.tick (h : e.Driven id older) (dt : α) : (e.tick id dt).1.Driven id older :=
  h.countTick.onward (onward_tick id e dt)

omit [Tracing] in
/-- The end of a run leaves the clocks of the runs before it as they are. -/
theorem Driven.finish (h : e.Driven id older) (ho : ∀ c ∈ older, c.scheduled = 0) :
    e.finish.Orderly ∧ older <:+ e.finish.ended := by
  obtain ⟨c, hc, -⟩ := h.clock
  have hf := control_finish e
  have hp : e.finish.phase ≠ .live := by
    rw [show e.finish.phase = _ from congrArg Control.phase hf]
    rcases h.atWork with ⟨-, hl⟩ | ⟨-, hl⟩
    · rw [if_pos hl]
      nofun
    · rw [hl]
      nofun
  have hclocks : e.finish.clocks = silenced (c :: older) := by
    rw [← hc]
    exact congrArg Control.clocks hf
  refine ⟨.of_not_live hp (hclocks ▸ silent_silenced ho), ?_⟩
  rw [ended_of_not_live hp, hclocks]
  exact List.suffix_cons _ _

omit [Tracing] in
theorem Driven.rest (h : e.Driven id older) (ho : ∀ c ∈ older, c.scheduled = 0) :
    (e.rest id).Orderly ∧ older <:+ (e.rest id).ended := by
  unfold Engine.rest
  cases hid : e.stopped id with
  | true => exact h.finish ho
  | false =>
      cases hw : e.canWait with
      | false => exact h.finish ho
      | true =>
          -- the run waits for its next tick, so that it is still the live one
          obtain ⟨-, hl, -⟩ := h.atWork.isRunning hid
          obtain ⟨c, hc, hcalls⟩ := h.clock
          have hended : e.ended = older := by
            rw [ended_of_live hl, hc]
            rfl
          show e.Orderly ∧ older <:+ e.ended
          refine ⟨⟨hended ▸ ho, fun _ => ⟨c, ?_, hcalls⟩⟩, hended ▸ List.suffix_refl e.ended⟩
          rw [hended, hc]

/-- A run leaves an orderly engine, whatever happens on its ticks. -/
theorem Driven.play (h : e.Driven id older) (ho : ∀ c ∈ older, c.scheduled = 0)
    (times : List α) :
    (play id times e).Orderly ∧ older <:+ (Engine.play id times e).ended := by
  induction times generalizing e with
  | nil => exact h.rest ho
  | cons dt later ih =>
      rw [Engine.play]
      by_cases hid : e.stopped id = true
      · rw [if_pos hid]
        exact h.finish ho
      · rw [if_neg hid]
        have hticked := h.tick dt
        cases ht : e.tick id dt with
        | mk f result =>
            rw [ht] at hticked
            cases result with
            | error reason => exact hticked.finish ho
            | ok done => exact ih hticked

end Driven

theorem inherits_begin {e : Engine α} (he : e.phase ≠ .live) (times : List α)
    (later : List (List α)) : e.Inherits (e.begin times later) := by
  unfold begin
  cases ho : e.openClock later with
  | none => exact .of_clocks he nofun rfl
  | some f =>
      intro horderly
      obtain ⟨hf, hsuffix⟩ := inherits_openClock he ho horderly
      obtain ⟨period, hperiod, hcontrol⟩ := control_of_openClock ho
      have hlive : f.phase = .live := congrArg Control.phase hcontrol
      have hdriven : f.Driven f.generation f.ended := ⟨Or.inl ⟨rfl, hlive⟩, hf.live hlive⟩
      obtain ⟨hplayed, hkept⟩ := hdriven.play hf.ended times
      exact ⟨hplayed, hsuffix.trans hkept⟩

theorem inherits_playPending (runs : List (List α)) (e : Engine α) :
    e.Inherits (playPending runs e) := by
  induction runs generalizing e with
  | nil =>
      unfold playPending
      by_cases hp : e.phase = .pending
      · rw [if_pos hp]
        exact inherits_begin (by rw [hp]; nofun) [] []
      · rw [if_neg hp]
        exact fun ho => ⟨ho, List.suffix_refl e.ended⟩
  | cons times later ih =>
      unfold playPending
      by_cases hp : e.phase = .pending
      · rw [if_pos hp]
        exact (inherits_begin (by rw [hp]; nofun) times later).trans (ih (e.begin times later))
      · rw [if_neg hp]
        exact fun ho => ⟨ho, List.suffix_refl e.ended⟩

theorem inherits_settle (e : Engine α) : e.Inherits e.settle := by
  have hplayed := inherits_playPending e.schedule e
  unfold settle
  dsimp only
  by_cases hstop : (playPending e.schedule e).phase = .live ∧
      (playPending e.schedule e).stopRequested = true
  · rw [if_pos hstop]
    exact hplayed.trans (inherits_finish _)
  · rw [if_neg hstop]
    exact hplayed

theorem inherits_advance (e : Engine α) (dt : α) : e.Inherits (e.advance dt) := by
  unfold advance
  by_cases hl : e.phase = .live
  · rw [if_pos hl]
    intro ho
    have hdriven : e.Driven e.generation e.ended := ⟨Or.inl ⟨rfl, hl⟩, ho.live hl⟩
    exact hdriven.play ho.ended [dt]
  · rw [if_neg hl]
    exact fun ho => ⟨ho, List.suffix_refl e.ended⟩

/-! ## Histories -/

theorem inherits_next (e : Engine α) (o : Occurrence α) : e.Inherits (e.next o) := by
  refine Inherits.trans ?_ (inherits_settle (e.occur o))
  cases o with
  | command files c =>
      have hmoves : e.Moves .outside True True (e.perform files c).1 :=
        moves_perform trivial (Or.inl trivial) e files
      exact hmoves.inherits
  | tick dt => exact inherits_advance e dt

theorem inherits_after (e : Engine α) (history : List (Occurrence α)) :
    e.Inherits (e.after history) := by
  induction history generalizing e with
  | nil => exact fun ho => ⟨ho, List.suffix_refl e.ended⟩
  | cons o rest ih => exact (inherits_next e o).trans (ih (e.next o))

omit [Tracing] in
theorem orderly_create {rate timerRate : α} {random : RandomSource} {policy : Policy}
    {schedule : List (List α)} {new : Engine α}
    (h : create rate timerRate random policy schedule = .ok new) : new.Orderly := by
  obtain ⟨-, hc⟩ := eq_of_create h
  have hp : new.phase = .absent := congrArg Control.phase hc
  have hclocks : new.clocks = [] := congrArg Control.clocks hc
  refine .of_not_live (by rw [hp]; nofun) ?_
  rw [hclocks]
  exact List.forall_mem_nil _

/-! ## Rest -/

/-- Nothing is left to be done: no run is pending, and a live one was not asked to stop. -/
structure Settled (e : Engine α) : Prop where
  phase : e.phase ≠ .pending
  live : e.phase = .live → e.stopRequested = false

omit [Quantity α] [Tracing] in
/-- An engine that has settled is running exactly if it has a live run. -/
theorem Settled.isRunning_iff {e : Engine α} (h : e.Settled) :
    e.isRunning = true ↔ e.phase = .live := by
  unfold isRunning
  constructor
  · intro hr
    have halive : e.phase.alive = true := (Bool.and_eq_true_iff.1 hr).1
    cases hp : e.phase with
    | live => rfl
    | pending => exact absurd hp h.phase
    | _ =>
        rw [hp] at halive
        cases halive
  · intro hl
    rw [h.live hl, hl]
    rfl

omit [Quantity α] [Tracing] in
theorem Settled.ended_eq {e : Engine α} (h : e.Settled) :
    e.ended = if e.isRunning then e.clocks.tail else e.clocks := by
  by_cases hl : e.phase = .live
  · rw [ended_of_live hl, if_pos (h.isRunning_iff.2 hl)]
  · rw [ended_of_not_live hl, if_neg (mt h.isRunning_iff.1 hl)]

omit [Quantity α] [Tracing] in
theorem phase_finish_ne_pending {e : Engine α} (hp : e.phase ≠ .pending) :
    e.finish.phase ≠ .pending ∧ e.finish.phase ≠ .live := by
  rw [show e.finish.phase = _ from congrArg Control.phase (control_finish e)]
  by_cases hl : e.phase = .live
  · rw [if_pos hl]
    exact ⟨nofun, nofun⟩
  · rw [if_neg hl]
    exact ⟨hp, hl⟩

/-- A run without ticks is live, or it ends at once. -/
theorem phase_begin_nil (e : Engine α) (later : List (List α)) :
    (e.begin [] later).phase ≠ .pending := by
  unfold begin
  cases ho : e.openClock later with
  | none => nofun
  | some f =>
      obtain ⟨period, -, hf⟩ := control_of_openClock ho
      have hp : f.phase ≠ .pending := by
        rw [show f.phase = .live from congrArg Control.phase hf]
        nofun
      show (f.rest f.generation).phase ≠ .pending
      rcases rest_cases f f.generation with hr | hr
      · rw [hr]
        exact (phase_finish_ne_pending hp).1
      · rw [hr]
        exact hp

theorem playPending_of_ne {e : Engine α} (hp : e.phase ≠ .pending) (runs : List (List α)) :
    playPending runs e = e := by
  cases runs with
  | nil => exact if_neg hp
  | cons times later => exact if_neg hp

theorem phase_playPending (runs : List (List α)) (e : Engine α) :
    (playPending runs e).phase ≠ .pending := by
  -- each list of times is for one run, and the runs after the last list have no ticks
  induction runs generalizing e with
  | nil =>
      unfold playPending
      by_cases hp : e.phase = .pending
      · rw [if_pos hp]
        exact phase_begin_nil e []
      · rw [if_neg hp]
        exact hp
  | cons times later ih =>
      unfold playPending
      by_cases hp : e.phase = .pending
      · rw [if_pos hp]
        exact ih (e.begin times later)
      · rw [if_neg hp]
        exact hp

theorem settled_settle (e : Engine α) : e.settle.Settled := by
  have hp := phase_playPending e.schedule e
  unfold settle
  dsimp only
  generalize playPending e.schedule e = played at hp ⊢
  by_cases hstop : played.phase = .live ∧ played.stopRequested = true
  · rw [if_pos hstop]
    have hf := phase_finish_ne_pending hp
    exact ⟨hf.1, fun hl => absurd hl hf.2⟩
  · rw [if_neg hstop]
    refine ⟨hp, fun hl => ?_⟩
    exact Bool.eq_false_iff.2 fun hs => hstop ⟨hl, hs⟩

theorem Settled.after {e : Engine α} (h : e.Settled) (history : List (Occurrence α)) :
    (e.after history).Settled := by
  induction history generalizing e with
  | nil => exact h
  | cons o rest ih => exact ih (settled_settle (e.occur o))

omit [Tracing] in
theorem settled_create {rate timerRate : α} {random : RandomSource} {policy : Policy}
    {schedule : List (List α)} {new : Engine α}
    (h : create rate timerRate random policy schedule = .ok new) : new.Settled := by
  have hp : new.phase = .absent := congrArg Control.phase (eq_of_create h).2
  refine ⟨by rw [hp]; nofun, fun hl => ?_⟩
  rw [hp] at hl
  cases hl

/-! ## The newest clock -/

/-- Whatever has happened to an engine, there is at most one clock that calls functions: the newest
one, if a run is under way, and it calls two. A run that has ended uses no more ticks, whatever
happens afterwards: the clocks of the runs that have ended are the oldest clocks of the engine that
is left, unchanged. -/
theorem one_scheduler {rate timerRate : α} {random : RandomSource} {policy : Policy}
    {schedule : List (List α)} {new : Engine α}
    (hc : create rate timerRate random policy schedule = .ok new)
    (history more : List (Occurrence α)) :
    let e := new.after history
    let ended := if e.isRunning then e.clocks.tail else e.clocks
    (∀ c ∈ ended, c.scheduled = 0) ∧
      (e.isRunning = true → ∃ c, e.clocks = c :: ended ∧ c.scheduled = 2) ∧
      ended <:+ (e.after more).clocks := by
  intro e ended
  have hsettled : e.Settled := (settled_create hc).after history
  have horderly : e.Orderly := (inherits_after new history (orderly_create hc)).1
  have hended : ended = e.ended := hsettled.ended_eq.symm
  rw [hended]
  refine ⟨horderly.ended, fun hr => ?_, ?_⟩
  · obtain ⟨c, hclocks, hcalls⟩ := horderly.live (hsettled.isRunning_iff.1 hr)
    exact ⟨c, hclocks, hcalls.1⟩
  · have hlater : (e.after more).ended <:+ (e.after more).clocks := by
      unfold Engine.ended
      by_cases hl : (e.after more).phase = .live
      · rw [if_pos hl]
        exact List.tail_suffix _
      · exact ⟨[], if_neg hl⟩
    exact (inherits_after e more horderly).2.trans hlater

end Runs

open Tracing.Off in
/-- A program that faults is restarted and faults again: two runs have ended after one tick each,
and the third one is under way. Then the engine is started anew and stopped. -/
theorem one_scheduler_restarts :
    ∃ new : Engine Number,
      create (.int 500) (.int 60) ⟨fun _ => 0, 0⟩ ⟨.restart [0x00, 0xEE], none, none⟩
        [[.real 1.0, .real 1.0], [.real 1.0]] = .ok new ∧
      let e := new.after
        [.command .emptyDirectory (.init [0x00, 0xEE]), .command .emptyDirectory .start]
      let later := e.after [.command .emptyDirectory .start, .command .emptyDirectory .stop]
      e.isRunning = true ∧ e.clocks.map Clock.scheduled = [2, 0, 0] ∧
        e.clocks.map Clock.ticks = [0, 1, 1] ∧
        e.clocks.tail <:+ later.clocks ∧ later.clocks.map Clock.scheduled = [0, 0, 0, 0] := by
  refine ⟨_, rfl, ?_⟩
  intro e later
  have hnew : create (.int 500 : Number) (.int 60) ⟨fun _ => 0, 0⟩
    ⟨.restart [0x00, 0xEE], none, none⟩ [[.real 1.0, .real 1.0], [.real 1.0]] = .ok _ := rfl
  have hrunning : e.isRunning = true := by decide +kernel
  obtain ⟨-, -, hsuffix⟩ := one_scheduler hnew
    [.command .emptyDirectory (.init [0x00, 0xEE]), .command .emptyDirectory .start]
    [.command .emptyDirectory .start, .command .emptyDirectory .stop]
  refine ⟨hrunning, by decide +kernel, by decide +kernel, ?_, by decide +kernel⟩
  rw [if_pos hrunning] at hsuffix
  exact hsuffix

end Chip8.Engine
