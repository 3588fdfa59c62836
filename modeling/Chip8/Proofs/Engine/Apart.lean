import Chip8.Proofs.Engine.Foreground
import Chip8.Proofs.Machine.Trace

/-!
# Engines with and without a trace

An engine takes no notice of what it has noted, and so it makes no difference to it whether there is
a trace. Two engines are `Alike` if they differ in their notes only. Whatever is done to both of
them, they stay alike, and both give the same answer. This holds of every operation, also if fetches
are noted by one of the engines and not by the other: the operations of the machine that are told
apart by the trace leave the same machine (`Machine.perform_apart`), and what they have noted is
taken over with no effect on anything else (`Engine.Alike.absorb`). `Engine.Alike.perform` and
`Engine.Alike.settle` put the operations together. So what becomes of an engine does not depend on
whether there is a trace, nor on where in its history that changes (`Engine.alike_afterSwitched`).
-/

set_option autoImplicit false

namespace Chip8

namespace Engine

variable {α : Type}

/-- The engine with nothing in its trail but what is heard. -/
def hushed (e : Engine α) : Engine α :=
  { e with trail := e.trail.filter Signal.isHeard }

/-- Two engines differ in what they have noted, and in nothing else. -/
structure Alike (e f : Engine α) : Prop where
  hushed : e.hushed = f.hushed

/-- Two engines are left alike, with the same answer. -/
structure AnswerAlike {β : Type} (p q : Engine α × β) : Prop where
  engine : p.1.Alike q.1
  answer : p.2 = q.2

/-- Two calls for instructions end in the same way, with engines that are alike. -/
structure RanAlike (ran other : Ran α) : Prop where
  engine : ran.engine.Alike other.engine
  executed : ran.executed = other.executed
  result : ran.result = other.result

theorem AnswerAlike.map {β γ : Type} {p q : Engine α × Except Refusal β} (h : AnswerAlike p q)
    (reply : β → γ) : AnswerAlike (p.1, p.2.map reply) (q.1, q.2.map reply) :=
  ⟨h.engine, congrArg (Except.map reply) h.answer⟩

/-- What comes of an answer need only be looked at for engines that are alike. -/
@[elab_as_elim]
theorem AnswerAlike.elim {ε β : Type}
    {motive : Engine α × Except ε β → Engine α × Except ε β → Prop}
    {p q : Engine α × Except ε β} (h : AnswerAlike p q)
    (error : ∀ e f, e.Alike f → ∀ reason, motive (e, .error reason) (f, .error reason))
    (ok : ∀ e f, e.Alike f → ∀ answer, motive (e, .ok answer) (f, .ok answer)) : motive p q := by
  obtain ⟨e, result⟩ := p
  obtain ⟨f, _⟩ := q
  obtain ⟨halike, rfl⟩ := h
  cases result with
  | error reason => exact error e f halike reason
  | ok answer => exact ok e f halike answer

namespace Alike

variable {e f : Engine α}

theorem refl (e : Engine α) : e.Alike e := ⟨rfl⟩

/-- To change something else keeps engines alike. -/
theorem update (h : e.Alike f) (change : Engine α → Engine α)
    (hc : ∀ e, (change e).hushed = change e.hushed) : (change e).Alike (change f) :=
  ⟨(hc e).trans ((congrArg change h.hushed).trans (hc f).symm)⟩

/-- What can be told of an engine without a look at its notes is told of both. -/
theorem seen (h : e.Alike f) {β : Type} (look : Engine α → β)
    (hl : ∀ e, look e.hushed = look e) : look e = look f :=
  (hl e).symm.trans ((congrArg look h.hushed).trans (hl f))

theorem machine (h : e.Alike f) : e.machine = f.machine :=
  h.seen (·.machine) fun _ => rfl

theorem phase (h : e.Alike f) : e.phase = f.phase :=
  h.seen (·.phase) fun _ => rfl

theorem policy (h : e.Alike f) : e.policy = f.policy :=
  h.seen (·.policy) fun _ => rfl

theorem generation (h : e.Alike f) : e.generation = f.generation :=
  h.seen (·.generation) fun _ => rfl

theorem stopped (h : e.Alike f) (id : Nat) : e.stopped id = f.stopped id :=
  h.seen (·.stopped id) fun _ => rfl

/-! ## Signals -/

/-- Notes make no difference, be they the same or not. -/
theorem noteAll (h : e.Alike f) (entries others : List Entry) :
    (e.noteAll entries).Alike (f.noteAll others) := by
  have hnoted (e : Engine α) (entries : List Entry) : (e.noteAll entries).hushed = e.hushed := by
    induction entries generalizing e with
    | nil => rfl
    | cons entry rest ih => exact ih (e.note entry)
  exact ⟨(hnoted e entries).trans (h.hushed.trans (hnoted f others).symm)⟩

theorem note (h : e.Alike f) (entry other : Entry) : (e.note entry).Alike (f.note other) :=
  h.noteAll [entry] [other]

theorem signal (h : e.Alike f) {s : Signal} (hs : s.isHeard = true) :
    (e.signal s).Alike (f.signal s) := by
  refine h.update (·.signal s) fun e => ?_
  rw [Engine.hushed, Engine.signal, List.filter_cons, if_pos hs]
  rfl

theorem setSound (h : e.Alike f) (on : Bool) : (e.setSound on).Alike (f.setSound on) := by
  have hsound : e.soundOn = f.soundOn := h.seen (·.soundOn) fun _ => rfl
  unfold Engine.setSound
  by_cases hon : on = f.soundOn
  · rw [if_pos (hon.trans hsound.symm), if_pos hon]
    exact h
  · rw [if_neg (hsound ▸ hon), if_neg hon]
    have hset := h.update (fun e => { e with soundOn := on }) fun _ => rfl
    exact (hset.note _ _).signal rfl

/-! ## Control -/

theorem finish (h : e.Alike f) : e.finish.Alike f.finish := by
  have hclocks : e.clocks = f.clocks := h.seen (·.clocks) fun _ => rfl
  have hended (clocks : List (Clock α)) (phase : Phase) :=
    (h.update (fun e => { e with clocks, phase }) fun _ => rfl).setSound false
  unfold Engine.finish
  rw [hclocks, h.phase]
  exact hended _ _

theorem stop (h : e.Alike f) (caller : Caller) : (e.stop caller).Alike (f.stop caller) := by
  have hasked := h.update (fun e => { e with stopRequested := true }) fun _ => rfl
  unfold Engine.stop
  by_cases ha : f.phase = .absent
  · rw [if_pos (h.phase.trans ha), if_pos ha]
    exact hasked
  · rw [if_neg (h.phase ▸ ha), if_neg ha]
    cases caller with
    | run => exact hasked.note _ _
    | outside =>
        dsimp only
        by_cases hl : f.phase = .live
        · rw [if_pos (h.phase.trans hl), if_pos hl]
          exact (hasked.finish.update (fun e => { e with phase := .absent }) fun _ => rfl).note _ _
        · rw [if_neg (h.phase ▸ hl), if_neg hl]
          exact (hasked.update (fun e => { e with phase := .absent }) fun _ => rfl).note _ _

theorem destroy (h : e.Alike f) : e.destroy.Alike f.destroy :=
  (h.stop .outside).update (fun e => { e with machine := none }) fun _ => rfl

theorem countTick (h : e.Alike f) : e.countTick.Alike f.countTick := by
  refine h.update Engine.countTick fun e => ?_
  have hclocks : e.hushed.clocks = e.clocks := rfl
  unfold Engine.countTick
  rw [hclocks]
  cases e.clocks <;> rfl

section Runs

variable [Quantity α]

/-- Clocks are made by both engines, or by none. -/
theorem openClock (h : e.Alike f) (later : List (List α)) :
    e.openClock later = none ∧ f.openClock later = none ∨
      ∃ e' f', e.openClock later = some e' ∧ f.openClock later = some f' ∧ e'.Alike f' := by
  have hperiod : Quantity.div (Quantity.one : α) e.timerRate =
      Quantity.div Quantity.one f.timerRate :=
    h.seen (fun e => Quantity.div Quantity.one e.timerRate) fun _ => rfl
  unfold Engine.openClock
  rw [hperiod]
  cases Quantity.div (Quantity.one : α) f.timerRate with
  | error reason => exact Or.inl ⟨rfl, rfl⟩
  | ok period =>
      refine Or.inr ⟨_, _, rfl, rfl, ?_⟩
      have hopened := h.update (fun e => { e with
        phase := .live
        schedule := later
        clocks := ⟨period, 0, clockFunctions⟩ :: e.clocks }) fun _ => rfl
      exact hopened

theorem rest (h : e.Alike f) (id : Nat) : (e.rest id).Alike (f.rest id) := by
  have hwait : e.canWait = f.canWait := h.seen (·.canWait) fun _ => rfl
  unfold Engine.rest
  rw [h.stopped id, hwait]
  split
  · exact h.finish
  · exact h

theorem enter (h : e.Alike f) : e.enter.Alike f.enter := by
  have hidle : e.afterIdle = f.afterIdle := h.seen (·.afterIdle) fun _ => rfl
  unfold Engine.enter
  rw [hidle]
  cases f.afterIdle with
  | none => exact h
  | some later =>
      dsimp only
      rcases h.openClock later with ⟨he, hf⟩ | ⟨e', f', he, hf, h'⟩
      · rw [he, hf]
        exact h.update (fun e => { e with phase := .over }) fun _ => rfl
      · rw [he, hf]
        show (e'.rest e'.generation).Alike (f'.rest f'.generation)
        rw [h'.generation]
        exact h'.rest f'.generation

theorem start (h : e.Alike f) (caller : Caller) : (e.start caller).Alike (f.start caller) := by
  cases caller with
  | run =>
      have hrun := h.update (fun e => { e with
        stopRequested := false
        budget := Quantity.zero
        phase := .pending
        generation := e.generation + 1 }) fun _ => rfl
      exact hrun.noteAll _ _
  | outside =>
      have hrenewed : e.renewed.Alike f.renewed := by
        rw [renewed_eq, renewed_eq, h.generation]
        exact (h.stop .outside).update (fun g => { g with
          stopRequested := false
          budget := Quantity.zero
          phase := .pending
          generation := f.generation + 1 }) fun _ => rfl
      rw [start_outside, start_outside]
      exact hrenewed.enter.noteAll _ _

end Runs

/-! ## Programs -/

theorem init (h : e.Alike f) (program : List Int) :
    AnswerAlike (e.init program) (f.init program) := by
  unfold Engine.init
  rw [h.machine]
  cases f.machine with
  | none => exact ⟨h, rfl⟩
  | some m =>
      dsimp only
      cases m.init program with
      | error reason => exact ⟨h, rfl⟩
      | ok m' =>
          have hloaded := h.update (fun e => { e with machine := some m', fault := none })
            fun _ => rfl
          exact ⟨hloaded.noteAll _ _, rfl⟩

theorem readProgram (h : e.Alike f) (tree : Node) (path : String) :
    AnswerAlike (e.readProgram tree path) (f.readProgram tree path) :=
  ⟨h.noteAll _ _, rfl⟩

theorem loadFile (h : e.Alike f) (tree : Node) (path : String) :
    AnswerAlike (e.loadFile tree path) (f.loadFile tree path) := by
  unfold Engine.loadFile
  refine (h.readProgram tree path).elim (fun e f h reason => ?_) fun e f h program => ?_
  · exact ⟨h, rfl⟩
  · exact h.init (Byte.values program)

section Programs

variable [Quantity α]

theorem reset (h : e.Alike f) : AnswerAlike e.reset f.reset := by
  unfold Engine.reset
  rw [h.machine]
  cases f.machine with
  | none => exact ⟨h, rfl⟩
  | some m =>
      have hreset := h.update (fun e => { e with
        machine := some m.reset, budget := Quantity.zero, fault := none }) fun _ => rfl
      exact ⟨hreset.setSound false, rfl⟩

theorem runFile (h : e.Alike f) (tree : Node) (path : String) :
    AnswerAlike (e.runFile tree path) (f.runFile tree path) := by
  unfold Engine.runFile
  refine (h.readProgram tree path).elim (fun e f h reason => ⟨h, rfl⟩) fun e f h program => ?_
  have hwiped : AnswerAlike (if e.isRunning then (e.stop .outside).reset else (e, .ok ()))
      (if f.isRunning then (f.stop .outside).reset else (f, .ok ())) := by
    rw [h.seen (·.isRunning) fun _ => rfl]
    split
    · exact (h.stop .outside).reset
    · exact ⟨h, rfl⟩
  dsimp only
  refine hwiped.elim (fun e f h reason => ⟨h, rfl⟩) fun e f h _ => ?_
  dsimp only
  exact (h.init (Byte.values program)).elim (fun e f h reason => ⟨h, rfl⟩) fun e f h _ =>
    ⟨h.start .outside, rfl⟩

end Programs

/-! ## Driving the machine -/

/-- The same machine is taken over, with whatever notes. -/
theorem absorb (h : e.Alike f) (caller : Caller) (before after : Machine)
    (entries others : List Entry) :
    (e.absorb caller before after entries).Alike (f.absorb caller before after others) := by
  have htaken : (e.taken after entries).Alike (f.taken after others) :=
    (h.update (fun e => { e with machine := some after }) fun _ => rfl).noteAll entries others
  by_cases hs : f.policy.Stops before after
  · rw [absorb_of_stops caller entries (h.policy ▸ hs), absorb_of_stops caller others hs]
    exact htaken.stop caller
  · rw [absorb_of_not_stops caller entries (h.policy ▸ hs), absorb_of_not_stops caller others hs]
    exact htaken

/-- An operation does the same and has the same result, whether fetches are noted or not. -/
theorem operate (h : e.Alike f) (t u : Tracing) (caller : Caller) (o : Operation) :
    AnswerAlike (@Engine.operate α t e caller o) (@Engine.operate α u f caller o) := by
  cases hm : f.machine with
  | none =>
      unfold Engine.operate
      rw [h.machine, hm]
      cases o with
      | execute w =>
          dsimp only [executeWithout]
          rcases Instruction.decode? w with _ | i
          · exact ⟨h, rfl⟩
          · cases i with
            | sys target => exact ⟨h.note _ _, rfl⟩
            | _ => exact ⟨h, rfl⟩
      | _ => exact ⟨h, rfl⟩
  | some m =>
      obtain ⟨hmachine, hresult⟩ := m.perform_apart t u o
      rw [@operate_of_machine α t e m (h.machine.trans hm), @operate_of_machine α u f m hm,
        hmachine, hresult]
      exact ⟨h.absorb caller m _ _ _, rfl⟩

theorem tickTimers (h : e.Alike f) (caller : Caller) :
    AnswerAlike (e.tickTimers caller) (f.tickTimers caller) := by
  cases hm : f.machine with
  | none =>
      rw [tickTimers_of_noMachine (h.machine.trans hm), tickTimers_of_noMachine hm]
      exact ⟨h, rfl⟩
  | some m =>
      have hsounded := (h.update (fun e => { e with machine := some m.tick }) fun _ => rfl).setSound
        m.tick.buzzing
      have hrefreshed : (e.refreshed m).Alike (f.refreshed m) :=
        (hsounded.update (fun e => { e with refreshes := e.refreshes + 1 }) fun _ => rfl).signal rfl
      rw [tickTimers_of_machine (h.machine.trans hm), tickTimers_of_machine hm, hrefreshed.policy,
        hrefreshed.seen (·.refreshes) fun _ => rfl]
      split
      · exact ⟨hrefreshed.stop caller, rfl⟩
      · exact ⟨hrefreshed, rfl⟩

variable [Quantity α]

theorem answerFault (h : e.Alike f) (caller : Caller) :
    AnswerAlike (e.answerFault caller) (f.answerFault caller) := by
  unfold Engine.answerFault
  rw [h.policy]
  cases f.policy.onFault with
  | ignore => exact ⟨h, rfl⟩
  | stop => exact ⟨h.stop caller, rfl⟩
  | restart program =>
      dsimp only
      refine h.reset.elim (fun e f h reason => ⟨h, rfl⟩) fun e f h _ => ?_
      dsimp only
      exact (h.init program).elim (fun e f h reason => ⟨h, rfl⟩) fun e f h _ =>
        ⟨h.start caller, rfl⟩

theorem fail (h : e.Alike f) (caller : Caller) (m : Machine) (reason : Fault) :
    AnswerAlike (e.fail caller m reason) (f.fail caller m reason) := by
  have hkept := (h.update (fun e => { e with fault := some reason }) fun _ => rfl).note
    (.faulted reason m.dump) (.faulted reason m.dump)
  have hasked := hkept.update (fun e => { e with stopRequested := true }) fun _ => rfl
  exact (hasked.signal (s := .fault reason) rfl).answerFault caller

/-! ## Runs of instructions -/

/-- A call for instructions goes the same way, step by step. -/
theorem runSteps (h : e.Alike f) (t u : Tracing) (caller : Caller) (count executed : Nat) :
    RanAlike (@Engine.runSteps α _ t caller count e executed)
      (@Engine.runSteps α _ u caller count f executed) := by
  induction count generalizing e f executed with
  | zero => exact ⟨h, rfl, rfl⟩
  | succ count ih =>
      have hstopping : e.stopping = f.stopping := h.seen (·.stopping) fun _ => rfl
      unfold Engine.runSteps
      rw [hstopping, h.machine]
      by_cases hs : f.stopping = true
      · rw [if_pos hs, if_pos hs]
        exact ⟨h, rfl, rfl⟩
      · rw [if_neg hs, if_neg hs]
        cases f.machine with
        | none => exact ⟨h, rfl, rfl⟩
        | some m =>
            -- one step leaves the same machine, and has the same result
            obtain ⟨hmachine, hresult⟩ := m.step_apart t u
            have hstepped := h.absorb caller m (@Machine.step u m).machine
              (@Machine.step t m).entries (@Machine.step u m).entries
            dsimp only
            rw [hmachine, hresult]
            rcases (@Machine.step u m).result with (reason | reason) | _ | w
            · have hfailed := hstepped.fail caller (@Machine.step u m).machine reason
              exact ⟨hfailed.engine, rfl, hfailed.answer⟩
            · exact ⟨hstepped, rfl, rfl⟩
            · exact ⟨hstepped, rfl, rfl⟩
            · exact ih hstepped (executed + 1)

theorem runCycles (h : e.Alike f) (t u : Tracing) (caller : Caller) (count : Int) :
    AnswerAlike (@Engine.runCycles α _ t e caller count)
      (@Engine.runCycles α _ u f caller count) := by
  have hran := h.runSteps t u caller count.toNat 0
  unfold Engine.runCycles
  rw [h.machine]
  cases f.machine with
  | none => exact ⟨h, rfl⟩
  | some m =>
      obtain ⟨hengine, hexecuted, hresult⟩ := hran
      dsimp only
      rw [hresult, hexecuted]
      cases (@Engine.runSteps α _ u caller count.toNat f 0).result with
      | error reason => exact ⟨hengine, rfl⟩
      | ok done =>
          have hcounted := hengine.update (fun e => { e with
            cycles := e.cycles + (@Engine.runSteps α _ u caller count.toNat f 0).executed })
            fun _ => rfl
          have hbuzzing := congrArg (Option.any Machine.buzzing) hengine.machine
          refine ⟨?_, rfl⟩
          dsimp only
          rw [hbuzzing]
          exact hcounted.setSound _

theorem cpuTick (h : e.Alike f) (t u : Tracing) (caller : Caller) (dt : α) :
    AnswerAlike (@Engine.cpuTick α _ t e caller dt) (@Engine.cpuTick α _ u f caller dt) := by
  have hslice : Pace.slice e.rate e.timerRate e.budget dt =
      Pace.slice f.rate f.timerRate f.budget dt :=
    h.seen (fun e => Pace.slice e.rate e.timerRate e.budget dt) fun _ => rfl
  unfold Engine.cpuTick
  rw [hslice]
  obtain ⟨budget, due⟩ := Pace.slice f.rate f.timerRate f.budget dt
  have hpaid := h.update (fun e => { e with budget }) fun _ => rfl
  cases due with
  | error reason => exact ⟨hpaid, rfl⟩
  | ok count =>
      dsimp only
      refine (hpaid.runCycles t u caller count).elim (fun e f h reason => ⟨h, rfl⟩)
        fun e f h executed => ⟨?_, rfl⟩
      dsimp only
      split
      · exact h.update (fun e => { e with budget := Quantity.zero }) fun _ => rfl
      · exact h

/-! ## Runs -/

omit [Quantity α] in
theorem guarded (h : e.Alike f) (id : Nat) {act other : Engine α → Engine α × Except Refusal Unit}
    (ha : AnswerAlike (act e) (other f)) : AnswerAlike (e.guarded id act) (f.guarded id other) := by
  unfold Engine.guarded
  rw [h.stopped id]
  split
  · exact ⟨h, rfl⟩
  · exact ha

theorem tick (h : e.Alike f) (t u : Tracing) (id : Nat) (dt : α) :
    AnswerAlike (@Engine.tick α _ t id e dt) (@Engine.tick α _ u id f dt) := by
  unfold Engine.tick
  refine (h.countTick.guarded id (h.countTick.tickTimers .run)).elim
    (fun e f h reason => ⟨h, rfl⟩) fun e f h _ => ?_
  exact h.guarded id (h.cpuTick t u .run dt)

/-- A run makes its ticks in the same way, until it ends. -/
theorem play (h : e.Alike f) (t u : Tracing) (id : Nat) (times : List α) :
    (@Engine.play α _ t id times e).Alike (@Engine.play α _ u id times f) := by
  induction times generalizing e f with
  | nil => exact h.rest id
  | cons dt rest ih =>
      unfold Engine.play
      rw [h.stopped id]
      split
      · exact h.finish
      · exact (h.tick t u id dt).elim (fun e f h reason => h.finish) fun e f h _ => ih h

theorem advance (h : e.Alike f) (t u : Tracing) (dt : α) :
    (@Engine.advance α _ t e dt).Alike (@Engine.advance α _ u f dt) := by
  unfold Engine.advance
  rw [h.phase, h.generation]
  split
  · exact h.play t u _ _
  · exact h

theorem begin (h : e.Alike f) (t u : Tracing) (times : List α) (later : List (List α)) :
    (@Engine.begin α _ t e times later).Alike (@Engine.begin α _ u f times later) := by
  unfold Engine.begin
  rcases h.openClock later with ⟨he, hf⟩ | ⟨e', f', he, hf, h'⟩
  · rw [he, hf]
    exact h.update (fun e => { e with phase := .over }) fun _ => rfl
  · rw [he, hf]
    dsimp only
    rw [h'.generation]
    exact h'.play t u _ times

theorem playPending (h : e.Alike f) (t u : Tracing) (schedule : List (List α)) :
    (@Engine.playPending α _ t schedule e).Alike (@Engine.playPending α _ u schedule f) := by
  induction schedule generalizing e f with
  | nil =>
      unfold Engine.playPending
      rw [h.phase]
      split
      · exact h.begin t u [] []
      · exact h
  | cons times later ih =>
      unfold Engine.playPending
      rw [h.phase]
      split
      · exact ih (h.begin t u times later)
      · exact h

/-- What is left pending is played in the same way. -/
theorem settle (h : e.Alike f) (t u : Tracing) :
    (@Engine.settle α _ t e).Alike (@Engine.settle α _ u f) := by
  have hschedule : e.schedule = f.schedule := h.seen (·.schedule) fun _ => rfl
  have hplayed := h.playPending t u f.schedule
  have hstop : (@Engine.playPending α _ t f.schedule e).stopRequested =
      (@Engine.playPending α _ u f.schedule f).stopRequested :=
    hplayed.seen (·.stopRequested) fun _ => rfl
  unfold Engine.settle
  rw [hschedule]
  dsimp only
  rw [hplayed.phase, hstop]
  split
  · exact hplayed.finish
  · exact hplayed

/-! ## Commands -/

/-- A command does the same and has the same answer, whether fetches are noted or not. -/
theorem perform (h : e.Alike f) (t u : Tracing) (files : Node) (c : Command α) :
    AnswerAlike (@Engine.perform α _ t e files c) (@Engine.perform α _ u f files c) := by
  cases c with
  | init program => exact (h.init program).map _
  | reset => exact h.reset.map _
  | loadFile path => exact (h.loadFile files path).map _
  | runFile path => exact (h.runFile files path).map _
  | start => exact ⟨h.start .outside, rfl⟩
  | stop => exact ⟨h.stop .outside, rfl⟩
  | destroy => exact ⟨h.destroy, rfl⟩
  | tickTimers => exact (h.tickTimers .outside).map _
  | runCycles count =>
      dsimp only [Engine.perform]
      exact (h.runCycles t u .outside count).elim (fun e f h reason => ⟨h, rfl⟩)
        fun e f h executed => ⟨h, rfl⟩
  | cpuTick dt => exact (h.cpuTick t u .outside dt).map _
  | operate o => exact h.operate t u .outside o

/-- Whatever happens to two engines that are alike, they stay alike. -/
theorem next (h : e.Alike f) (t u : Tracing) (o : Occurrence α) :
    (@Engine.next α _ t e o).Alike (@Engine.next α _ u f o) := by
  cases o with
  | command files c => exact (h.perform t u files c).engine.settle t u
  | tick dt => exact (h.advance t u dt).settle t u

end Alike

variable [Quantity α]

/-- The engine after a history in which each occurrence comes with whether fetches are noted. -/
def afterSwitched (e : Engine α) : List (Bool × Occurrence α) → Engine α
  | [] => e
  | (on, o) :: rest =>
    letI : Tracing := ⟨on⟩
    (e.next o).afterSwitched rest

/-- What becomes of an engine is the same, its notes apart, wherever there is a trace in its
history. -/
theorem alike_afterSwitched [Tracing] (e : Engine α) (history : List (Bool × Occurrence α)) :
    (e.afterSwitched history).Alike (e.after (history.map Prod.snd)) := by
  suffices h : ∀ f : Engine α, e.Alike f →
      (e.afterSwitched history).Alike (f.after (history.map Prod.snd)) from h e (.refl e)
  induction history generalizing e with
  | nil => exact fun f h => h
  | cons first rest ih =>
      obtain ⟨on, o⟩ := first
      exact fun f h => ih _ _ (h.next ⟨on⟩ inferInstance o)

end Engine

end Chip8
