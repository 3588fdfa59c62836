import Chip8.Number.Basic
import Chip8.Proofs.Engine.Deeds
import Chip8.Proofs.Machine.Random

/-!
# Stopped runs

A run that has to stop does nothing any more, whatever is done to the engine. Three facts give
this. A run does something only while it need not stop (`Deed.ByRunning`). A stop is never taken
back, and neither is the start of a newer run (`Engine.Halted.later`). And within a deed the run
looks before every step (`Deed.Heeds`), so that only the step in progress comes after the stop:
it is the fault that has brought the stop, or an instruction that is completed and counted.
-/

set_option autoImplicit false

namespace Chip8

namespace Engine

variable {α : Type}

/-! ## A stop is never taken back -/

/-- The run `id` has been started, and it has to stop. -/
structure Halted (id : Nat) (e : Engine α) : Prop where
  started : id ≤ e.generation
  stopped : e.stopped id = true

theorem Halted.later {id : Nat} {e f : Engine α} (h : e.Halted id) (hf : e.Later f) :
    f.Halted id where
  started := Nat.le_trans h.started hf.generation
  stopped := by
    have hstarted := h.started
    have hgeneration := hf.generation
    by_cases hnew : f.generation = id
    · -- no run has been started since, and this one was asked to stop
      have hsame : e.generation = id := by omega
      have hasked : e.stopRequested = true := by
        rw [← stopped_generation e, hsame]
        exact h.stopped
      rw [← hnew, stopped_generation]
      exact hf.stopRequested (hnew.trans hsame.symm) hasked
    · rw [Engine.stopped, bne_iff_ne.2 hnew, Bool.true_or]

variable [Tracing]

/-- A run that has to stop does nothing more. -/
theorem Led.silent [Quantity α] {odd : Prop} {e f : Engine α} {deeds : List (Deed α)}
    (h : Led odd e deeds f) {id : Nat} (he : e.Halted id) : ∀ d ∈ deeds, d.run ≠ some id := by
  intro d hd hrun
  -- a deed of the run would find an engine in which the run need not stop, but it has to
  obtain ⟨pre, post, rfl⟩ := List.append_of_mem hd
  obtain ⟨hpre, hby, -⟩ := h.split rfl
  obtain ⟨hgeneration, -, hasked⟩ := hby id hrun
  have hhalted := (he.later hpre.later).stopped
  rw [← hgeneration, stopped_generation, hasked] at hhalted
  cases hhalted

/-! ## The steps of a call -/

omit [Tracing] in
/-- From within a run, what an operation has left of the machine is taken over. If a random byte was
drawn, then that may have brought a stop with it. -/
theorem control_absorb_run (e : Engine α) (before after : Machine) (entries : List Entry) :
    ∃ asked, (e.absorb .run before after entries).control =
        { e.control with stopRequested := e.stopRequested || asked } ∧
      (after.random = before.random → asked = false) := by
  by_cases h : e.policy.Stops before after
  · rw [absorb_of_stops .run entries h]
    refine ⟨true, ?_, fun hrandom => ?_⟩
    · rw [control_stop_run, control_taken, Bool.or_true]
    · exact absurd h.drawn (by rw [hrandom]; exact Nat.lt_irrefl _)
  · rw [absorb_of_not_stops .run entries h]
    refine ⟨false, ?_, fun _ => rfl⟩
    rw [control_taken, Bool.or_false]
    rfl

/-- A call that need not stop takes a step, and goes on if it has completed an instruction. -/
theorem steps_of_machine {e : Engine α} {m : Machine} (hm : e.machine = some m)
    (hready : ¬ e.stopping = true) (caller : Caller) (count : Nat) :
    e.steps caller (count + 1) =
      match m.step.result with
      | .ok (some _) =>
        m.step :: (e.absorb caller m m.step.machine m.step.entries).steps caller count
      | .ok none | .error _ => [m.step] := by
  rcases hresult : m.step.result with reason | _ | w
  · simp only [steps, if_neg hready, hm, hresult]
  · simp only [steps, if_neg hready, hm, hresult]
  · simp only [steps, if_neg hready, hm, hresult]

/-- A call takes a step only if it need not stop. -/
theorem ready_of_steps {e : Engine α} {caller : Caller} {count : Nat} {s : Step}
    (hs : s ∈ e.steps caller count) :
    ∃ m more, e.machine = some m ∧ count = more + 1 ∧ ¬ e.stopping = true := by
  obtain ⟨m, hm⟩ := Option.ne_none_iff_exists'.1 (machine_of_mem_steps hs)
  cases count with
  | zero => cases hs
  | succ more =>
      refine ⟨m, more, hm, rfl, fun hstop => ?_⟩
      rw [steps, if_pos hstop] at hs
      cases hs

variable [Quantity α]

/-- What a call does does not depend on the number of instructions that ran before it. -/
theorem engine_runSteps (caller : Caller) (count : Nat) (e : Engine α) (executed : Nat) :
    (runSteps caller count e executed).engine = (runSteps caller count e 0).engine := by
  induction count generalizing e executed with
  | zero => rfl
  | succ count ih =>
      unfold runSteps
      by_cases hstop : e.stopping = true
      · rw [if_pos hstop, if_pos hstop]
      · rw [if_neg hstop, if_neg hstop]
        cases e.machine with
        | none => rfl
        | some m =>
            dsimp only
            cases m.step.result with
            | error reason =>
                cases reason with
                | fault reason => rfl
                | misfit reason => rfl
            | ok found =>
                cases found with
                | none => rfl
                | some w => exact (ih _ (executed + 1)).trans (ih _ (0 + 1)).symm

/-- What a call leaves after its first step, and then after the others. -/
theorem engine_runSteps_of_machine {e : Engine α} {m : Machine} (hm : e.machine = some m)
    (hready : ¬ e.stopping = true) (caller : Caller) (count : Nat) :
    (runSteps caller (count + 1) e 0).engine =
      match m.step.result with
      | .ok (some _) =>
        (runSteps caller count (e.absorb caller m m.step.machine m.step.entries) 0).engine
      | .error (.fault reason) =>
        ((e.absorb caller m m.step.machine m.step.entries).fail caller m.step.machine reason).1
      | .ok none | .error (.misfit _) => e.absorb caller m m.step.machine m.step.entries := by
  rw [runSteps, if_neg hready, hm]
  dsimp only
  rcases m.step.result with (reason | reason) | _ | w
  · rfl
  · rfl
  · rfl
  · exact engine_runSteps caller count _ 1

/-- Between the steps of a call the engine's machine has been worked on, and what follows is the
call for the remaining instructions. -/
theorem drop_steps {caller : Caller} {count i : Nat} {e : Engine α} {s : Step}
    (hs : (e.steps caller count)[i]? = some s) :
    let f := (runSteps caller i e 0).engine
    e.Worked f ∧ (e.steps caller count).drop i = f.steps caller (count - i) ∧
      (runSteps caller (i + 1) e 0).engine = (runSteps caller 1 f 0).engine := by
  induction i generalizing count e with
  | zero => exact ⟨.refl e, rfl, rfl⟩
  | succ i ih =>
      obtain ⟨m, more, hm, rfl, hready⟩ := ready_of_steps (List.mem_of_getElem? hs)
      have hworked := (worked_absorb e caller m m.step.machine m.step.entries).1
      have hsteps := steps_of_machine hm hready caller more
      have hengine := engine_runSteps_of_machine hm hready caller
      generalize e.absorb caller m m.step.machine m.step.entries = f at hworked hsteps hengine
      rcases hresult : m.step.result with reason | _ | w
      -- the first step has completed an instruction, since it is not the last one
      · rw [hsteps, hresult] at hs
        cases hs
      · rw [hsteps, hresult] at hs
        cases hs
      · rw [hresult] at hsteps hengine
        rw [hsteps] at hs ⊢
        obtain ⟨hf, hdrop, hnext⟩ := ih hs
        rw [hengine i, hengine (i + 1), Nat.add_sub_add_right]
        exact ⟨hworked.trans hf, hdrop, hnext⟩

/-- If a step that a live run takes brings a stop, then it is the last one: it has met a fault, or
it has completed an instruction. -/
theorem last_of_stopped {e : Engine α} {count : Nat} {s : Step} {rest : List Step}
    (hs : e.steps .run count = s :: rest) (hlive : e.phase = .live)
    (hasked : e.stopRequested = false)
    (hstop : (runSteps .run 1 e 0).engine.stopped e.generation = true) :
    rest = [] ∧ ((∃ reason, s.result = .error (.fault reason)) ∨ s.Completed) := by
  have hmem : s ∈ e.steps .run count := hs ▸ List.mem_cons_self
  obtain ⟨m, more, hm, rfl, hready⟩ := ready_of_steps hmem
  have hsteps := steps_of_machine hm hready .run more
  have hengine := engine_runSteps_of_machine hm hready .run 0
  obtain ⟨asked, hcontrol, hdrawn⟩ := control_absorb_run e m m.step.machine m.step.entries
  generalize e.absorb .run m m.step.machine m.step.entries = f at hsteps hengine hcontrol
  have hphase : f.phase = .live := (congrArg Control.phase hcontrol).trans hlive
  have hasks : f.stopRequested = asked := by
    refine (congrArg Control.stopRequested hcontrol).trans ?_
    rw [hasked, Bool.false_or]
  have hstopped : f.stopped e.generation = asked := by
    have hg : f.generation = e.generation := congrArg Control.generation hcontrol
    rw [← hg, stopped_generation, hasks]
  -- a step that has completed nothing has drawn no random byte, and so it has not brought the stop
  have hquiet : (∀ w, m.step.result ≠ .ok (some w)) → f.stopped e.generation = false := by
    intro hnone
    rw [hstopped]
    exact hdrawn (Machine.random_step_of_not_completed hnone)
  rw [hengine] at hstop
  rw [hs] at hsteps
  rcases hresult : m.step.result with (reason | reason) | _ | w
  · rw [hresult] at hsteps
    cases hsteps
    exact ⟨rfl, Or.inl ⟨reason, hresult⟩⟩
  · rw [hresult] at hstop hquiet
    cases (hquiet nofun).symm.trans hstop
  · rw [hresult] at hstop hquiet
    cases (hquiet nofun).symm.trans hstop
  · rw [hresult] at hsteps hstop
    obtain ⟨rfl, hrest⟩ := List.cons.inj hsteps
    refine ⟨?_, Or.inr ⟨w, hresult⟩⟩
    -- the call looks for the stop before it takes another step
    have hstopping : f.stopping = true := by
      rw [stopping, hphase, hasks, ← hstopped]
      exact hstop
    rw [hrest]
    cases more with
    | zero => rfl
    | succ more => rw [steps, if_pos hstopping]

end Engine

/-! ## The steps of a deed -/

namespace Deed

variable {α : Type} [Quantity α] [Tracing]

/-- The engine after the first `count` steps of a deed, and after the answer to a fault if the last
of them has met one. -/
def moment (d : Deed α) (count : Nat) : Engine α :=
  (Engine.runSteps (.ofRun d.run) count d.before 0).engine

/-- A deed looks whether the run `id` has to stop before each of its steps. The step that brings the
stop is the last one. If it is not a fault, then it completes an instruction, which is counted
with all those before it. -/
structure Heeds (d : Deed α) (id : Nat) : Prop where
  before : d.before.stopped id = false
  step : ∀ i s, d.steps[i]? = some s →
    (d.moment i).stopped id = false ∧ ∃ m, (d.moment i).machine = some m ∧ s = m.step
  last : ∀ i s, d.steps[i]? = some s → (d.moment (i + 1)).stopped id = true →
    d.steps.length = i + 1 ∧
      ((∃ reason, s.result = .error (.fault reason)) ∨ s.Completed ∧ d.counted = i + 1)

/-- A call counts what its steps have left to count. -/
theorem counted_of_machine {run : Option Nat} {count : Int} {e : Engine α} {m : Machine}
    (hm : e.machine = some m) :
    (⟨run, .runCycles count, e⟩ : Deed α).counted =
      (Engine.runSteps (.ofRun run) count.toNat e 0).counted := by
  have hcounted := cycles_after ⟨run, .runCycles count, e⟩
  have hledger := congrArg Ledger.cycles (Engine.runCycles_of_machine hm (.ofRun run) count).1
  have hkept := Engine.cycles_runSteps hm (.ofRun run) count.toNat 0
  refine Nat.add_left_cancel (n := e.cycles) ?_
  rw [← hcounted]
  refine hledger.trans ?_
  rw [← hkept]

/-- If the last step of a deed has completed an instruction, then every step has, and all of them
are counted. -/
theorem counted_of_completed {d : Deed α} {i : Nat} {s : Step} (hs : d.steps[i]? = some s)
    (hlength : d.steps.length = i + 1) (hcompleted : s.Completed) : d.counted = i + 1 := by
  obtain ⟨run, job, e⟩ := d
  cases job with
  | begin | tickTimers => cases hs
  | runCycles count =>
      change (e.steps (.ofRun run) count.toNat)[i]? = some s at hs
      change (e.steps (.ofRun run) count.toNat).length = i + 1 at hlength
      obtain ⟨m, -, hm, -, -⟩ := Engine.ready_of_steps (List.mem_of_getElem? hs)
      rw [counted_of_machine hm]
      obtain ⟨done, last, f, hsteps, -, -, hend⟩ :=
        Engine.runSteps_end (.ofRun run) count.toNat hm 0
      rw [hsteps] at hs hlength
      generalize Engine.runSteps (.ofRun run) count.toNat e 0 = ran at hend ⊢
      rw [Nat.zero_add] at hend
      obtain ⟨w, hw⟩ := hcompleted
      cases hend with
      | finished =>
          rw [List.append_nil] at hlength
          exact hlength
      | @faulted t _ ht _ | @misfit t _ ht _ | @waiting t ht _ =>
          -- the last step would be one that has completed nothing
          rw [List.length_append] at hlength
          have hi : done.length = i := Nat.succ.inj hlength
          rw [← hi, List.getElem?_concat_length] at hs
          cases hs
          cases ht.symm.trans hw

/-- Before a step of a run its engine is live and was not asked to stop. The steps from there on
begin with this one. -/
theorem live_of_step {d : Deed α} (h : d.ByRunning) {id : Nat} (hrun : d.run = some id) {i : Nat}
    {s : Step} (hs : d.steps[i]? = some s) :
    let f := d.moment i
    f.generation = id ∧ f.phase = .live ∧ f.stopRequested = false ∧
      (∃ count rest, f.steps .run count = s :: rest ∧ d.steps.length = i + 1 + rest.length) ∧
      d.moment (i + 1) = (Engine.runSteps .run 1 f 0).engine := by
  obtain ⟨hgeneration, hlive, -⟩ := h id hrun
  obtain ⟨run, job, e⟩ := d
  dsimp only at hrun hgeneration hlive
  subst hrun
  cases job with
  | begin | tickTimers => cases hs
  | runCycles count =>
      intro f
      change (e.steps .run count.toNat)[i]? = some s at hs
      obtain ⟨⟨asked, hworked⟩, hdrop, hnext⟩ := Engine.drop_steps hs
      have hmoves : e.Moves .run True True f := Engine.moves_runSteps i e 0
      -- no other run is started between the steps, so that this one is still live
      have hg : f.generation = id := (congrArg Ledger.generation hworked).trans hgeneration
      have hp : f.phase = .live := by
        rcases hmoves.onward.turn with ⟨-, hp⟩ | ⟨hlt, -⟩
        · exact hp.trans hlive
        · omega
      obtain ⟨hi, hget⟩ := List.getElem?_eq_some_iff.1 hs
      have hsteps : f.steps .run (count.toNat - i) =
          s :: (e.steps .run count.toNat).drop (i + 1) := by
        rw [← hget, ← List.drop_eq_getElem_cons hi]
        exact hdrop.symm
      have hmem : s ∈ f.steps .run (count.toNat - i) := hsteps ▸ List.mem_cons_self
      obtain ⟨-, -, -, -, hready⟩ := Engine.ready_of_steps hmem
      have hasked : f.stopRequested = false := by
        rw [Engine.stopping, hp] at hready
        exact Bool.eq_false_iff.2 hready
      refine ⟨hg, hp, hasked, ⟨_, _, hsteps, ?_⟩, hnext⟩
      rw [List.length_drop]
      show (e.steps .run count.toNat).length = _
      omega

/-- What a run does, it does under the eye of its stop. -/
theorem heeds {d : Deed α} (h : d.ByRunning) {id : Nat} (hrun : d.run = some id) :
    d.Heeds id where
  before := by
    obtain ⟨hgeneration, -, hasked⟩ := h id hrun
    rw [← hgeneration, Engine.stopped_generation, hasked]
  step := by
    intro i s hs
    obtain ⟨hgeneration, -, hasked, ⟨count, rest, hsteps, -⟩, -⟩ := live_of_step h hrun hs
    constructor
    · rw [← hgeneration, Engine.stopped_generation, hasked]
    · have hmem : s ∈ (d.moment i).steps .run count := hsteps ▸ List.mem_cons_self
      obtain ⟨m, -, hm, -, -⟩ := Engine.ready_of_steps hmem
      have hfirst : ((d.moment i).steps .run count)[0]? = some s := by
        rw [hsteps]
        rfl
      exact ⟨m, hm, Engine.eq_step_of_steps hm hfirst⟩
  last := by
    intro i s hs hstop
    obtain ⟨hgeneration, hlive, hasked, ⟨count, rest, hsteps, hlength⟩, hnext⟩ :=
      live_of_step h hrun hs
    rw [hnext, ← hgeneration] at hstop
    obtain ⟨rfl, hcase⟩ := Engine.last_of_stopped hsteps hlive hasked hstop
    rcases hcase with hfault | hcompleted
    · exact ⟨hlength, Or.inl hfault⟩
    · exact ⟨hlength, Or.inr ⟨hcompleted, counted_of_completed hs hlength hcompleted⟩⟩

end Deed

namespace Engine

variable {α : Type} [Quantity α]

/-! ## Histories -/

/-- A run that was stopped never acts again. Whatever is done to a new engine, everything that its
runs do is a deed, and all that is counted and every refresh belong to one. Once the run `id` has
to stop, be it after one of the deeds, within an occurrence, or between two occurrences, no later
deed is its own: it counts no timers down, signals no refresh and executes nothing, although it may
have ticks left and although newer runs need not stop. Within each of its deeds it looks for the
stop before every step, and the step that is in progress when the stop comes is the fault that has
brought it, or an instruction that is completed and counted. -/
theorem silent_of_stopped [Tracing] {rate timerRate : α} {random : RandomSource}
    {policy : Policy} {schedule : List (List α)} {new : Engine α}
    (hc : create rate timerRate random policy schedule = .ok new)
    (history : List (Occurrence α)) (id : Nat) :
    let deeds := new.deeds history
    let e := new.after history
    (Led True new deeds e ∧ e.cycles = (deeds.map Deed.counted).sum ∧
      e.refreshes = (deeds.map Deed.refreshed).sum) ∧
    (∀ pre d post, deeds = pre ++ d :: post → d.after.Halted id → ∀ x ∈ post, x.run ≠ some id) ∧
    (∀ o more, (e.occur o).Halted id →
      ∀ x ∈ (e.occur o).settleDeeds ++ (e.next o).deeds more, x.run ≠ some id) ∧
    (∀ more, e.Halted id → ∀ x ∈ e.deeds more, x.run ≠ some id) ∧
    (∀ d ∈ deeds, d.run = some id → d.Heeds id) := by
  intro deeds e
  obtain ⟨-, hcontrol⟩ := eq_of_create hc
  have hled : ∀ (f : Engine α) more, Led True f (f.deeds more) (f.after more) := by
    intro f more
    exact led_after (fun _ _ => Or.inl trivial) f
  have hnew : Led True new deeds e := hled new history
  refine ⟨⟨hnew, ?_, ?_⟩, ?_, ?_, ?_, ?_⟩
  · have hzero : new.cycles = 0 := congrArg Control.cycles hcontrol
    rw [hnew.cycles, hzero, Nat.zero_add]
  · have hzero : new.refreshes = 0 := congrArg Control.refreshes hcontrol
    rw [hnew.refreshes, hzero, Nat.zero_add]
  · intro pre d post hdeeds hhalted
    obtain ⟨-, -, hpost⟩ := hnew.split hdeeds
    exact hpost.silent hhalted
  · intro o more hhalted
    have hsettle : Led True (e.occur o) (e.occur o).settleDeeds (e.next o) := led_settle (e.occur o)
    exact (hsettle.append (hled (e.next o) more)).silent hhalted
  · intro more hhalted
    exact (hled e more).silent hhalted
  · intro d hd hrun
    obtain ⟨pre, post, hdeeds⟩ := List.append_of_mem hd
    obtain ⟨-, hby, -⟩ := hnew.split hdeeds
    exact Deed.heeds hby hrun

open Tracing.Off in
/-- The first run meets a fault on the first of its two ticks, and a second run is started in its
place. It goes on when the clock ticks, and so does a third run that is started after it; the first
run, whose second tick was not used, is not heard of again. -/
theorem silent_of_stopped_restart :
    ∃ new : Engine Number,
      create (.int 60) (.int 60) ⟨fun _ => 0, 0⟩ ⟨.restart [0x12, 0x00], none, none⟩
        [[.real 1.0, .real 1.0], [.real 1.0]] = .ok new ∧
      let history := [.command .emptyDirectory (.init [0x60, 0x01, 0x00, 0xEE]),
        .command .emptyDirectory .start]
      let e := new.after history
      let later := e.deeds [.tick (.real 1.0), .command .emptyDirectory .start, .tick (.real 1.0)]
      (new.deeds history).map Deed.run = [some 1, some 1, some 1, some 2, some 2, some 2] ∧
        (∀ d ∈ new.deeds history, d.run = some 1 → d.Heeds 1) ∧
        e.Halted 1 ∧ e.isRunning = true ∧
        later.map Deed.run = [some 2, some 2, some 3, some 3] ∧ ∀ x ∈ later, x.run ≠ some 1 := by
  refine ⟨_, rfl, ?_⟩
  intro history e later
  have hnew : create (.int 60 : Number) (.int 60) ⟨fun _ => 0, 0⟩
    ⟨.restart [0x12, 0x00], none, none⟩ [[.real 1.0, .real 1.0], [.real 1.0]] = .ok _ := rfl
  obtain ⟨-, -, -, hsilent, hheeds⟩ := silent_of_stopped hnew history 1
  have hhalted : e.Halted 1 := ⟨by decide +kernel, by decide +kernel⟩
  refine ⟨by decide +kernel, hheeds, hhalted, by decide +kernel, by decide +kernel, ?_⟩
  exact hsilent _ hhalted

end Engine

end Chip8
