import Chip8.Proofs.Engine.Silence
import Chip8.Proofs.Engine.Slicing

/-!
# Calls that are interrupted

What a stop does to the call in which it is asked for. It comes with an instruction that draws a
random byte, and so one that is completed and counted. From within a run that is under way, the
call sees the stop and takes no further step (`Engine.runSteps_of_stop`). A call from outside, with
no run under way, does not look at the request at all: it takes the steps that it would have taken
without one (`Engine.runSteps_of_not_alive`). With a live run beside it, such a call does not come
back (`Engine.not_returns_of_stop`).
-/

set_option autoImplicit false

namespace Chip8

/-- The instruction during which a stop is asked for is completed. -/
theorem Machine.completed_of_stops [Tracing] {p : Policy} {m : Machine}
    (h : p.Stops m m.step.machine) : m.step.Completed := by
  by_cases hnone : ∀ w, m.step.result ≠ .ok (some w)
  · have hrandom := random_step_of_not_completed hnone
    exact absurd h.drawn (by rw [hrandom]; exact Nat.lt_irrefl _)
  · obtain ⟨w, hw⟩ := Classical.not_forall.1 hnone
    exact ⟨w, Classical.not_not.1 hw⟩

namespace Engine

variable {α : Type}

theorem steps_of_stopping [Tracing] {e : Engine α} (hstop : e.stopping = true) (caller : Caller)
    (count : Nat) : e.steps caller count = [] := by
  cases count with
  | zero => rfl
  | succ count => rw [steps, if_pos hstop]

/-- What is taken over leaves the policy, and the machine in place. -/
theorem policy_absorb (e : Engine α) (caller : Caller) (before after : Machine)
    (entries : List Entry) :
    (e.absorb caller before after entries).policy = e.policy ∧
      (e.absorb caller before after entries).machine = some after := by
  obtain ⟨⟨asked, hl⟩, hm⟩ := worked_absorb e caller before after entries
  exact ⟨congrArg Ledger.policy hl, hm⟩

/-! ## From within a run -/

section Within

variable {e : Engine α} {m : Machine}

theorem phase_absorb_run (e : Engine α) (before after : Machine) (entries : List Entry) :
    (e.absorb .run before after entries).phase = e.phase := by
  obtain ⟨asked, hcontrol, -⟩ := control_absorb_run e before after entries
  exact congrArg Control.phase hcontrol

/-- A run under way that asks for a stop is stopping. -/
theorem stopping_absorb_run {after : Machine} (halive : e.phase.alive = true)
    (h : e.policy.Stops m after) (entries : List Entry) :
    (e.absorb .run m after entries).stopping = true := by
  have hasked : (e.absorb .run m after entries).stopRequested = true := by
    rw [absorb_of_stops .run entries h]
    exact congrArg Control.stopRequested (control_stop_run _)
  rw [stopping, phase_absorb_run, halive, hasked]
  rfl

variable [Quantity α]

/-- The step during which the stop is asked for is the last one, and the call ends with it. -/
theorem runSteps_of_stop [Tracing] (hm : e.machine = some m) (halive : e.phase.alive = true)
    {count i : Nat} {s : Step} (hs : (e.steps .run count)[i]? = some s)
    (hstop : e.policy.Stops (m.after (List.replicate i .step)) s.machine) (executed : Nat) :
    (e.steps .run count).length = i + 1 ∧
      ∃ f, runSteps .run count e executed = ⟨f, executed + (i + 1), .ok ()⟩ := by
  -- along the calls, as in `eq_step_of_steps`: the stop comes in the first step, or in the rest
  induction i generalizing count e m executed with
  | zero =>
      obtain ⟨_, more, hm', rfl, hready⟩ := ready_of_steps (List.mem_of_getElem? hs)
      cases hm.symm.trans hm'
      obtain rfl : s = m.step := eq_step_of_steps hm hs
      change e.policy.Stops m m.step.machine at hstop
      obtain ⟨w, hw⟩ := Machine.completed_of_stops hstop
      have hstopping := stopping_absorb_run halive hstop m.step.entries
      have hsteps := steps_of_machine hm hready .run more
      rw [hw] at hsteps
      rw [hsteps, runSteps_of_completed hm hready hw, steps_of_stopping hstopping,
        runSteps_of_stopping hstopping]
      exact ⟨rfl, _, rfl⟩
  | succ i ih =>
      obtain ⟨_, more, hm', rfl, hready⟩ := ready_of_steps (List.mem_of_getElem? hs)
      cases hm.symm.trans hm'
      have hsteps := steps_of_machine hm hready .run more
      obtain ⟨hpolicy, hnext⟩ := policy_absorb e .run m m.step.machine m.step.entries
      have hphase := phase_absorb_run e m m.step.machine m.step.entries
      rcases hresult : m.step.result with reason | _ | w
      · rw [hsteps, hresult] at hs
        cases hs
      · rw [hsteps, hresult] at hs
        cases hs
      · rw [hresult] at hsteps
        rw [hsteps] at hs
        rw [hsteps, runSteps_of_completed hm hready hresult]
        obtain ⟨hlength, f, hrun⟩ :=
          ih hnext (hphase ▸ halive) hs (hpolicy.symm ▸ hstop) (executed + 1)
        refine ⟨congrArg (· + 1) hlength, f, hrun.trans ?_⟩
        rw [Nat.add_assoc, Nat.add_comm 1]

end Within

/-! ## Without a run -/

section Idle

variable {e f : Engine α} {m : Machine}

theorem stopping_of_not_alive (h : e.phase.alive = false) : ¬ e.stopping = true := by
  rw [stopping, h]
  exact Bool.false_ne_true

/-- No run comes under way when an operation is taken over, even if it brings a stop. -/
theorem alive_absorb (h : e.phase.alive = false) (caller : Caller) (before after : Machine)
    (entries : List Entry) : (e.absorb caller before after entries).phase.alive = false := by
  cases caller with
  | run =>
      rw [phase_absorb_run]
      exact h
  | outside =>
      rcases e.absorb_cases .outside before after entries with hkept | hstop
      · rw [hkept]
        have hkept := control_taken e after entries
        exact (congrArg (fun c : Control α => c.phase.alive) hkept).trans h
      · rw [hstop]
        exact congrArg (fun c : Control α => c.phase.alive) (control_stop_outside _)

/-- A call from an engine without a run takes the steps of its machine, whatever is asked for. -/
theorem steps_of_not_alive [Tracing] (he : e.machine = some m) (hf : f.machine = some m)
    (hedead : e.phase.alive = false) (hfdead : f.phase.alive = false) (caller : Caller)
    (count : Nat) : e.steps caller count = f.steps caller count := by
  induction count generalizing e f m with
  | zero => rfl
  | succ count ih =>
      have hrest := ih (policy_absorb e caller m m.step.machine m.step.entries).2
        (policy_absorb f caller m m.step.machine m.step.entries).2
        (alive_absorb hedead caller ..) (alive_absorb hfdead caller ..)
      rw [steps_of_machine he (stopping_of_not_alive hedead),
        steps_of_machine hf (stopping_of_not_alive hfdead), hrest]

variable [Quantity α]

/-- Whether the answer to a fault is refused is known from the machine and the policy. -/
theorem result_fail (he : e.machine = some m) (hf : f.machine = some m)
    (hp : e.policy.onFault = f.policy.onFault) (caller : Caller) (reason : Fault) :
    (e.fail caller m reason).2 = (f.fail caller m reason).2 := by
  have hanswer := fail_answer he caller reason
  have hanswer' := fail_answer hf caller reason
  generalize e.fail caller m reason = p at hanswer ⊢
  generalize f.fail caller m reason = p' at hanswer' ⊢
  -- answers of two kinds would need two policies, or one program that is taken and refused
  cases hanswer with
  | kept hkept _ =>
      cases hanswer' with
      | kept _ _ => rfl
      | refused hp' _ _ | restarted hp' _ _ => exact absurd (hp.trans hp') (hkept _)
  | refused hrestart hi _ =>
      cases hanswer' with
      | kept hkept _ => exact absurd (hp.symm.trans hrestart) (hkept _)
      | refused hp' hi' _ =>
          cases (hp.symm.trans hrestart).symm.trans hp'
          cases hi.symm.trans hi'
          rfl
      | restarted hp' hi' _ =>
          cases (hp.symm.trans hrestart).symm.trans hp'
          cases hi.symm.trans hi'
  | restarted hrestart hi _ =>
      cases hanswer' with
      | kept hkept _ => exact absurd (hp.symm.trans hrestart) (hkept _)
      | refused hp' hi' _ =>
          cases (hp.symm.trans hrestart).symm.trans hp'
          cases hi.symm.trans hi'
      | restarted _ _ _ => rfl

/-- Nor does the number of instructions that run depend on anything else. -/
theorem runSteps_of_not_alive [Tracing] (he : e.machine = some m) (hf : f.machine = some m)
    (hedead : e.phase.alive = false) (hfdead : f.phase.alive = false)
    (hp : e.policy.onFault = f.policy.onFault) (caller : Caller) (count executed : Nat) :
    (runSteps caller count e executed).executed = (runSteps caller count f executed).executed ∧
      (runSteps caller count e executed).result = (runSteps caller count f executed).result := by
  induction count generalizing e f m executed with
  | zero => exact ⟨rfl, rfl⟩
  | succ count ih =>
      obtain ⟨hpolicy, he'⟩ := policy_absorb e caller m m.step.machine m.step.entries
      obtain ⟨hpolicy', hf'⟩ := policy_absorb f caller m m.step.machine m.step.entries
      have hkept := (congrArg Policy.onFault hpolicy).trans
        (hp.trans (congrArg Policy.onFault hpolicy').symm)
      have hrest := ih he' hf' (alive_absorb hedead caller ..) (alive_absorb hfdead caller ..) hkept
        (executed + 1)
      rw [runSteps, runSteps, if_neg (stopping_of_not_alive hedead),
        if_neg (stopping_of_not_alive hfdead), he, hf]
      dsimp only
      rcases m.step.result with (reason | reason) | _ | w
      · exact ⟨rfl, result_fail he' hf' hkept caller reason⟩
      · exact ⟨rfl, rfl⟩
      · exact ⟨rfl, rfl⟩
      · exact hrest

end Idle

variable [Quantity α]

/-! ## Beside a live run -/

/-- From outside a stop leaves no run under way, and the rest of the call brings none but a new
one. -/
theorem alive_runSteps_of_stop [Tracing] {e : Engine α} {m : Machine} (hm : e.machine = some m)
    {count i : Nat} {s : Step} (hs : (e.steps .outside count)[i]? = some s)
    (hstop : e.policy.Stops (m.after (List.replicate i .step)) s.machine) (executed : Nat)
    (hg : (runSteps .outside count e executed).engine.generation = e.generation) :
    (runSteps .outside count e executed).engine.phase.alive = false := by
  -- along the calls, as in `runSteps_of_stop`
  induction i generalizing count e m executed with
  | zero =>
      obtain ⟨_, more, hm', rfl, hready⟩ := ready_of_steps (List.mem_of_getElem? hs)
      cases hm.symm.trans hm'
      obtain rfl : s = m.step := eq_step_of_steps hm hs
      change e.policy.Stops m m.step.machine at hstop
      obtain ⟨w, hw⟩ := Machine.completed_of_stops hstop
      obtain ⟨⟨asked, hl⟩, -⟩ := worked_absorb e .outside m m.step.machine m.step.entries
      have hsame := congrArg Ledger.generation hl
      have habsent : (e.absorb .outside m m.step.machine m.step.entries).phase = .absent := by
        rw [absorb_of_stops .outside _ hstop]
        exact phase_stop_outside _
      rw [runSteps_of_completed hm hready hw] at hg ⊢
      have hmoves : Moves .outside True True _ _ :=
        moves_runSteps more (e.absorb .outside m m.step.machine m.step.entries) (executed + 1)
      refine Bool.eq_false_iff.2 fun halive => ?_
      have hbefore := hmoves.alive (hg.trans hsame.symm) halive
      rw [habsent] at hbefore
      cases hbefore
  | succ i ih =>
      obtain ⟨_, more, hm', rfl, hready⟩ := ready_of_steps (List.mem_of_getElem? hs)
      cases hm.symm.trans hm'
      have hsteps := steps_of_machine hm hready .outside more
      obtain ⟨hpolicy, hnext⟩ := policy_absorb e .outside m m.step.machine m.step.entries
      obtain ⟨⟨asked, hl⟩, -⟩ := worked_absorb e .outside m m.step.machine m.step.entries
      have hsame := congrArg Ledger.generation hl
      rw [hsteps] at hs
      rcases hresult : m.step.result with reason | _ | w
      · rw [hresult] at hs
        cases hs
      · rw [hresult] at hs
        cases hs
      · rw [hresult] at hs
        rw [runSteps_of_completed hm hready hresult] at hg ⊢
        exact ih hnext hs (hpolicy.symm ▸ hstop) (executed + 1) (hg.trans hsame.symm)

/-- So the call does not come back if a run was live. -/
theorem not_returns_of_stop [Tracing] {e : Engine α} {m : Machine} (hm : e.machine = some m)
    {count : Int} {i : Nat} {s : Step} (hs : (e.steps .outside count.toNat)[i]? = some s)
    (hstop : e.policy.Stops (m.after (List.replicate i .step)) s.machine)
    (hlive : e.phase = .live) : ¬ (⟨none, .runCycles count, e⟩ : Deed α).Returns := by
  intro hreturns
  obtain ⟨hg, hphase⟩ := hreturns count rfl rfl hlive
  change (e.runCycles .outside count).1.generation = e.generation at hg
  change (e.runCycles .outside count).1.phase = .live at hphase
  have hkept := (runCycles_of_machine hm .outside count).1
  have hdead := alive_runSteps_of_stop hm hs hstop 0
    ((congrArg Ledger.generation hkept).symm.trans hg)
  have hcalled : (e.runCycles .outside count).1.phase =
      (runSteps .outside count.toNat e 0).engine.phase := by
    unfold runCycles
    rw [hm]
    dsimp only
    cases (runSteps .outside count.toNat e 0).result with
    | error reason => rfl
    | ok done => exact congrArg Control.phase (control_setSound _ _)
  rw [← hcalled, hphase] at hdead
  cases hdead

/-! ## Calls -/

/-- What a stop does that is asked for during an instruction of a call. The instruction is
completed. If the call comes from within a run that is under way, then it is the last one: the call
counts it with those before it, and returns. If the call comes from outside while a run is live,
then it does not come back: the stop waits for the run, which waits for the call to be over. If no
run is under way, then the call takes the steps and gives the answer that it would have without the
request, as does every engine without a run that has the same machine and answers faults in the
same way. -/
theorem runCycles_of_stop [Tracing] {e : Engine α} {m : Machine} (hm : e.machine = some m)
    (caller : Caller) (count : Int) {i : Nat} {s : Step}
    (hs : (e.steps caller count.toNat)[i]? = some s)
    (hstop : e.policy.Stops (m.after (List.replicate i .step)) s.machine) :
    s.Completed ∧
    (caller = .run → e.phase.alive = true →
      (e.steps caller count.toNat).length = i + 1 ∧
      (e.runCycles caller count).2 = .ok (i + 1) ∧
      (e.runCycles caller count).1.cycles = e.cycles + (i + 1)) ∧
    (caller = .outside → e.phase = .live →
      ¬ (⟨none, .runCycles count, e⟩ : Deed α).Returns) ∧
    (e.phase.alive = false → ∀ f : Engine α, f.machine = some m → f.phase.alive = false →
      f.policy.onFault = e.policy.onFault →
      e.steps caller count.toNat = f.steps caller count.toNat ∧
        (e.runCycles caller count).2 = (f.runCycles caller count).2) := by
  refine ⟨?_, ?_, ?_, ?_⟩
  · obtain rfl := eq_step_of_steps hm hs
    exact Machine.completed_of_stops hstop
  · rintro rfl halive
    obtain ⟨hlength, f, hrun⟩ := runSteps_of_stop hm halive hs hstop 0
    rw [Nat.zero_add] at hrun
    have hok : (runSteps .run count.toNat e 0).result = .ok () := congrArg Ran.result hrun
    obtain ⟨-, hcycles, -, hresult⟩ := runCycles_of_ok hm hok
    rw [hrun] at hcycles hresult
    exact ⟨hlength, hresult, hcycles⟩
  · rintro rfl hlive
    exact not_returns_of_stop hm hs hstop hlive
  · intro hedead f hf hfdead hp
    obtain ⟨hexecuted, hresult⟩ :=
      runSteps_of_not_alive hm hf hedead hfdead hp.symm caller count.toNat 0
    refine ⟨steps_of_not_alive hm hf hedead hfdead caller count.toNat, ?_⟩
    rw [(runCycles_of_machine hm caller count).2, (runCycles_of_machine hf caller count).2,
      hexecuted, hresult]

open Tracing.Off in
/-- The program draws a random byte and jumps back, again and again. A run that is under way is
asked to stop by the first byte, and executes one of the three instructions it is called for. -/
theorem runCycles_of_stop_first_byte :
    ∃ new : Engine Number,
      create (.int 60) (.int 60) ⟨fun _ => 0, 0⟩ ⟨.ignore, none, some 1⟩ [] = .ok new ∧
      let e := (new.init [0xC0, 0xFF, 0x12, 0x00]).1.start .outside
      e.isRunning = true ∧ (e.runCycles .run 3).2 = .ok 1 ∧ (e.runCycles .run 3).1.cycles = 1 := by
  refine ⟨_, rfl, ?_⟩
  intro e
  let m := (Machine.fresh .idle ⟨fun _ => 0, 0⟩).after [.init [0xC0, 0xFF, 0x12, 0x00]]
  have hm : e.machine = some m := rfl
  have hs : (e.steps .run 3)[0]? = some m.step := by
    obtain ⟨rest, hsteps, -⟩ := steps_succ hm (by decide +kernel) .run 2
    rw [hsteps]
    rfl
  have hstop : e.policy.Stops (m.after (List.replicate 0 .step)) m.step.machine := by
    rw [List.replicate_zero, Machine.after_nil]
    exact ⟨1, rfl, by decide +kernel, by decide +kernel⟩
  obtain ⟨-, hwithin, -⟩ := runCycles_of_stop (i := 0) hm .run 3 hs hstop
  obtain ⟨-, hresult, hcycles⟩ := hwithin rfl (by decide +kernel)
  exact ⟨by decide +kernel, hresult, hcycles⟩

open Tracing.Off in
/-- An engine that was never started is asked to stop by the same byte, and goes on to the third
instruction. -/
theorem runCycles_ignores_stop :
    ∃ new : Engine Number,
      create (.int 60) (.int 60) ⟨fun _ => 0, 0⟩ ⟨.ignore, none, some 1⟩ [] = .ok new ∧
      let e := (new.init [0xC0, 0xFF, 0x12, 0x00]).1
      ∃ m s, e.machine = some m ∧ (e.steps .outside 3)[0]? = some s ∧
        e.policy.Stops m s.machine ∧ (e.steps .outside 3).length = 3 ∧
        (e.runCycles .outside 3).2 = .ok 3 ∧ (e.runCycles .outside 3).1.cycles = 3 := by
  refine ⟨_, rfl, ?_⟩
  intro e
  let m := (Machine.fresh .idle ⟨fun _ => 0, 0⟩).after [.init [0xC0, 0xFF, 0x12, 0x00]]
  have hm : e.machine = some m := rfl
  have hs : (e.steps .outside 3)[0]? = some m.step := by
    obtain ⟨rest, hsteps, -⟩ := steps_succ hm (by decide +kernel) .outside 2
    rw [hsteps]
    rfl
  refine ⟨m, m.step, hm, hs, ⟨1, rfl, by decide +kernel, by decide +kernel⟩, ?_, ?_, ?_⟩
  · decide +kernel
  · decide +kernel
  · decide +kernel

end Engine

end Chip8
