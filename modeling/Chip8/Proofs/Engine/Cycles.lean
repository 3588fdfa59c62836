import Chip8.Proofs.Engine.Ledger
import Chip8.Proofs.Machine.Fault
import Chip8.Proofs.Machine.History

/-!
# Runs of instructions

What a call for a number of instructions does. `Engine.steps` lists the steps that it makes the
machine take; `Engine.runSteps_end` says how the call ends, given these steps: each of them but
the last has completed an instruction, and the last one may have met a fault or a misfit, or found
that the machine waits for a key. `Engine.fail_answer` says what comes of a fault.
-/

set_option autoImplicit false

namespace Chip8

/-- A step that has carried an instruction out. -/
def Step.Completed (s : Step) : Prop :=
  ∃ w, s.result = .ok (some w)

namespace Machine

variable [Tracing]

/-- A cycle that does not fail carries an instruction out. -/
theorem result_cycle_ne_none (m : Machine) : m.cycle.result ≠ .ok none := by
  intro hnone
  unfold cycle execute at hnone
  -- the cycle asks for a word, an instruction, and how that has ended
  split at hnone
  · cases hnone
  · dsimp only at hnone
    split at hnone
    · cases hnone
    · dsimp only at hnone
      split at hnone
      · cases hnone
      · cases hnone

/-- A step of a machine that waits for no key does not stop short of an instruction. -/
theorem result_step_ne_none {m : Machine} (hready : m.Ready) : m.step.result ≠ .ok none := by
  obtain ⟨d, hd⟩ := ready_iff.1 hready
  rw [step_of_answered hd]
  exact d.result_cycle_ne_none

end Machine

namespace Engine

variable {α : Type}

/-! ## The steps of a call -/

variable [Tracing]

/-- The steps that a call for up to `count` instructions makes the machine take. -/
def steps (caller : Caller) : Nat → Engine α → List Step
  | 0, _ => []
  | count + 1, e =>
    if e.stopping then []
    else
      match e.machine with
      | none => []
      | some m =>
        let s := m.step
        match s.result with
        | .ok (some _) => s :: steps caller count (e.absorb caller m s.machine s.entries)
        | .ok none | .error _ => [s]

/-- A call for an instruction takes a step, if no run under way was asked to stop. -/
theorem steps_succ {e : Engine α} {m : Machine} (hm : e.machine = some m)
    (hstop : ¬ e.stopping = true) (caller : Caller) (count : Nat) :
    ∃ rest, e.steps caller (count + 1) = m.step :: rest ∧
      (rest = [] ∨
        rest = (e.absorb caller m m.step.machine m.step.entries).steps caller count) := by
  rw [steps, if_neg hstop, hm]
  dsimp only
  cases m.step.result with
  | error reason => exact ⟨[], rfl, Or.inl rfl⟩
  | ok found =>
      cases found with
      | none => exact ⟨[], rfl, Or.inl rfl⟩
      | some w => exact ⟨_, rfl, Or.inr rfl⟩

/-- A call makes at most as many steps as instructions are called for. -/
theorem length_steps_le (caller : Caller) (count : Nat) (e : Engine α) :
    (e.steps caller count).length ≤ count := by
  induction count generalizing e with
  | zero => exact Nat.le_refl 0
  | succ count ih =>
      by_cases hstop : e.stopping = true
      · rw [steps, if_pos hstop]
        exact Nat.zero_le _
      · cases hm : e.machine with
        | none =>
            rw [steps, if_neg hstop, hm]
            exact Nat.zero_le _
        | some m =>
            obtain ⟨rest, hsteps, hrest⟩ := steps_succ hm hstop caller count
            rw [hsteps, List.length_cons]
            rcases hrest with rfl | rfl
            · exact Nat.succ_le_succ (Nat.zero_le count)
            · exact Nat.succ_le_succ (ih _)

theorem machine_of_mem_steps {caller : Caller} {count : Nat} {e : Engine α} {s : Step}
    (hs : s ∈ e.steps caller count) : e.machine ≠ none := by
  intro hm
  cases count with
  | zero => cases hs
  | succ count =>
      rw [steps, hm] at hs
      by_cases hstop : e.stopping = true
      · rw [if_pos hstop] at hs
        cases hs
      · rw [if_neg hstop] at hs
        cases hs

/-- The steps of a call are successive steps of the machine. -/
theorem eq_step_of_steps {caller : Caller} {count : Nat} {e : Engine α} {m : Machine}
    (hm : e.machine = some m) {i : Nat} {s : Step} (hs : (e.steps caller count)[i]? = some s) :
    s = (m.after (List.replicate i .step)).step := by
  -- along the calls: after the first step, the engine holds the machine one step later
  induction count generalizing e m i with
  | zero =>
      rw [steps] at hs
      cases hs
  | succ count ih =>
      by_cases hstop : e.stopping = true
      · rw [steps, if_pos hstop] at hs
        cases hs
      · obtain ⟨rest, hsteps, hrest⟩ := steps_succ hm hstop caller count
        rw [hsteps] at hs
        cases i with
        | zero => exact (Option.some.inj hs).symm
        | succ i =>
            rw [List.replicate_succ, Machine.after_cons]
            rcases hrest with rfl | rfl
            · cases hs
            · exact ih (worked_absorb e caller m m.step.machine m.step.entries).2 hs

/-- No step of a call meets a misfit on a machine in range. -/
theorem not_misfit_of_mem_steps {e : Engine α} {m : Machine} (hm : e.machine = some m)
    (h : m.InRange) {caller : Caller} {count : Nat} {s : Step}
    (hs : s ∈ e.steps caller count) (reason : Misfit) : s.result ≠ .error (.misfit reason) := by
  obtain ⟨i, hi⟩ := List.mem_iff_getElem?.1 hs
  have hbefore : (m.after (List.replicate i .step)).InRange :=
    h.after fun o ho => by rw [List.eq_of_mem_replicate ho]; rfl
  rw [eq_step_of_steps hm hi]
  -- an error of a machine in range comes from a hazard, and hazards give faults
  intro hmisfit
  obtain ⟨-, f, hf, -⟩ := (Machine.step_error_iff_hazard hbefore _).1 hmisfit
  cases hf

variable [Quantity α]

/-! ## Faults -/

/-- What comes of a fault: it is kept and the run is asked to stop. If the policy is to restart,
then the fault is wiped with the machine, and a new run is started if the machine takes the
program. -/
inductive Answer (e : Engine α) (m : Machine) (reason : Fault) :
    Engine α × Except Refusal Unit → Prop where
  | kept {f : Engine α} (hp : ∀ program, e.policy.onFault ≠ .restart program)
      (hl : f.ledger = { e.ledger with
        fault := some reason, stopRequested := true, reports := reason :: e.reports }) :
      Answer e m reason (f, .ok ())
  | refused {f : Engine α} {program : List Int} {why : LoadError}
      (hp : e.policy.onFault = .restart program) (hi : m.reset.init program = .error why)
      (hl : f.ledger = { e.ledger with
        machine := some m.reset, fault := none, budget := Quantity.zero, stopRequested := true
        reports := reason :: e.reports }) :
      Answer e m reason (f, .error (.load why))
  | restarted {f : Engine α} {program : List Int} {m' : Machine}
      (hp : e.policy.onFault = .restart program) (hi : m.reset.init program = .ok m')
      (hl : f.ledger = { e.ledger with
        machine := some m', fault := none, budget := Quantity.zero
        generation := e.generation + 1, stopRequested := false
        reports := reason :: e.reports }) :
      Answer e m reason (f, .ok ())

omit [Tracing] in
theorem fail_answer {e : Engine α} {m : Machine} (hm : e.machine = some m) (caller : Caller)
    (reason : Fault) : e.Answer m reason (e.fail caller m reason) := by
  -- what the policy gets to see: the fault has been kept and told, and the stop is asked for
  have htold : (e.faulted m reason).ledger = { e.ledger with
      fault := some reason, stopRequested := true, reports := reason :: e.reports } := rfl
  rw [fail_eq]
  generalize e.faulted m reason = told at htold ⊢
  have hpolicy : told.policy = e.policy := congrArg Ledger.policy htold
  have hmachine : told.machine = some m := (congrArg Ledger.machine htold).trans hm
  unfold answerFault
  rw [hpolicy]
  cases hp : e.policy.onFault with
  | ignore => exact .kept (by rw [hp]; nofun) htold
  | stop =>
      refine .kept (by rw [hp]; nofun) ?_
      rw [ledger_stop, htold]
  | restart program =>
      obtain ⟨wiped, hreset, hwiped⟩ := reset_of_machine hmachine
      have hwipedm : wiped.machine = some m.reset := congrArg Ledger.machine hwiped
      simp only [hreset]
      cases hi : m.reset.init program with
      | error why =>
          simp only [init_of_refusal hwipedm hi]
          refine .refused hp hi ?_
          rw [hwiped, htold]
      | ok m' =>
          obtain ⟨f, hinit, hf⟩ := init_of_machine hwipedm hi
          have hg : f.generation = e.generation := by
            refine (congrArg Ledger.generation hf).trans ?_
            exact (congrArg Ledger.generation hwiped).trans (congrArg Ledger.generation htold)
          simp only [hinit]
          refine .restarted hp hi ?_
          rw [ledger_start, hf, hwiped, htold, hg]

omit [Tracing] in
/-- Whatever the policy is, the run that has met a fault has to stop, and no instruction is
counted. -/
theorem stopped_fail {e : Engine α} {m : Machine} (hm : e.machine = some m) (caller : Caller)
    (reason : Fault) :
    (e.fail caller m reason).1.stopped e.generation = true ∧
      (e.fail caller m reason).1.cycles = e.cycles := by
  have hstopped : ∀ f : Engine α, f.stopRequested = true → f.stopped e.generation = true := by
    intro f hf
    rw [stopped, hf, Bool.or_true]
  have h := fail_answer hm caller reason
  generalize e.fail caller m reason = p at h ⊢
  cases h with
  | kept hp hl =>
      exact ⟨hstopped _ (congrArg Ledger.stopRequested hl), congrArg Ledger.cycles hl⟩
  | refused hp hi hl =>
      exact ⟨hstopped _ (congrArg Ledger.stopRequested hl), congrArg Ledger.cycles hl⟩
  | @restarted f _ _ hp hi hl =>
      -- the new run has not been asked to stop, but the old one is no longer the newest
      refine ⟨?_, congrArg Ledger.cycles hl⟩
      have hg : f.generation = e.generation + 1 := congrArg Ledger.generation hl
      show (f.generation != e.generation || f.stopRequested) = true
      rw [hg, bne_iff_ne.2 (Nat.succ_ne_self e.generation), Bool.true_or]

/-! ## The end of a call -/

/-- How a call ends that has completed a number of steps and has come to the engine `f`: it is
over, or one more step is taken and completes no instruction. The last two arguments are this step
and what is left. -/
inductive End (caller : Caller) (f : Engine α) (executed : Nat) : List Step → Ran α → Prop where
  | finished : End caller f executed [] ⟨f, executed, .ok ()⟩
  | faulted {s : Step} {reason : Fault} (hs : s.result = .error (.fault reason))
      (hm : f.machine = some s.machine) :
      End caller f executed [s]
        ⟨(f.fail caller s.machine reason).1, executed, (f.fail caller s.machine reason).2⟩
  | misfit {s : Step} {reason : Misfit} (hs : s.result = .error (.misfit reason))
      (hm : f.machine = some s.machine) :
      End caller f executed [s] ⟨f, executed, .error (.failure (.misfit reason))⟩
  | waiting {s : Step} (hs : s.result = .ok none) (hm : f.machine = some s.machine) :
      End caller f executed [s] ⟨f, executed, .ok ()⟩

/-- On a machine, a call completes some steps and then ends in one of these ways. -/
theorem runSteps_end (caller : Caller) (count : Nat) {e : Engine α} {m : Machine}
    (hm : e.machine = some m) (executed : Nat) :
    ∃ done last f, e.steps caller count = done ++ last ∧ (∀ s ∈ done, s.Completed) ∧
      e.Worked f ∧
      f.End caller (executed + done.length) last (runSteps caller count e executed) := by
  -- `steps` and `runSteps` recurse alike, so that one induction opens both
  induction count generalizing e m executed with
  | zero => exact ⟨[], [], e, by rw [steps]; rfl, List.forall_mem_nil _, .refl e, .finished⟩
  | succ count ih =>
      unfold steps runSteps
      by_cases hstop : e.stopping = true
      · rw [if_pos hstop, if_pos hstop]
        exact ⟨[], [], e, rfl, List.forall_mem_nil _, .refl e, .finished⟩
      · rw [if_neg hstop, if_neg hstop, hm]
        obtain ⟨hw, habsorb⟩ := worked_absorb e caller m m.step.machine m.step.entries
        dsimp only
        generalize e.absorb caller m m.step.machine m.step.entries = f at hw habsorb ⊢
        cases hs : m.step.result with
        | error reason =>
            cases reason with
            | fault reason =>
                exact ⟨[], [m.step], f, rfl, List.forall_mem_nil _, hw, .faulted hs habsorb⟩
            | misfit reason =>
                exact ⟨[], [m.step], f, rfl, List.forall_mem_nil _, hw, .misfit hs habsorb⟩
        | ok found =>
            cases found with
            | none =>
                exact ⟨[], [m.step], f, rfl, List.forall_mem_nil _, hw, .waiting hs habsorb⟩
            | some w =>
                -- the first of the completed steps; the call goes on with one less
                obtain ⟨done, last, g, hsteps, hdone, hwg, hend⟩ := ih habsorb (executed + 1)
                refine ⟨m.step :: done, last, g, ?_, ?_, hw.trans hwg, ?_⟩
                · exact congrArg (m.step :: ·) hsteps
                · exact List.forall_mem_cons.2 ⟨⟨w, hs⟩, hdone⟩
                · rw [List.length_cons, ← Nat.add_assoc, Nat.add_right_comm]
                  exact hend

/-! ## The account of a call -/

/-- Without a machine nothing runs. -/
theorem runCycles_of_noMachine {e : Engine α} (hm : e.machine = none) (caller : Caller)
    (count : Int) : e.runCycles caller count = (e, .error .noMachine) := by
  unfold runCycles
  rw [hm]

/-- The number of instructions that a call counts: those that have run, unless it was broken
off. -/
def Ran.counted (ran : Ran α) : Nat :=
  match ran.result with
  | .ok () => ran.executed
  | .error _ => 0

/-- A call leaves what its steps have left, and counts. -/
theorem runCycles_of_machine {e : Engine α} {m : Machine} (hm : e.machine = some m)
    (caller : Caller) (count : Int) :
    let ran := runSteps caller count.toNat e 0
    (e.runCycles caller count).1.ledger =
        { ran.engine.ledger with cycles := ran.engine.cycles + ran.counted } ∧
      (e.runCycles caller count).2 = ran.result.map fun () => ran.executed := by
  unfold runCycles
  rw [hm]
  dsimp only
  cases runSteps caller count.toNat e 0 with
  | mk f executed result =>
      cases result with
      | error why => exact ⟨rfl, rfl⟩
      | ok done => exact ⟨ledger_setSound _ _, rfl⟩

end Engine

end Chip8
