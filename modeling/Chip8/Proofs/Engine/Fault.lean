import Chip8.Proofs.Engine.Ticks
import Chip8.Proofs.Memory.Program
import Chip8.Number.Basic
import Mathlib.Data.List.Induction

/-!
# The fault policy

A call for instructions that meets a fault ends there: the instructions before it are counted, the
outside is told of this fault and of no other, and the run under way has to stop, whatever the
policy answers. `Engine.runCycles_on_fault` says so for every state of an engine.
-/

set_option autoImplicit false

namespace Chip8

/-- A step that has met a fault has completed nothing. -/
theorem Step.not_completed_of_error {s : Step} {reason : Failure}
    (hs : s.result = .error reason) : ¬ s.Completed := by
  rintro ⟨w, hw⟩
  rw [hs] at hw
  cases hw

/-- The fault that is kept after a run has met one: a restart wipes it. -/
def FaultPolicy.keeps (policy : FaultPolicy) (reason : Fault) : Option Fault :=
  match policy with
  | .ignore | .stop => some reason
  | .restart _ => none

namespace Engine

variable {α : Type} [Quantity α]

/-- A fault that is answered without a refusal is told to the outside, and kept unless a restart
has wiped it. -/
theorem fail_of_accepts {e : Engine α} {m : Machine} (hm : e.machine = some m)
    (hp : ∀ program, e.policy.onFault = .restart program → Memory.Accepts program)
    (caller : Caller) (reason : Fault) :
    ∃ f, e.fail caller m reason = (f, .ok ()) ∧ f.reports = reason :: e.reports ∧
      f.fault = e.policy.onFault.keeps reason := by
  have h := fail_answer hm caller reason
  generalize e.fail caller m reason = p at h ⊢
  cases h with
  | @kept f hnot hl =>
      refine ⟨f, rfl, congrArg Ledger.reports hl, (congrArg Ledger.fault hl).trans ?_⟩
      cases hpolicy : e.policy.onFault with
      | ignore | stop => rfl
      | restart program => exact absurd hpolicy (hnot program)
  | @refused f program why hpolicy hi hl =>
      -- whether a program is refused does not depend on the machine
      rw [m.reset.init_of_accepts (hp program hpolicy)] at hi
      cases hi
  | @restarted f program m' hpolicy hi hl =>
      refine ⟨f, rfl, congrArg Ledger.reports hl, ?_⟩
      rw [hpolicy]
      exact congrArg Ledger.fault hl

/-! ## Calls that meet a fault -/

section Steps

variable [Tracing]

/-- A step of a call that has met a fault is the last one, and the call ends by answering it. -/
theorem runSteps_of_fault {e : Engine α} {caller : Caller} {count : Nat} {s : Step}
    (hs : s ∈ e.steps caller count) {reason : Fault}
    (hfault : s.result = .error (.fault reason)) :
    ∃ done f, e.steps caller count = done ++ [s] ∧ (∀ d ∈ done, d.Completed) ∧
      e.Worked f ∧ f.machine = some s.machine ∧
      runSteps caller count e 0 =
        ⟨(f.fail caller s.machine reason).1, done.length, (f.fail caller s.machine reason).2⟩ := by
  obtain ⟨m, hm⟩ := Option.ne_none_iff_exists'.1 (machine_of_mem_steps hs)
  obtain ⟨done, last, f, hsteps, hdone, hw, hend⟩ := runSteps_end caller count hm 0
  -- the steps before the last have completed an instruction, and this one has not
  have hlast : s ∈ last := by
    rw [hsteps] at hs
    rcases List.mem_append.1 hs with hbefore | hlast
    · exact absurd (hdone s hbefore) (Step.not_completed_of_error hfault)
    · exact hlast
  rw [Nat.zero_add] at hend
  generalize runSteps caller count e 0 = ran at hend ⊢
  cases hend with
  | finished => cases hlast
  | @faulted t why ht hm =>
      obtain rfl := List.mem_singleton.1 hlast
      rw [hfault] at ht
      cases ht
      exact ⟨done, f, hsteps, hdone, hw, hm, rfl⟩
  | misfit ht hm =>
      obtain rfl := List.mem_singleton.1 hlast
      rw [hfault] at ht
      cases ht
  | waiting ht hm =>
      obtain rfl := List.mem_singleton.1 hlast
      rw [hfault] at ht
      cases ht

/-- A call that meets no fault works on the machine only. -/
theorem worked_runSteps {e : Engine α} {m : Machine} (hm : e.machine = some m)
    {caller : Caller} {count : Nat}
    (h : ∀ s ∈ e.steps caller count, ∀ reason, s.result ≠ .error (.fault reason)) :
    e.Worked (runSteps caller count e 0).engine := by
  obtain ⟨done, last, f, hsteps, -, hw, hend⟩ := runSteps_end caller count hm 0
  generalize runSteps caller count e 0 = ran at hend ⊢
  cases hend with
  | @faulted s reason hs hm =>
      refine absurd hs (h s ?_ reason)
      rw [hsteps]
      exact List.mem_append_right done (List.mem_singleton_self s)
  | finished | misfit _ _ | waiting _ _ => exact hw

/-- If a call for instructions meets a fault, then this is its last step, and all steps before it
have completed an instruction. Their number is returned and counted. The outside is told of this
fault and of nothing else; the engine keeps it, unless the policy is to reset and restart; and the
run under way, if there is one, has to stop and makes no more ticks. If the call meets no fault,
then no fault is told, and the one kept is still the same. The policy to restart needs a program
that can be loaded. -/
theorem runCycles_on_fault (e : Engine α) (caller : Caller) (count : Int)
    (hp : ∀ program, e.policy.onFault = .restart program → Memory.Accepts program) :
    let steps := e.steps caller count.toNat
    let after := (e.runCycles caller count).1
    (∀ m, e.machine = some m → ∀ i s, steps[i]? = some s →
      s = (m.after (List.replicate i .step)).step) ∧
    (∀ s ∈ steps, ∀ reason, s.result = .error (.fault reason) →
      ∃ done, steps = done ++ [s] ∧ (∀ d ∈ done, d.Completed) ∧
        (e.runCycles caller count).2 = .ok done.length ∧
        after.cycles = e.cycles + done.length ∧
        after.reports = reason :: e.reports ∧
        after.fault = e.policy.onFault.keeps reason ∧
        after.stopped e.generation = true ∧
        ∀ times, play e.generation times after = after.finish) ∧
    ((∀ s ∈ steps, ∀ reason, s.result ≠ .error (.fault reason)) →
      after.reports = e.reports ∧ after.fault = e.fault) := by
  intro steps after
  refine ⟨fun m hm i s => eq_step_of_steps hm, ?_, ?_⟩
  · intro s hs reason hfault
    obtain ⟨done, f, hsteps, hdone, hw, hmachine, hr⟩ := runSteps_of_fault hs hfault
    obtain ⟨asked, hf⟩ := hw
    have hpolicy : f.policy = e.policy := congrArg Ledger.policy hf
    have hgeneration : f.generation = e.generation := congrArg Ledger.generation hf
    obtain ⟨g, hfail, hreports, hkept⟩ := fail_of_accepts hmachine (hpolicy ▸ hp) caller reason
    obtain ⟨hstopped, hcycles⟩ := stopped_fail hmachine caller reason
    rw [hfail] at hr hstopped hcycles
    obtain ⟨m, hm⟩ := Option.ne_none_iff_exists'.1 (machine_of_mem_steps hs)
    obtain ⟨hl, hresult⟩ := runCycles_of_machine hm caller count
    rw [hr] at hl hresult
    have hstop : after.stopped e.generation = true := by
      rw [← hgeneration, stopped_congr (congrArg Ledger.generation hl)
        (congrArg Ledger.stopRequested hl)]
      exact hstopped
    refine ⟨done, hsteps, hdone, hresult, ?_, ?_, ?_, hstop, play_of_stopped hstop⟩
    · refine (congrArg Ledger.cycles hl).trans (congrArg (· + done.length) (hcycles.trans ?_))
      exact congrArg Ledger.cycles hf
    · refine (congrArg Ledger.reports hl).trans (hreports.trans (congrArg (reason :: ·) ?_))
      exact congrArg Ledger.reports hf
    · refine (congrArg Ledger.fault hl).trans (hkept.trans ?_)
      rw [hpolicy]
  · intro hnone
    cases hm : e.machine with
    | none =>
        have hafter : after = e := congrArg Prod.fst (runCycles_of_noMachine hm caller count)
        rw [hafter]
        exact ⟨rfl, rfl⟩
    | some m =>
        obtain ⟨asked, hf⟩ := worked_runSteps hm hnone
        have hl := (runCycles_of_machine hm caller count).1
        exact ⟨(congrArg Ledger.reports hl).trans (congrArg Ledger.reports hf),
          (congrArg Ledger.fault hl).trans (congrArg Ledger.fault hf)⟩

end Steps

open Tracing.Off in
/-- A program sets a register and returns from nowhere. The engine restarts with a program that
jumps to itself: one instruction is counted, and the run that met the fault is over. -/
theorem runCycles_on_fault_restart :
    ∃ new : Engine Number,
      create (.int 500) (.int 60) ⟨fun _ => 0, 0⟩ ⟨.restart [0x12, 0x00], none, none⟩ [[.int 1]] =
        .ok new ∧
      let e := (new.init [0x60, 0x01, 0x00, 0xEE]).1.start .outside
      let after := (e.runCycles .run 5).1
      e.isRunning = true ∧ Memory.Accepts [0x12, 0x00] ∧
        (e.runCycles .run 5).2 = .ok 1 ∧ after.cycles = 1 ∧
        after.reports = [.stackUnderflow 0x202] ∧ after.fault = none ∧
        after.stopped e.generation = true ∧ after.isRunning = true := by
  refine ⟨_, rfl, ?_⟩
  intro e after
  have hp : Memory.Accepts [0x12, 0x00] := by decide
  have hresults : (e.steps .run 5).map Step.result =
      [.ok (some 0x6001), .error (.fault (.stackUnderflow 0x202))] := by decide +kernel
  obtain ⟨first, rest, hsteps, -, hrest⟩ := List.map_eq_cons_iff.1 hresults
  obtain ⟨s, rfl, hfault⟩ := List.map_eq_singleton_iff.1 hrest
  have hmem : s ∈ e.steps .run 5 := by
    rw [hsteps]
    exact List.mem_cons_of_mem first (List.mem_singleton_self s)
  obtain ⟨-, hmet, -⟩ := runCycles_on_fault e .run 5 fun program h => by
    cases h
    exact hp
  obtain ⟨done, hdone, -, hresult, hcycles, hreports, hkept, hstopped, -⟩ :=
    hmet s hmem _ hfault
  have hlength : done.length = 1 := by
    have h := congrArg List.length (hsteps.symm.trans hdone)
    rw [List.length_append] at h
    exact (Nat.succ.inj h).symm
  rw [hlength] at hresult hcycles
  refine ⟨rfl, hp, hresult, hcycles, hreports, hkept, hstopped, ?_⟩
  decide +kernel

end Engine

end Chip8
