import Chip8.Number.Basic
import Chip8.Proofs.Engine.Deeds
import Chip8.Proofs.Engine.Fault

/-!
# The count of instructions

An engine counts the instructions of a call when the call is over. If the call is broken off then
what it has executed is not counted. On a reachable machine there is one way to break a call off:
after a fault the policy asks for a restart with a program that the machine refuses.
`Engine.cycles_add_lost` gives the count after every history, and says which instructions are
missing from it; if the program of the policy is accepted then none are
(`Engine.Led.cycles_of_accepts`).
-/

set_option autoImplicit false

namespace Chip8

variable {α : Type} [Quantity α]

namespace Engine

variable [Tracing]

/-- A call on a reachable machine is broken off exactly if it meets a fault that is answered by a
restart with a program which no machine takes. -/
theorem runSteps_error_iff {e : Engine α} {m : Machine} (hm : e.machine = some m)
    (h : m.Reachable) (caller : Caller) (count : Nat) :
    (∃ why, (runSteps caller count e 0).result = .error why) ↔
      ∃ program, e.policy.onFault = .restart program ∧ ¬ Memory.Accepts program ∧
        ∃ s ∈ e.steps caller count, ∃ reason, s.result = .error (.fault reason) := by
  constructor
  · rintro ⟨why, hwhy⟩
    obtain ⟨done, last, f, hsteps, -, ⟨asked, hf⟩, hend⟩ := runSteps_end caller count hm 0
    have hmem : ∀ s ∈ last, s ∈ e.steps caller count := by
      intro s hs
      rw [hsteps]
      exact List.mem_append_right done hs
    have hpolicy : f.policy = e.policy := congrArg Ledger.policy hf
    generalize runSteps caller count e 0 = ran at hend hwhy
    cases hend with
    | finished => cases hwhy
    | waiting _ _ => cases hwhy
    | misfit hs _ =>
        -- a reachable machine meets no misfit
        have hmet := hmem _ (List.mem_singleton_self _)
        exact absurd hs (not_misfit_of_mem_steps hm h.inRange hmet _)
    | @faulted s reason hs hfm =>
        have hanswer := fail_answer hfm caller reason
        generalize f.fail caller s.machine reason = p at hanswer hwhy
        cases hanswer with
        | kept _ _ => cases hwhy
        | restarted _ _ _ => cases hwhy
        | @refused _ program _ hp hi _ =>
            refine ⟨program, hpolicy ▸ hp, ?_, s, hmem s (List.mem_singleton_self s), reason, hs⟩
            intro haccepts
            rw [s.machine.reset.init_of_accepts haccepts] at hi
            cases hi
  · rintro ⟨program, hprogram, hrefuses, s, hs, reason, hfault⟩
    obtain ⟨done, f, -, -, ⟨asked, hf⟩, hfm, hran⟩ := runSteps_of_fault hs hfault
    have hpolicy : f.policy.onFault = .restart program :=
      (congrArg (fun l : Ledger α => l.policy.onFault) hf).trans hprogram
    have hanswer := fail_answer hfm caller reason
    rw [hran]
    generalize f.fail caller s.machine reason = p at hanswer ⊢
    cases hanswer with
    | kept hp _ => exact absurd hpolicy (hp program)
    | refused _ _ _ => exact ⟨_, rfl⟩
    | restarted hp hi _ =>
        cases hpolicy.symm.trans hp
        exact absurd (Machine.accepts_of_init hi) hrefuses

end Engine

namespace Deed

variable [Tracing]

/-- A deed that has made a reachable machine take steps is broken off exactly if one of them meets
a fault, and the program to restart with is refused. -/
theorem brokenOff_iff {d : Deed α} (h : d.before.Sane) (hsteps : d.steps ≠ []) :
    d.brokenOff = true ↔
      ∃ program, d.before.policy.onFault = .restart program ∧ ¬ Memory.Accepts program ∧
        ∃ s ∈ d.steps, ∃ reason, s.result = .error (.fault reason) := by
  unfold brokenOff outcome
  unfold steps at hsteps ⊢
  cases hjob : d.job with
  | begin | tickTimers =>
      rw [hjob] at hsteps
      exact absurd rfl hsteps
  | runCycles count =>
      rw [hjob] at hsteps
      obtain ⟨s, hs⟩ := List.exists_mem_of_ne_nil _ hsteps
      obtain ⟨m, hm⟩ := Option.ne_none_iff_exists'.1 (Engine.machine_of_mem_steps hs)
      have hresult := (Engine.runCycles_of_machine hm (.ofRun d.run) count).2
      dsimp only
      rw [← Engine.runSteps_error_iff hm (h m hm), hresult]
      cases (Engine.runSteps (.ofRun d.run) count.toNat d.before 0).result with
      | ok done => simp only [Except.map, Bool.false_eq_true, reduceCtorEq, exists_false]
      | error why => simp only [Except.map, Except.error.injEq, exists_eq']

/-- If every restart succeeds then a deed counts all the instructions that it has carried out. -/
theorem counted_of_accepts {d : Deed α} (h : d.before.Sane)
    (hp : ∀ program, d.before.policy.onFault = .restart program → Memory.Accepts program) :
    d.counted = d.instructions.length := by
  unfold counted
  by_cases hbroken : d.brokenOff = true
  · have hnone : d.steps = [] := by
      by_contra hsteps
      obtain ⟨program, hprogram, hrefuses, -⟩ := (brokenOff_iff h hsteps).1 hbroken
      exact hrefuses (hp program hprogram)
    rw [if_pos hbroken, instructions, hnone]
    rfl
  · rw [if_neg hbroken]

end Deed

namespace Engine

section Histories

variable [Tracing]

/-- The instructions that were carried out by deeds which were broken off. -/
def lost (deeds : List (Deed α)) : List Word :=
  (deeds.filter Deed.brokenOff).flatMap Deed.instructions

/-- What is counted and what is lost is all that was carried out. -/
theorem sum_counted (deeds : List (Deed α)) :
    (deeds.map Deed.counted).sum + (lost deeds).length =
      (deeds.flatMap Deed.instructions).length := by
  induction deeds with
  | nil => rfl
  | cons d rest ih =>
      unfold lost at ih ⊢
      rw [List.map_cons, List.sum_cons, List.flatMap_cons, List.length_append, ← ih, Deed.counted]
      by_cases hbroken : d.brokenOff = true
      · rw [if_pos hbroken, List.filter_cons_of_pos hbroken, List.flatMap_cons,
          List.length_append]
        omega
      · rw [if_neg hbroken, List.filter_cons_of_neg hbroken]
        omega

/-- If every restart succeeds then every instruction is counted. -/
theorem Led.cycles_of_accepts {e f : Engine α} {deeds : List (Deed α)} (h : Led False e deeds f)
    (he : e.Sane)
    (hp : ∀ program, e.policy.onFault = .restart program → Memory.Accepts program) :
    f.cycles = e.cycles + (deeds.flatMap Deed.instructions).length := by
  have hcounted : deeds.map Deed.counted = deeds.map fun d => d.instructions.length := by
    refine List.map_congr_left fun d hd => Deed.counted_of_accepts ((h.sane he).2 d hd) ?_
    rw [h.policy.2 d hd]
    exact hp
  rw [h.cycles, hcounted, List.length_flatMap]

theorem sane_create {rate timerRate : α} {random : RandomSource} {policy : Policy}
    {schedule : List (List α)} {new : Engine α}
    (h : create rate timerRate random policy schedule = .ok new) : new.Sane := by
  intro m hm
  cases (eq_of_create h).1.symm.trans hm
  exact .fresh .idle random

/-- Whatever has happened to a new engine, its count and the instructions that were lost make up
all the instructions that were carried out since it was created, by runs and by calls from
outside. An instruction is lost if the call that has carried it out was broken off. As long as
nothing reaches into the machine, this happens exactly if the call meets a fault and the policy is
to restart with a program that is refused. -/
theorem cycles_add_lost {rate timerRate : α} {random : RandomSource} {policy : Policy}
    {schedule : List (List α)} {new : Engine α}
    (hc : create rate timerRate random policy schedule = .ok new)
    (history : List (Occurrence α)) :
    let deeds := new.deeds history
    (new.after history).cycles + (lost deeds).length =
        (deeds.flatMap Deed.instructions).length ∧
      (∀ d ∈ deeds, ∀ m, d.before.machine = some m → ∀ i s, d.steps[i]? = some s →
        s = (m.after (List.replicate i .step)).step) ∧
      ((∀ o ∈ history, o.isOrdinary = true) → ∀ d ∈ deeds, d.steps ≠ [] →
        (d.brokenOff = true ↔
          ∃ program, policy.onFault = .restart program ∧ ¬ Memory.Accepts program ∧
            ∃ s ∈ d.steps, ∃ reason, s.result = .error (.fault reason))) := by
  intro deeds
  obtain ⟨-, hcontrol⟩ := eq_of_create hc
  refine ⟨?_, ?_, ?_⟩
  · have hled : Led True new deeds (new.after history) :=
      led_after (fun _ _ => Or.inl trivial) new
    have hzero : new.cycles = 0 := congrArg Control.cycles hcontrol
    rw [hled.cycles, hzero, Nat.zero_add]
    exact sum_counted deeds
  · intro d _ m hm i s hs
    unfold Deed.steps at hs
    cases hjob : d.job with
    | begin | tickTimers =>
        rw [hjob] at hs
        cases hs
    | runCycles count =>
        rw [hjob] at hs
        exact eq_step_of_steps hm hs
  · intro ho d hd hsteps
    have hled : Led False new deeds (new.after history) :=
      led_after (fun o hmem => Or.inr (ho o hmem)) new
    have hpolicy : d.before.policy = policy :=
      (hled.policy.2 d hd).trans (congrArg Control.policy hcontrol)
    rw [← hpolicy]
    exact Deed.brokenOff_iff ((hled.sane (sane_create hc)).2 d hd) hsteps

end Histories

open Tracing.Off in
/-- A program sets two registers and returns from nowhere, and the policy is to restart with an
empty program. The first call for one instruction counts it. The second call sets the other
register and meets the fault, and its instruction is lost. -/
theorem cycles_add_lost_refused_restart :
    ∃ new : Engine Number,
      create (.int 500) (.int 60) ⟨fun _ => 0, 0⟩ ⟨.restart [], none, none⟩ [] = .ok new ∧
      let history := [.command .emptyDirectory (.init [0x60, 0x01, 0x61, 0x02, 0x00, 0xEE]),
        .command .emptyDirectory (.runCycles 1), .command .emptyDirectory (.runCycles 5)]
      let deeds := new.deeds history
      deeds.flatMap Deed.instructions = [0x6001, 0x6102] ∧ lost deeds = [0x6102] ∧
        (new.after history).cycles = 1 ∧ deeds.map Deed.brokenOff = [false, true] ∧
        ∀ d ∈ deeds, d.brokenOff = true →
          ∃ s ∈ d.steps, ∃ reason, s.result = .error (.fault reason) := by
  refine ⟨_, rfl, ?_⟩
  intro history deeds
  have hnew : create (.int 500 : Number) (.int 60) ⟨fun _ => 0, 0⟩ ⟨.restart [], none, none⟩ [] =
    .ok _ := rfl
  obtain ⟨hcount, -, hbroken⟩ := cycles_add_lost hnew history
  have hall : deeds.flatMap Deed.instructions = [0x6001, 0x6102] := by decide +kernel
  have hlost : lost deeds = [0x6102] := by decide +kernel
  refine ⟨hall, hlost, ?_, by decide +kernel, ?_⟩
  · rw [hlost, hall] at hcount
    exact Nat.succ.inj hcount
  · intro d hd hdbroken
    have hordinary : ∀ o ∈ history, o.isOrdinary = true := by decide +kernel
    have hsteps : ∀ d ∈ deeds, d.steps.isEmpty = false := by decide +kernel
    have hsome : d.steps ≠ [] := List.isEmpty_eq_false_iff.1 (hsteps d hd)
    obtain ⟨program, -, -, hfault⟩ := (hbroken hordinary d hd hsome).1 hdbroken
    exact hfault

open Tracing.Off in
/-- A run carries an instruction out on its first tick and meets a fault, whose restart is refused:
nothing is counted. -/
theorem cycles_zero_of_refused_restart :
    ∃ new : Engine Number,
      create (.int 60) (.int 60) ⟨fun _ => 0, 0⟩ ⟨.restart [], none, none⟩ [[.real 1.0]] =
        .ok new ∧
      let history := [.command .emptyDirectory (.init [0x60, 0x01, 0x00, 0xEE]),
        .command .emptyDirectory .start]
      (new.after history).cycles = 0 ∧
        (new.deeds history).flatMap Deed.instructions = [0x6001] :=
  ⟨_, rfl, by decide +kernel, by decide +kernel⟩

end Engine

end Chip8
