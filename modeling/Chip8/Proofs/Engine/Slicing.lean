import Chip8.Proofs.Engine.Fault
import Chip8.Proofs.Engine.Halt

/-!
# Calls in slices

A call for `a` instructions and then one for `b` do what one call for `a + b` does. The steps go on
where they broke off (`Engine.runSteps_add`): a request to stop is met again, and a key wait still
finds no press. Between the two calls the first one is counted and the buzzer set; no later step
looks at the count, the buzzer or the trail, so that this leaves no trace (`Engine.muted`).
-/

set_option autoImplicit false

namespace Chip8

/-- A step that only polls the keypad leaves the machine as it is. -/
theorem Machine.step_of_result_none [Tracing] {m : Machine} (h : m.step.result = .ok none) :
    m.step = ⟨m, [], .ok none⟩ := by
  cases hd : m.answered? with
  | none => exact step_of_unanswered hd
  | some d => exact absurd h (result_step_ne_none (ready_iff.2 ⟨d, hd⟩))

namespace Engine

variable {α : Type}

/-! ## What the steps do not look at -/

/-- The engine without its count of instructions, its buzzer and its trail. -/
def muted (e : Engine α) : Engine α :=
  { e with cycles := 0, soundOn := false, trail := [] }

@[simp] theorem muted_noteAll (e : Engine α) (entries : List Entry) :
    (e.noteAll entries).muted = e.muted := by
  induction entries generalizing e with
  | nil => rfl
  | cons entry rest ih => exact ih (e.note entry)

@[simp] theorem muted_setSound (e : Engine α) (on : Bool) : (e.setSound on).muted = e.muted := by
  unfold setSound
  by_cases h : on = e.soundOn
  · rw [if_pos h]
  · rw [if_neg h]
    rfl

@[simp] theorem muted_finish (e : Engine α) : e.finish.muted = e.muted.finish :=
  muted_setSound _ false

theorem muted_stop (e : Engine α) (caller : Caller) :
    (e.stop caller).muted = (e.muted.stop caller).muted := by
  unfold stop
  by_cases ha : e.phase = .absent
  · rw [if_pos ha, if_pos (show e.muted.phase = .absent from ha)]
    rfl
  · rw [if_neg ha, if_neg (show ¬ e.muted.phase = .absent from ha)]
    cases caller with
    | run => rfl
    | outside =>
        dsimp only
        by_cases hl : e.phase = .live
        · rw [if_pos hl, if_pos (show e.muted.phase = .live from hl)]
          have hfinish := (muted_finish { e with stopRequested := true }).trans
            (muted_finish { e.muted with stopRequested := true }).symm
          exact congrArg (fun f : Engine α => { f with phase := .absent }) hfinish
        · rw [if_neg hl, if_neg (show ¬ e.muted.phase = .live from hl)]
          rfl

/-- Engines that differ in what the steps do not look at may still agree there. -/
theorem eq_of_muted_eq {e f : Engine α} (h : e.muted = f.muted) (hc : e.cycles = f.cycles)
    (hs : e.soundOn = f.soundOn) : e = { f with trail := e.trail } := by
  have hrestored : e = { e.muted with
    cycles := e.cycles, soundOn := e.soundOn, trail := e.trail } := rfl
  rw [h, hc, hs] at hrestored
  exact hrestored

theorem muted_absorb (e : Engine α) (caller : Caller) (before after : Machine)
    (entries : List Entry) :
    (e.absorb caller before after entries).muted =
      (e.muted.absorb caller before after entries).muted := by
  have htaken : (e.taken after entries).muted = (e.muted.taken after entries).muted := by
    unfold taken
    rw [muted_noteAll, muted_noteAll]
    rfl
  by_cases h : e.policy.Stops before after
  · rw [absorb_of_stops caller entries h, absorb_of_stops (e := e.muted) caller entries h,
      muted_stop (e.taken after entries), htaken, ← muted_stop]
  · rw [absorb_of_not_stops caller entries h, absorb_of_not_stops (e := e.muted) caller entries h]
    exact htaken

/-- A step of a machine that goes on waiting leaves the engine as it is. -/
theorem absorb_self {e : Engine α} {m : Machine} (hm : e.machine = some m) (caller : Caller) :
    e.absorb caller m m [] = e := by
  rw [absorb_of_not_stops caller [] fun h => Nat.lt_irrefl _ h.drawn, taken, ← hm]
  rfl

variable [Quantity α]

/-- Without a handler a fault is kept and asks for a stop. -/
theorem muted_fail {e : Engine α} (hp : e.policy.onFault = .ignore) (caller : Caller) (m : Machine)
    (reason : Fault) :
    (e.fail caller m reason).1.muted =
        { e.muted with fault := some reason, stopRequested := true } ∧
      (e.fail caller m reason).2 = .ok () := by
  have hpolicy : (e.faulted m reason).policy.onFault = .ignore := hp
  rw [fail_eq, answerFault, hpolicy]
  exact ⟨rfl, rfl⟩

/-! ## Steps of engines that differ there -/

section Calls

variable [Tracing]

/-- Two calls without a handler go the same way, if their engines differ only in what the steps do
not look at; and whatever ran before is counted along. -/
theorem runSteps_congr {e f : Engine α} (h : e.muted = f.muted)
    (hp : e.policy.onFault = .ignore) (caller : Caller) (count k l : Nat) :
    ∃ n, (runSteps caller count e k).executed = k + n ∧
      (runSteps caller count f l).executed = l + n ∧
      (runSteps caller count e k).engine.muted = (runSteps caller count f l).engine.muted ∧
      (runSteps caller count e k).result = (runSteps caller count f l).result := by
  induction count generalizing e f k l with
  | zero => exact ⟨0, rfl, rfl, h, rfl⟩
  | succ count ih =>
      have hmachine := congrArg (fun e : Engine α => e.machine) h
      have hstopping := congrArg Engine.stopping h
      change e.machine = f.machine at hmachine
      change e.stopping = f.stopping at hstopping
      unfold runSteps
      rw [hstopping]
      by_cases hstop : f.stopping = true
      · rw [if_pos hstop, if_pos hstop]
        exact ⟨0, rfl, rfl, h, rfl⟩
      · rw [if_neg hstop, if_neg hstop, hmachine]
        cases f.machine with
        | none => exact ⟨0, rfl, rfl, h, rfl⟩
        | some m =>
            dsimp only
            have habsorb : (e.absorb caller m m.step.machine m.step.entries).muted =
                (f.absorb caller m m.step.machine m.step.entries).muted := by
              rw [muted_absorb e, h, ← muted_absorb f]
            have hpolicy : (e.absorb caller m m.step.machine m.step.entries).policy = e.policy := by
              obtain ⟨⟨asked, hl⟩, -⟩ := worked_absorb e caller m m.step.machine m.step.entries
              exact congrArg Ledger.policy hl
            generalize e.absorb caller m m.step.machine m.step.entries = e' at habsorb hpolicy ⊢
            generalize f.absorb caller m m.step.machine m.step.entries = f' at habsorb ⊢
            have hp' : e'.policy.onFault = .ignore := hpolicy ▸ hp
            rcases m.step.result with (reason | reason) | _ | w
            · have hpolicy' := congrArg (fun e : Engine α => e.policy.onFault) habsorb
              change e'.policy.onFault = f'.policy.onFault at hpolicy'
              obtain ⟨hfirst, hok⟩ := muted_fail hp' caller m.step.machine reason
              obtain ⟨hsecond, hok'⟩ :=
                muted_fail (hpolicy'.symm.trans hp') caller m.step.machine reason
              exact ⟨0, rfl, rfl, by rw [hfirst, hsecond, habsorb], hok.trans hok'.symm⟩
            · exact ⟨0, rfl, rfl, habsorb, rfl⟩
            · exact ⟨0, rfl, rfl, habsorb, rfl⟩
            · obtain ⟨n, hk, hl, hrest⟩ := ih habsorb hp' (k + 1) (l + 1)
              exact ⟨n + 1, hk.trans (by omega), hl.trans (by omega), hrest⟩

/-! ## Going on where a call has ended -/

/-- A call that is asked to stop takes no step. -/
theorem runSteps_of_stopping {e : Engine α} (hstop : e.stopping = true) (caller : Caller)
    (count executed : Nat) : runSteps caller count e executed = ⟨e, executed, .ok ()⟩ := by
  cases count with
  | zero => rfl
  | succ count => rw [runSteps, if_pos hstop]

/-- While the machine waits for a key, a call changes nothing. -/
theorem runSteps_of_waiting {e : Engine α} {m : Machine} (hm : e.machine = some m)
    (hwait : m.step.result = .ok none) (caller : Caller) (count executed : Nat) :
    runSteps caller count e executed = ⟨e, executed, .ok ()⟩ := by
  cases count with
  | zero => rfl
  | succ count =>
      by_cases hstop : e.stopping = true
      · exact runSteps_of_stopping hstop caller _ executed
      · rw [runSteps, if_neg hstop, hm]
        dsimp only
        rw [Machine.step_of_result_none hwait]
        dsimp only
        rw [absorb_self hm]

/-- After an instruction a call goes on with the remaining ones. -/
theorem runSteps_of_completed {e : Engine α} {m : Machine} (hm : e.machine = some m)
    (hready : ¬ e.stopping = true) {w : Word} (hw : m.step.result = .ok (some w)) (caller : Caller)
    (count executed : Nat) :
    runSteps caller (count + 1) e executed =
      runSteps caller count (e.absorb caller m m.step.machine m.step.entries) (executed + 1) := by
  rw [runSteps, if_neg hready, hm]
  dsimp only
  rw [hw]

/-- A call that meets no error leaves a machine, and can be interrupted anywhere: the remaining
steps are those of a second call. -/
theorem runSteps_add {e : Engine α} {m : Machine} (hm : e.machine = some m) {caller : Caller}
    {a : Nat} (hfree : ∀ s ∈ e.steps caller a, ∀ reason, s.result ≠ .error reason)
    (b executed : Nat) :
    (runSteps caller a e executed).engine.machine ≠ none ∧
      runSteps caller (a + b) e executed =
        runSteps caller b (runSteps caller a e executed).engine
          (runSteps caller a e executed).executed := by
  have hsome : e.machine ≠ none := Option.ne_none_iff_exists'.2 ⟨m, hm⟩
  induction a generalizing e m executed with
  | zero => exact ⟨hsome, by rw [Nat.zero_add, runSteps]⟩
  | succ a ih =>
      rw [Nat.add_right_comm]
      by_cases hstop : e.stopping = true
      · simp only [runSteps_of_stopping hstop, and_true]
        exact hsome
      · have hsteps := steps_of_machine hm hstop caller a
        rcases hresult : m.step.result with reason | _ | w
        · rw [hresult] at hsteps
          exact absurd hresult (hfree _ (hsteps ▸ List.mem_singleton_self _) reason)
        · simp only [runSteps_of_waiting hm hresult, and_true]
          exact hsome
        · rw [hresult] at hsteps
          have hmore : ∀ s ∈ (e.absorb caller m m.step.machine m.step.entries).steps caller a,
              ∀ reason, s.result ≠ .error reason :=
            fun s hs => hfree s (hsteps ▸ List.mem_cons_of_mem m.step hs)
          have hnext := (worked_absorb e caller m m.step.machine m.step.entries).2
          rw [runSteps_of_completed hm hstop hresult, runSteps_of_completed hm hstop hresult]
          exact ih hnext hmore (executed + 1) (Option.ne_none_iff_exists'.2 ⟨_, hnext⟩)

/-! ## Calls -/

/-- A call that is not broken off counts what has run and sets the buzzer. -/
theorem runCycles_of_ok {e : Engine α} {m : Machine} (hm : e.machine = some m) {caller : Caller}
    {count : Int} (hok : (runSteps caller count.toNat e 0).result = .ok ()) :
    let ran := runSteps caller count.toNat e 0
    (e.runCycles caller count).1.muted = ran.engine.muted ∧
      (e.runCycles caller count).1.cycles = e.cycles + ran.executed ∧
      (e.runCycles caller count).1.soundOn =
        (e.runCycles caller count).1.machine.any Machine.buzzing ∧
      (e.runCycles caller count).2 = .ok ran.executed := by
  intro ran
  have hcycles : ran.engine.cycles = e.cycles := cycles_runSteps hm caller count.toNat 0
  have hcalled : e.runCycles caller count =
      ({ ran.engine with cycles := ran.engine.cycles + ran.executed }.setSound
        (ran.engine.machine.any Machine.buzzing), .ok ran.executed) := by
    unfold runCycles
    rw [hm]
    dsimp only
    rw [hok]
  rw [hcalled]
  refine ⟨muted_setSound _ _, ?_, ?_, rfl⟩
  · rw [← hcycles]
    exact congrArg Ledger.cycles (ledger_setSound _ _)
  · simp only [soundOn_setSound, machine_setSound]

/-- Without a handler, a call on a machine in range is not broken off. -/
theorem result_runSteps {e : Engine α} {m : Machine} (hm : e.machine = some m) (h : m.InRange)
    (hp : e.policy.onFault = .ignore) (caller : Caller) (count : Nat) :
    (runSteps caller count e 0).result = .ok () := by
  obtain ⟨done, last, f, hsteps, -, ⟨asked, hf⟩, hend⟩ := runSteps_end caller count hm 0
  have hpolicy : f.policy = e.policy := congrArg Ledger.policy hf
  generalize runSteps caller count e 0 = ran at hend
  cases hend with
  | finished => rfl
  | waiting _ _ => rfl
  | faulted _ _ => exact (muted_fail (hpolicy ▸ hp) caller _ _).2
  | @misfit s reason hs _ =>
      have hmem : s ∈ e.steps caller count := by
        rw [hsteps]
        exact List.mem_append_right done (List.mem_singleton_self s)
      exact absurd hs (not_misfit_of_mem_steps hm h hmem reason)

/-- On a machine in range and without a handler, a call that meets no fault can be followed at once
by a second one: the two execute as many instructions as one call for all of them, and leave the
same engine. Only what the outside has heard may differ. The first call may have been cut short by
a key wait or a stop, and the second one may meet a fault. -/
theorem runCycles_add {e : Engine α} {m : Machine} (hm : e.machine = some m) (h : m.InRange)
    (hp : e.policy.onFault = .ignore) (caller : Caller) {a b : Int} (ha : 0 ≤ a) (hb : 0 ≤ b)
    (hfree : ∀ s ∈ e.steps caller a.toNat, ∀ reason, s.result ≠ .error (.fault reason)) :
    let first := e.runCycles caller a
    let second := first.1.runCycles caller b
    let single := e.runCycles caller (a + b)
    ∃ n k, first.2 = .ok n ∧ second.2 = .ok k ∧ single.2 = .ok (n + k) ∧
      second.1 = { single.1 with trail := second.1.trail } := by
  intro first second single
  have herrors : ∀ s ∈ e.steps caller a.toNat, ∀ reason, s.result ≠ .error reason := by
    intro s hs reason
    cases reason with
    | fault reason => exact hfree s hs reason
    | misfit reason => exact not_misfit_of_mem_steps hm h hs reason
  have hsum : (a + b).toNat = a.toNat + b.toNat := Int.toNat_add ha hb
  have hran := result_runSteps hm h hp caller (a + b).toNat
  obtain ⟨hmuted, hcycles, hsound, hresult⟩ := runCycles_of_ok hm hran
  obtain ⟨hmuted₁, hcycles₁, -, hresult₁⟩ :=
    runCycles_of_ok hm (result_runSteps hm h hp caller a.toNat)
  obtain ⟨hleft, hadd⟩ := runSteps_add hm herrors b.toNat 0
  obtain ⟨asked, hl⟩ := worked_runSteps hm hfree
  generalize runSteps caller a.toNat e 0 = ran at hmuted₁ hcycles₁ hresult₁ hleft hadd hl
  rw [hsum, hadd] at hran hmuted hcycles hresult
  -- the second call starts from what the first has left, with the count and the buzzer set
  have hpolicy := congrArg (fun e : Engine α => e.policy) hmuted₁
  have hmachine := congrArg (fun e : Engine α => e.machine) hmuted₁
  change first.1.policy = ran.engine.policy at hpolicy
  change first.1.machine = ran.engine.machine at hmachine
  have hkept : ran.engine.policy = e.policy := congrArg Ledger.policy hl
  obtain ⟨m', hm'⟩ := Option.ne_none_iff_exists'.1 (hmachine ▸ hleft)
  obtain ⟨k, hk, htotal, hends, hsame⟩ := runSteps_congr hmuted₁
    (by rw [hpolicy, hkept, hp]) caller b.toNat 0 ran.executed
  obtain ⟨hmuted₂, hcycles₂, hsound₂, hresult₂⟩ := runCycles_of_ok hm' (hsame.trans hran)
  rw [hk, Nat.zero_add] at hcycles₂ hresult₂
  rw [htotal] at hcycles hresult
  have hall : second.1.muted = single.1.muted := hmuted₂.trans (hends.trans hmuted.symm)
  refine ⟨ran.executed, k, hresult₁, hresult₂, hresult, eq_of_muted_eq hall ?_ ?_⟩
  · rw [hcycles, ← Nat.add_assoc, ← hcycles₁]
    exact hcycles₂
  · have hbuzzing := congrArg (fun e : Engine α => e.machine.any Machine.buzzing) hall
    exact hsound₂.trans (hbuzzing.trans hsound.symm)

end Calls

open Tracing.Off in
/-- A program sets the sound timer and returns from nowhere. The first call executes one
instruction; the second one starts the buzzer and meets the fault. -/
theorem runCycles_add_before_fault :
    ∃ new : Engine Number,
      create (.int 500) (.int 60) ⟨fun _ => 0, 0⟩ ⟨.ignore, none, none⟩ [] = .ok new ∧
      let e := (new.init [0x60, 0x05, 0xF0, 0x18, 0x00, 0xEE]).1
      let first := e.runCycles .outside 1
      let second := first.1.runCycles .outside 3
      let single := e.runCycles .outside (1 + 3)
      e.isRunning = false ∧ first.2 = .ok 1 ∧ second.2 = .ok 1 ∧ single.2 = .ok 2 ∧
        second.1 = { single.1 with trail := second.1.trail } ∧
        single.1.cycles = 2 ∧ single.1.soundOn = true ∧
        single.1.fault = some (.stackUnderflow 0x204) := by
  refine ⟨_, rfl, ?_⟩
  intro e
  let m := (Machine.fresh .idle ⟨fun _ => 0, 0⟩).after [.init [0x60, 0x05, 0xF0, 0x18, 0x00, 0xEE]]
  have hm : e.machine = some m := rfl
  have h : m.Reachable := (Machine.Reachable.fresh _ _).after (by decide)
  have hresults : (e.steps .outside 1).map Step.result = [.ok (some 0x6005)] := by decide +kernel
  have hfree : ∀ s ∈ e.steps .outside 1, ∀ reason, s.result ≠ .error (.fault reason) := by
    intro s hs reason hfault
    have hmem : s.result ∈ (e.steps .outside 1).map Step.result := List.mem_map_of_mem hs
    rw [hresults, List.mem_singleton, hfault] at hmem
    cases hmem
  have hn : (e.runCycles .outside 1).2 = .ok 1 := by decide +kernel
  have hk : ((e.runCycles .outside 1).1.runCycles .outside 3).2 = .ok 1 := by decide +kernel
  obtain ⟨n, k, hn', hk', hsum, hsame⟩ :=
    runCycles_add (a := 1) (b := 3) hm h.inRange rfl .outside (by decide) (by decide) hfree
  cases hn.symm.trans hn'
  cases hk.symm.trans hk'
  exact ⟨rfl, hn, hk, hsum, hsame, by decide +kernel, by decide +kernel, by decide +kernel⟩

end Engine

end Chip8
