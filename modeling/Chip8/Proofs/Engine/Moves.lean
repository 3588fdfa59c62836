import Chip8.Engine.Command
import Chip8.Proofs.Engine.Control

/-!
# The moves of calls

Whatever a call does to an engine it does by moves, one after the other: it works on the machine,
requests a stop, counts something, or stops or starts a run. `Engine.Moves` says so, with a lemma
for every function of the engine up to `Engine.moves_perform` for commands and `Engine.moves_tick`
for the ticks of a run. What every move keeps is therefore kept by every call.
-/

set_option autoImplicit false

namespace Chip8

namespace Engine

variable {α : Type} [Quantity α] [Tracing]

/-- What a call from `caller` makes of an engine, move by move. `odd` says whether operations are
among the moves that reach into the machine, and `counting` whether instructions and refreshes may
be counted. -/
inductive Moves (caller : Caller) (odd counting : Prop) : Engine α → Engine α → Prop where
  | quiet {e f : Engine α} (h : f.control = e.control) (hm : f.machine = e.machine) :
      Moves caller odd counting e f
  | work {e f : Engine α} {m : Machine} {o : Operation} (ho : odd ∨ o.isOrdinary = true)
      (hm : e.machine = some m) (h : f.control = e.control)
      (hf : f.machine = some (m.perform o).machine) : Moves caller odd counting e f
  | remove {e f : Engine α} (h : f.control = e.control) (hf : f.machine = none) :
      Moves caller odd counting e f
  | request {e f : Engine α} (h : f.control = { e.control with stopRequested := true })
      (hm : f.machine = e.machine) : Moves caller odd counting e f
  | count {e f : Engine α} {cycles refreshes : Nat} (hc : counting)
      (h : f.control = { e.control with cycles, refreshes }) (hm : f.machine = e.machine) :
      Moves caller odd counting e f
  | stop (e : Engine α) : Moves caller odd counting e (e.stop caller)
  | start (e : Engine α) : Moves caller odd counting e (e.start caller)
  | trans {e f g : Engine α} (hf : Moves caller odd counting e f)
      (hg : Moves caller odd counting f g) : Moves caller odd counting e g

theorem Moves.refl {caller : Caller} {odd counting : Prop} (e : Engine α) :
    e.Moves caller odd counting e :=
  .quiet rfl rfl

section Calls

variable {caller : Caller} {odd counting : Prop}

theorem moves_noteAll (e : Engine α) (entries : List Entry) :
    e.Moves caller odd counting (e.noteAll entries) :=
  .quiet (control_noteAll e entries) (machine_noteAll e entries)

theorem moves_init (e : Engine α) (program : List Int) :
    e.Moves caller odd counting (e.init program).1 := by
  rcases init_stages e program with h | ⟨m, m', entries, hm, hi, h⟩
  · rw [h]
    exact .refl e
  · rw [h]
    refine .work (o := .init program) (Or.inr rfl) hm (control_noteAll _ _) ?_
    rw [m.machine_perform_init hi]
    exact machine_noteAll _ entries

theorem moves_reset (e : Engine α) : e.Moves caller odd counting e.reset.1 := by
  unfold reset
  cases hm : e.machine with
  | none => exact .refl e
  | some m =>
      exact .work (o := .reset) (Or.inr rfl) hm (control_setSound _ false)
        (machine_setSound _ false)

/-- An operation on the machine may bring a stop with it. -/
theorem moves_absorb {e : Engine α} {m : Machine} (hm : e.machine = some m) {o : Operation}
    (ho : odd ∨ o.isOrdinary = true) (entries : List Entry) :
    e.Moves caller odd counting (e.absorb caller m (m.perform o).machine entries) := by
  have hwork : e.Moves caller odd counting (e.taken (m.perform o).machine entries) :=
    .work ho hm (control_taken _ _ _) (machine_taken _ _ _)
  rcases absorb_cases e caller m (m.perform o).machine entries with h | h
  · rw [h]
    exact hwork
  · rw [h]
    exact hwork.trans (.stop _)

/-- A tick of the timers counts a refresh, which may bring a stop with it. -/
theorem moves_tickTimers (hc : counting) (e : Engine α) :
    e.Moves caller odd counting (e.tickTimers caller).1 := by
  cases hm : e.machine with
  | none =>
      rw [tickTimers_of_noMachine hm]
      exact .refl e
  | some m =>
      have hwork : e.Moves caller odd counting
          { e with machine := some (m.perform .tick).machine } :=
        .work (o := .tick) (Or.inr rfl) hm rfl rfl
      have hticked : e.Moves caller odd counting (e.refreshed m) :=
        hwork.trans (.count hc (control_refreshed e m) (machine_refreshed e m))
      rcases tickTimers_cases hm caller with h | h
      · rw [h]
        exact hticked
      · rw [h]
        exact hticked.trans (.stop _)

theorem moves_answerFault (e : Engine α) :
    e.Moves caller odd counting (e.answerFault caller).1 := by
  have hreset : e.Moves caller odd counting e.reset.1 := moves_reset e
  rcases answerFault_stages e caller with h | h | h | ⟨program, h | h⟩ <;> rw [h]
  · exact .refl e
  · exact .stop e
  · exact hreset
  · exact hreset.trans (moves_init _ program)
  · exact (hreset.trans (moves_init _ program)).trans (.start _)

theorem moves_fail (e : Engine α) (m : Machine) (reason : Fault) :
    e.Moves caller odd counting (e.fail caller m reason).1 := by
  have hasked : e.Moves caller odd counting (e.faulted m reason) := .request rfl rfl
  exact hasked.trans (moves_answerFault _)

theorem moves_runSteps (count : Nat) (e : Engine α) (executed : Nat) :
    e.Moves caller odd counting (runSteps caller count e executed).engine := by
  refine runSteps_closed .refl .trans ?_ moves_fail count e executed
  intro e m hm
  exact moves_absorb (o := .step) hm (Or.inr rfl) m.step.entries

/-- A call for instructions counts, after its steps. -/
theorem moves_runCycles (hc : counting) (e : Engine α) (count : Int) :
    e.Moves caller odd counting (e.runCycles caller count).1 := by
  unfold runCycles
  cases hm : e.machine with
  | none => exact .refl e
  | some m =>
      have hran : e.Moves caller odd counting (runSteps caller count.toNat e 0).engine :=
        moves_runSteps count.toNat e 0
      dsimp only
      cases hr : (runSteps caller count.toNat e 0).result with
      | error reason => exact hran
      | ok done =>
          exact hran.trans (.count hc (control_setSound _ _) (machine_setSound _ _))

theorem moves_cpuTick (hc : counting) (e : Engine α) (dt : α) :
    e.Moves caller odd counting (e.cpuTick caller dt).1 := by
  unfold cpuTick
  rcases Pace.slice e.rate e.timerRate e.budget dt with ⟨budget, reason | count⟩
  · exact .quiet rfl rfl
  · have hcalled : e.Moves caller odd counting ({ e with budget }.runCycles caller count).1 :=
      .trans (f := { e with budget }) (.quiet rfl rfl) (moves_runCycles hc _ count)
    dsimp only
    cases hr : runCycles { e with budget } caller count with
    | mk f result =>
        rw [hr] at hcalled
        cases result with
        | error reason => exact hcalled
        | ok executed =>
            dsimp only
            by_cases hlt : (executed : Int) < count
            · rw [if_pos hlt]
              exact hcalled.trans (.quiet rfl rfl)
            · rw [if_neg hlt]
              exact hcalled

theorem moves_operate (e : Engine α) {o : Operation} (ho : odd ∨ o.isOrdinary = true) :
    e.Moves caller odd counting (e.operate caller o).1 := by
  cases hm : e.machine with
  | none =>
      rcases operate_of_noMachine hm caller o with h | ⟨target, h⟩
      · rw [h]
        exact .refl e
      · rw [h]
        exact .quiet rfl rfl
  | some m =>
      rw [operate_of_machine hm]
      exact moves_absorb hm ho (m.perform o).entries

theorem moves_loadFile (e : Engine α) (tree : Node) (path : String) :
    e.Moves caller odd counting (e.loadFile tree path).1 := by
  have hread : e.Moves caller odd counting (e.readProgram tree path).1 := moves_noteAll e _
  rcases loadFile_stages e tree path with h | ⟨program, h⟩
  · rw [h]
    exact hread
  · rw [h]
    exact hread.trans (moves_init _ program)

theorem moves_destroy (e : Engine α) : e.Moves .outside odd counting e.destroy :=
  .trans (.stop e) (.remove rfl rfl)

theorem moves_runFile (e : Engine α) (tree : Node) (path : String) :
    e.Moves .outside odd counting (e.runFile tree path).1 := by
  obtain ⟨base, hbase, hend⟩ := runFile_stages e tree path
  have hread : e.Moves .outside odd counting (e.readProgram tree path).1 := moves_noteAll e _
  -- whether a run is stopped and wiped first or not, it is moves up to the loading
  have hwiped : e.Moves .outside odd counting base := by
    rcases hbase with rfl | rfl
    · exact hread
    · exact (hread.trans (.stop _)).trans (moves_reset _)
  rcases hend with h | ⟨program, h | h⟩ <;> rw [h]
  · exact hwiped
  · exact hwiped.trans (moves_init base program)
  · exact (hwiped.trans (moves_init base program)).trans (.start _)

end Calls

/-- What a tick of a run does after it has been counted. -/
theorem moves_tick {odd counting : Prop} (hc : counting) (id : Nat) (e : Engine α) (dt : α) :
    e.countTick.Moves .run odd counting (e.tick id dt).1 := by
  have hstages := tick_stages e id dt
  have hticked : e.countTick.Moves .run odd counting (e.countTick.tickTimers .run).1 :=
    moves_tickTimers hc e.countTick
  generalize e.tick id dt = ticked at hstages ⊢
  cases hstages with
  | stopped hstop | noMachine hgo hm => exact .refl _
  | halted hgo ht hstop =>
      rw [ht] at hticked
      exact hticked
  | sliced hgo ht hgo' =>
      rw [ht] at hticked
      exact hticked.trans (moves_cpuTick hc _ dt)

end Engine

/-! ## Commands -/

/-- Whether a command does not reach into the machine. -/
def Command.isOrdinary {α : Type} : Command α → Bool
  | .operate o => o.isOrdinary
  | _ => true

namespace Engine

variable {α : Type} [Quantity α] [Tracing]

theorem moves_perform {odd counting : Prop} (hc : counting) {c : Command α}
    (ho : odd ∨ c.isOrdinary = true) (e : Engine α) (files : Node) :
    e.Moves .outside odd counting (e.perform files c).1 := by
  cases c with
  | init program => exact moves_init e program
  | reset => exact moves_reset e
  | loadFile path => exact moves_loadFile e files path
  | runFile path => exact moves_runFile e files path
  | start => exact .start e
  | stop => exact .stop e
  | destroy => exact moves_destroy e
  | tickTimers => exact moves_tickTimers hc e
  | runCycles count => exact moves_runCycles hc e count
  | cpuTick dt => exact moves_cpuTick hc e dt
  | operate o => exact moves_operate e ho

/-! ## What moves keep -/

section Moves

variable {caller : Caller} {odd counting : Prop} {e f : Engine α}

theorem Moves.policy (h : e.Moves caller odd counting f) : f.policy = e.policy := by
  induction h with
  | quiet h _ | work _ _ h _ | remove h _ | request h _ | count _ h _ =>
      exact congrArg Control.policy h
  | stop e => exact congrArg Ledger.policy (ledger_stop e caller)
  | start e => exact congrArg Ledger.policy (ledger_start e caller)
  | trans _ _ hf hg => exact hg.trans hf

theorem Moves.timerRate (h : e.Moves caller odd counting f) : f.timerRate = e.timerRate := by
  induction h with
  | quiet h _ | work _ _ h _ | remove h _ | request h _ | count _ h _ =>
      exact congrArg Control.timerRate h
  | stop e => exact congrArg Ledger.timerRate (ledger_stop e caller)
  | start e => exact congrArg Ledger.timerRate (ledger_start e caller)
  | trans _ _ hf hg => exact hg.trans hf

theorem Moves.later (h : e.Moves caller odd counting f) : e.Later f := by
  induction h with
  | quiet h _ | work _ _ h _ | remove h _ | count _ h _ =>
      refine .of_eq (congrArg Control.generation h) fun hs => ?_
      exact (congrArg Control.stopRequested h).trans hs
  | request h _ =>
      exact .of_eq (congrArg Control.generation h) fun _ => congrArg Control.stopRequested h
  | stop e =>
      have hl := ledger_stop e caller
      exact .of_eq (congrArg Ledger.generation hl) fun _ => congrArg Ledger.stopRequested hl
  | start e =>
      have hg : (e.start caller).generation = e.generation + 1 :=
        congrArg Ledger.generation (ledger_start e caller)
      exact ⟨by omega, fun heq => absurd (hg.symm.trans heq) (Nat.succ_ne_self _)⟩
  | trans _ _ hf hg => exact hf.trans hg

/-- Moves that may not count leave the counts as they are. -/
theorem Moves.counts (h : e.Moves caller odd False f) :
    f.cycles = e.cycles ∧ f.refreshes = e.refreshes := by
  induction h with
  | quiet h _ | work _ _ h _ | remove h _ | request h _ =>
      exact ⟨congrArg Control.cycles h, congrArg Control.refreshes h⟩
  | count hc _ _ => exact hc.elim
  | stop e =>
      exact ⟨congrArg Ledger.cycles (ledger_stop e caller), refreshes_stop e caller⟩
  | start e =>
      exact ⟨congrArg Ledger.cycles (ledger_start e caller), refreshes_start e caller⟩
  | trans _ _ hf hg => exact ⟨hg.1.trans hf.1, hg.2.trans hf.2⟩

/-- Moves that do not reach into the machine keep it reachable. -/
theorem Moves.sane (h : e.Moves caller False counting f) : e.Sane → f.Sane := by
  induction h with
  | quiet _ hm | request _ hm | count _ _ hm => exact fun he => he.congr hm
  | work ho hm _ hf => exact fun he => he.of_perform hm (ho.resolve_left not_false) hf
  | remove _ hf =>
      intro _ m hm
      cases hf.symm.trans hm
  | stop e => exact fun he => he.congr (congrArg Ledger.machine (ledger_stop e caller))
  | start e => exact fun he => he.congr (congrArg Ledger.machine (ledger_start e caller))
  | trans _ _ hf hg => exact fun he => hg (hf he)

end Moves

/-- From outside no run comes under way but by a start, which gives it a new number. -/
theorem Moves.alive {odd counting : Prop} {e f : Engine α} (h : e.Moves .outside odd counting f)
    (hg : f.generation = e.generation) (hf : f.phase.alive = true) : e.phase.alive = true := by
  induction h with
  | quiet h _ | work _ _ h _ | remove h _ | request h _ | count _ h _ =>
      exact (congrArg (fun c : Control α => c.phase.alive) h).symm.trans hf
  | stop e =>
      rw [show (e.stop .outside).phase = .absent from
        congrArg Control.phase (control_stop_outside e)] at hf
      cases hf
  | start e =>
      have hnew : (e.start .outside).generation = e.generation + 1 :=
        congrArg Ledger.generation (ledger_start e .outside)
      omega
  | @trans e f g hef hfg ihf ihg =>
      have hle := hef.later.generation
      have hle' := hfg.later.generation
      exact ihf (by omega) (ihg (by omega) hf)

theorem Moves.onward {odd counting : Prop} {e f : Engine α}
    (h : e.Moves .run odd counting f) : e.Onward f := by
  induction h with
  | quiet h _ | work _ _ h _ | remove h _ | request h _ | count _ h _ => exact .of_control h
  | stop e => exact .of_control (control_stop_run e)
  | start e =>
      have h := control_start_run e
      have hg : (e.start .run).generation = e.generation + 1 := congrArg Control.generation h
      exact ⟨congrArg Control.timerRate h, congrArg Control.schedule h,
        congrArg Control.clocks h, Or.inr ⟨by omega, congrArg Control.phase h⟩⟩
  | trans _ _ hf hg => exact hf.trans hg

theorem onward_tickTimers (e : Engine α) : e.Onward (e.tickTimers .run).1 := by
  have h : e.Moves .run True True (e.tickTimers .run).1 := moves_tickTimers trivial e
  exact h.onward

theorem onward_tick (id : Nat) (e : Engine α) (dt : α) :
    e.countTick.Onward (e.tick id dt).1 := by
  have h : e.countTick.Moves .run True True (e.tick id dt).1 := moves_tick trivial id e dt
  exact h.onward

end Engine

end Chip8
