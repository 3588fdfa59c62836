import Chip8.Proofs.Engine.Deeds
import Chip8.Proofs.Engine.Scheduler

/-!
# Silence after a run

The end of a run switches the buzzer off. It then stays off until the timers are ticked or
instructions are called for: between such deeds the buzzer is never switched on
(`Engine.Subdued`, `Engine.Hushed`). What a deed itself does may end a run, too; either this
switches the buzzer off, or the deed leaves it off (`Deed.endsSilently`). So whenever a run has
ended since the last deed began, the buzzer is off (`Engine.silent_of_ended`).
-/

set_option autoImplicit false

namespace Chip8

/-- A program that has just been loaded into a reset machine does not buzz. -/
theorem Machine.buzzing_of_init {m m' : Machine} {program : List Int}
    (h : m.reset.init program = .ok m') : m'.buzzing = false := by
  rcases init_cases program with ⟨reason, hi⟩ | ⟨bytes, hi⟩
  · cases (hi m.reset).symm.trans h
  · cases (hi m.reset).symm.trans h
    rfl

/-- A run that is neither pending nor live is not under way. -/
theorem Phase.alive_eq_false {p : Phase} (hp : p ≠ .pending) (hl : p ≠ .live) :
    p.alive = false := by
  cases p with
  | pending => exact absurd rfl hp
  | live => exact absurd rfl hl
  | _ => rfl

namespace Engine

variable {α : Type}

/-! ## Ends of runs -/

/-- The run of a given number has ended, or was superseded by a later one. -/
def HasEnded (e : Engine α) (id : Nat) : Prop :=
  id < e.generation ∨ id = e.generation ∧ e.phase.alive = false

instance (e : Engine α) (id : Nat) : Decidable (e.HasEnded id) :=
  inferInstanceAs (Decidable (_ ∨ _))

theorem hasEnded_congr {e f : Engine α} (hg : f.generation = e.generation)
    (hp : f.phase.alive = e.phase.alive) (id : Nat) : f.HasEnded id ↔ e.HasEnded id := by
  rw [HasEnded, HasEnded, hg, hp]

/-- If the buzzer is on, then no run has ended between two states of an engine. -/
def EndsSilently (e f : Engine α) : Prop :=
  f.soundOn = true → ∀ id, f.HasEnded id → e.HasEnded id

/-- Between two states of an engine the buzzer was not switched on, and it was switched off if a
run has ended. -/
structure Subdued (e f : Engine α) : Prop where
  soundOn : f.soundOn = true → e.soundOn = true
  ends : e.EndsSilently f

theorem Subdued.of_silent {e f : Engine α} (h : f.soundOn = false) : e.Subdued f := by
  constructor
  · intro hon
    cases h.symm.trans hon
  · intro hon
    cases h.symm.trans hon

theorem Subdued.of_eq {e f : Engine α} (hs : f.soundOn = e.soundOn)
    (hg : f.generation = e.generation) (hp : f.phase.alive = e.phase.alive) : e.Subdued f where
  soundOn hon := hs.symm.trans hon
  ends _ id hid := (hasEnded_congr hg hp id).1 hid

theorem Subdued.refl (e : Engine α) : e.Subdued e :=
  .of_eq rfl rfl rfl

theorem Subdued.trans {e f g : Engine α} (hf : e.Subdued f) (hg : f.Subdued g) :
    e.Subdued g where
  soundOn hon := hf.soundOn (hg.soundOn hon)
  ends hon id hid := hf.ends (hg.soundOn hon) id (hg.ends hon id hid)

theorem EndsSilently.trans {e f g : Engine α} (hf : e.EndsSilently f) (hg : f.Subdued g) :
    e.EndsSilently g := by
  intro hon id hid
  exact hf (hg.soundOn hon) id (hg.ends hon id hid)

/-! ## Control -/

@[simp] theorem soundOn_noteAll (e : Engine α) (entries : List Entry) :
    (e.noteAll entries).soundOn = e.soundOn := by
  induction entries generalizing e with
  | nil => rfl
  | cons entry rest ih => exact ih (e.note entry)

theorem subdued_noteAll (e : Engine α) (entries : List Entry) :
    e.Subdued (e.noteAll entries) := by
  have hkept := control_noteAll e entries
  exact .of_eq (soundOn_noteAll e entries) (congrArg Control.generation hkept)
    (congrArg (fun c : Control α => c.phase.alive) hkept)

theorem soundOn_finish (e : Engine α) : e.finish.soundOn = false :=
  soundOn_setSound _ false

/-- A stop switches the buzzer off if it ends a run. -/
theorem subdued_stop {e : Engine α} (hp : e.phase ≠ .pending) (caller : Caller) :
    e.Subdued (e.stop caller) := by
  have hstages := stop_stages e caller
  generalize e.stop caller = f at hstages ⊢
  cases hstages with
  | absent _ | within _ => exact .of_eq rfl rfl rfl
  | live _ hf =>
      subst hf
      exact .of_silent (soundOn_finish _)
  | ended _ hl =>
      -- the run to wait for has ended by itself
      exact .of_eq rfl rfl (Phase.alive_eq_false hp hl).symm

theorem phase_stop_outside (e : Engine α) : (e.stop .outside).phase = .absent :=
  congrArg Control.phase (control_stop_outside e)

theorem subdued_absorb {e : Engine α} (hp : e.phase ≠ .pending) (caller : Caller)
    (before after : Machine) (entries : List Entry) :
    e.Subdued (e.absorb caller before after entries) := by
  have hworked : e.Subdued (e.taken after entries) := by
    refine .trans ?_ (subdued_noteAll _ entries)
    exact .of_eq rfl rfl rfl
  have hphase : (e.taken after entries).phase = e.phase :=
    congrArg Control.phase (control_taken e after entries)
  rcases absorb_cases e caller before after entries with h | h
  · rw [h]
    exact hworked
  · rw [h]
    exact hworked.trans (subdued_stop (hphase ▸ hp) caller)

theorem subdued_operate [Tracing] {e : Engine α} (hp : e.phase ≠ .pending) (o : Operation) :
    e.Subdued (e.operate .outside o).1 := by
  cases hm : e.machine with
  | none =>
      rcases operate_of_noMachine hm .outside o with h | ⟨target, h⟩
      · rw [h]
        exact .refl e
      · rw [h]
        exact .of_eq rfl rfl rfl
  | some m =>
      rw [operate_of_machine hm]
      exact subdued_absorb hp .outside m _ _

variable [Quantity α]

/-- The period of the timers can be computed, so that a run can make its clock. -/
def HasPeriod (e : Engine α) : Prop :=
  ∃ period, Quantity.div (Quantity.one : α) e.timerRate = .ok period

theorem HasPeriod.congr {e f : Engine α} (h : e.HasPeriod) (ht : f.timerRate = e.timerRate) :
    f.HasPeriod := by
  unfold HasPeriod
  rw [ht]
  exact h

theorem openClock_ne_none {e : Engine α} (h : e.HasPeriod) (later : List (List α)) :
    e.openClock later ≠ none := by
  obtain ⟨period, hperiod⟩ := h
  unfold openClock
  rw [hperiod]
  nofun

theorem subdued_openClock {e f : Engine α} {later : List (List α)} (hp : e.phase = .pending)
    (ho : e.openClock later = some f) : e.Subdued f := by
  obtain ⟨period, -, rfl⟩ := openClock_eq ho
  exact .of_eq rfl rfl (congrArg Phase.alive hp).symm

theorem subdued_rest (e : Engine α) (id : Nat) : e.Subdued (e.rest id) := by
  rcases rest_cases e id with h | h
  · rw [h]
    exact .of_silent (soundOn_finish e)
  · rw [h]
    exact .refl e

theorem subdued_enter {e : Engine α} (hp : e.phase = .pending) (h : e.HasPeriod) :
    e.Subdued e.enter := by
  have hstages := enter_stages e
  generalize e.enter = f at hstages ⊢
  cases hstages with
  | ticking _ => exact .refl e
  | noClock _ ho => exact absurd ho (openClock_ne_none h _)
  | idle _ ho => exact (subdued_openClock hp ho).trans (subdued_rest _ _)

/-- The run before a start has ended by itself, or the start switches the buzzer off. -/
theorem subdued_renewed {e : Engine α} (hp : e.phase ≠ .pending) : e.Subdued e.renewed := by
  rw [renewed_eq]
  refine (subdued_stop hp .outside).trans ⟨id, ?_⟩
  have hl := ledger_stop e .outside
  rintro - id (hlt | ⟨-, halive⟩)
  · -- without a run under way every number up to the newest has ended
    have hg : (e.stop .outside).generation = e.generation := congrArg Ledger.generation hl
    rcases Nat.lt_succ_iff_lt_or_eq.1 hlt with hold | hnewest
    · exact Or.inl (hg.symm ▸ hold)
    · exact Or.inr ⟨hnewest.trans hg.symm, congrArg Phase.alive (phase_stop_outside e)⟩
  · cases halive

theorem timerRate_renewed (e : Engine α) : e.renewed.timerRate = e.timerRate := by
  rw [renewed_eq]
  exact congrArg Ledger.timerRate (ledger_stop e .outside)

theorem subdued_start {e : Engine α} (hp : e.phase ≠ .pending) (h : e.HasPeriod) :
    e.Subdued (e.start .outside) := by
  have hentered : e.Subdued e.renewed.enter :=
    (subdued_renewed hp).trans (subdued_enter rfl (h.congr (timerRate_renewed e)))
  rw [start_outside]
  exact hentered.trans (subdued_noteAll _ _)

/-! ## Commands -/

/-- A run can be started: none is pending, and the period can be computed. -/
structure Startable (e : Engine α) : Prop where
  phase : e.phase ≠ .pending
  period : e.HasPeriod

/-- Something that subdues an engine and after which a run can still be started. -/
def Calms (e f : Engine α) : Prop :=
  e.Startable → e.Subdued f ∧ f.Startable

theorem Calms.trans {e f g : Engine α} (hf : e.Calms f) (hg : f.Calms g) : e.Calms g := by
  intro he
  obtain ⟨hsf, hf⟩ := hf he
  obtain ⟨hsg, hg⟩ := hg hf
  exact ⟨hsf.trans hsg, hg⟩

theorem Calms.of_control {e f : Engine α} (hs : e.Subdued f) (hc : f.control = e.control) :
    e.Calms f := by
  intro he
  have hp : f.phase = e.phase := congrArg Control.phase hc
  exact ⟨hs, hp ▸ he.phase, he.period.congr (congrArg Control.timerRate hc)⟩

theorem Calms.refl (e : Engine α) : e.Calms e :=
  .of_control (.refl e) rfl

theorem calms_noteAll (e : Engine α) (entries : List Entry) : e.Calms (e.noteAll entries) :=
  .of_control (subdued_noteAll e entries) (control_noteAll e entries)

theorem calms_stop (e : Engine α) : e.Calms (e.stop .outside) := by
  intro he
  have ht : (e.stop .outside).timerRate = e.timerRate :=
    congrArg Ledger.timerRate (ledger_stop e .outside)
  have hp : (e.stop .outside).phase ≠ .pending := by
    rw [phase_stop_outside]
    nofun
  exact ⟨subdued_stop he.phase .outside, hp, he.period.congr ht⟩

theorem calms_init (e : Engine α) (program : List Int) : e.Calms (e.init program).1 := by
  rcases init_stages e program with h | ⟨m, m', entries, -, -, h⟩
  · rw [h]
    exact .refl e
  · rw [h]
    refine .trans ?_ (calms_noteAll _ entries)
    apply Calms.of_control
    · exact .of_eq rfl rfl rfl
    · rfl

theorem calms_reset (e : Engine α) : e.Calms e.reset.1 := by
  unfold reset
  cases e.machine with
  | none => exact .refl e
  | some m => exact .of_control (.of_silent (soundOn_setSound _ false)) (control_setSound _ false)

theorem calms_loadFile (e : Engine α) (tree : Node) (path : String) :
    e.Calms (e.loadFile tree path).1 := by
  have hread : e.Calms (e.readProgram tree path).1 := calms_noteAll e _
  rcases loadFile_stages e tree path with h | ⟨program, h⟩
  · rw [h]
    exact hread
  · rw [h]
    exact hread.trans (calms_init _ program)

theorem subdued_runFile {e : Engine α} (he : e.Startable) (tree : Node) (path : String) :
    e.Subdued (e.runFile tree path).1 := by
  obtain ⟨base, hbase, hend⟩ := runFile_stages e tree path
  have hread : e.Calms (e.readProgram tree path).1 := calms_noteAll e _
  have hwiped : e.Calms base := by
    rcases hbase with rfl | rfl
    · exact hread
    · exact (hread.trans (calms_stop _)).trans (calms_reset _)
  rcases hend with h | ⟨program, h | h⟩ <;> rw [h]
  · exact (hwiped he).1
  · exact (hwiped.trans (calms_init base program) he).1
  · -- the start comes last, and leaves its run pending
    obtain ⟨hsubdued, hloaded⟩ := hwiped.trans (calms_init base program) he
    exact hsubdued.trans (subdued_start hloaded.phase hloaded.period)

/-! ## Between deeds -/

variable [Tracing]

/-- A list of deeds leads from one engine to another, and between the deeds the engine is
subdued. A deed from outside is done while no run is pending. -/
inductive Hushed : Engine α → List (Deed α) → Engine α → Prop where
  | between {e f : Engine α} (h : e.Subdued f) : Hushed e [] f
  | deed (d : Deed α) (hby : d.ByRunning) (hp : d.run = none → d.before.phase ≠ .pending) :
      Hushed d.before [d] d.after
  | append {e f g : Engine α} {first rest : List (Deed α)} (hf : Hushed e first f)
      (hg : Hushed f rest g) : Hushed e (first ++ rest) g

/-- A deed in the middle divides what has happened. -/
theorem Hushed.split {e f : Engine α} {deeds : List (Deed α)} (h : e.Hushed deeds f)
    {pre post : List (Deed α)} {d : Deed α} (hd : deeds = pre ++ d :: post) :
    e.Hushed pre d.before ∧ d.ByRunning ∧ (d.run = none → d.before.phase ≠ .pending) ∧
      d.after.Hushed post f := by
  induction h generalizing pre post with
  | between _ => cases (List.nil_eq_append_iff.1 hd).2
  | deed d' hby hp =>
      obtain ⟨rfl, hpost⟩ | ⟨-, hnone⟩ := List.singleton_eq_append_iff.1 hd
      · cases hpost
        exact ⟨.between (.refl _), hby, hp, .between (.refl _)⟩
      · cases hnone
  | append hf hg ihf ihg =>
      obtain ⟨mid, hfirst, rfl⟩ | ⟨mid, rfl, hrest⟩ := append_eq_append_cons hd
      · obtain ⟨hpre, hby, hp, hpost⟩ := ihf hfirst
        exact ⟨hpre, hby, hp, .append hpost hg⟩
      · obtain ⟨hpre, hby, hp, hpost⟩ := ihg hrest
        exact ⟨.append hf hpre, hby, hp, hpost⟩

/-- Where runs do no more than begin, the engine is subdued. -/
theorem Hushed.subdued {e f : Engine α} {deeds : List (Deed α)} (h : e.Hushed deeds f)
    (hquiet : ∀ d ∈ deeds, d.job = .begin) : e.Subdued f := by
  induction h with
  | between h => exact h
  | deed d _ _ =>
      have hsame : d.after = d.before := by
        unfold Deed.after Deed.outcome
        rw [hquiet d List.mem_cons_self]
      rw [hsame]
      exact .refl _
  | append _ _ ihf ihg =>
      obtain ⟨hfirst, hrest⟩ := List.forall_mem_append.1 hquiet
      exact (ihf hfirst).trans (ihg hrest)

omit [Quantity α] [Tracing] in
theorem subdued_countTick (e : Engine α) : e.Subdued e.countTick := by
  obtain ⟨clocks, h⟩ := countTick_eq e
  rw [h]
  exact .of_eq rfl rfl rfl

/-- What runs do while they can make their clocks. -/
theorem traversal_hushed : Traversal fun (e : Engine α) deeds f =>
    f.timerRate = e.timerRate ∧ (e.HasPeriod → e.Hushed deeds f) where
  append := by
    rintro e f g first rest ⟨htf, hf⟩ ⟨htg, hg⟩
    exact ⟨htg.trans htf, fun he => .append (hf he) (hg (he.congr htf))⟩
  account _ _ := ⟨rfl, fun _ => .between (.of_eq rfl rfl rfl)⟩
  countTick e :=
    ⟨congrArg Ledger.timerRate (ledger_countTick e), fun _ => .between (subdued_countTick e)⟩
  finish e :=
    ⟨congrArg Ledger.timerRate (ledger_finish e), fun _ =>
      .between (.of_silent (soundOn_finish e))⟩
  openClock hp ho :=
    ⟨congrArg Ledger.timerRate (ledger_of_openClock ho), fun _ =>
      .between (subdued_openClock hp ho)⟩
  noClock _ ho := ⟨rfl, fun he => absurd ho (openClock_ne_none he _)⟩
  deed d hrun hby := ⟨d.moves.timerRate, fun _ => .deed d hby fun hnone => absurd hnone hrun⟩

theorem hushed_perform {e : Engine α} (he : e.Startable) (files : Node) (c : Command α) :
    e.Hushed (e.performDeeds c) (e.perform files c).1 := by
  have houtside : ∀ job, (⟨none, job, e⟩ : Deed α).ByRunning := fun _ _ hrun => nomatch hrun
  cases c with
  | init program => exact .between (calms_init e program he).1
  | reset => exact .between (calms_reset e he).1
  | loadFile path => exact .between (calms_loadFile e files path he).1
  | runFile path => exact .between (subdued_runFile he files path)
  | start => exact .between (subdued_start he.phase he.period)
  | stop => exact .between (subdued_stop he.phase .outside)
  | destroy =>
      refine .between (.trans (subdued_stop he.phase .outside) ?_)
      exact .of_eq rfl rfl rfl
  | tickTimers => exact .deed ⟨none, .tickTimers, e⟩ (houtside _) fun _ => he.phase
  | runCycles count => exact .deed ⟨none, .runCycles count, e⟩ (houtside _) fun _ => he.phase
  | cpuTick dt =>
      have hslice := traversal_hushed.cpuTick e none dt fun budget count =>
        ⟨(Deed.moves _).timerRate, fun _ =>
          .deed ⟨none, .runCycles count, { e with budget }⟩ (houtside (.runCycles count))
            fun _ => he.phase⟩
      exact hslice.2 he.period
  | operate o => exact .between (subdued_operate he.phase o)

theorem timerRate_perform (e : Engine α) (files : Node) (c : Command α) :
    (e.perform files c).1.timerRate = e.timerRate := by
  have hmoves : e.Moves .outside True True (e.perform files c).1 :=
    moves_perform trivial (Or.inl trivial) e files
  exact hmoves.timerRate

/-- An occurrence and the runs that it leaves pending. -/
theorem hushed_next {e : Engine α} (he : e.Startable) (o : Occurrence α) :
    e.Hushed (e.occurDeeds o ++ (e.occur o).settleDeeds) (e.next o) ∧ (e.next o).Startable := by
  have hoccur : (e.occur o).timerRate = e.timerRate ∧ e.Hushed (e.occurDeeds o) (e.occur o) := by
    cases o with
    | command files c => exact ⟨timerRate_perform e files c, hushed_perform he files c⟩
    | tick dt =>
        obtain ⟨ht, hhushed⟩ := traversal_hushed.advance e dt
        exact ⟨ht, hhushed he.period⟩
  obtain ⟨ht, hsettled⟩ := traversal_hushed.settle (e.occur o)
  have hperiod := he.period.congr hoccur.1
  refine ⟨.append hoccur.2 (hsettled hperiod), (settled_settle (e.occur o)).phase, ?_⟩
  exact hperiod.congr ht

/-- Between the deeds of a history the engine is subdued. -/
theorem hushed_after {e : Engine α} (he : e.Startable) (history : List (Occurrence α)) :
    e.Hushed (e.deeds history) (e.after history) := by
  induction history generalizing e with
  | nil => exact .between (.refl e)
  | cons o rest ih =>
      obtain ⟨hnext, hstartable⟩ := hushed_next he o
      exact .append hnext (ih hstartable)

/-! ## Ends within a deed -/

/-- A call for instructions starts no run, or it leaves the buzzer off: the machine has been
reset. -/
theorem generation_or_silent_runCycles (e : Engine α) (caller : Caller) (count : Int) :
    (e.runCycles caller count).1.generation = e.generation ∨
      (e.runCycles caller count).1.soundOn = false := by
  cases hm : e.machine with
  | none =>
      rw [runCycles_of_noMachine hm]
      exact Or.inl rfl
  | some m =>
      obtain ⟨done, last, f, -, -, ⟨asked, hf⟩, hend⟩ := runSteps_end caller count.toNat hm 0
      have hgeneration : f.generation = e.generation := congrArg Ledger.generation hf
      have hkept := congrArg Ledger.generation (runCycles_of_machine hm caller count).1
      have hsame : (runSteps caller count.toNat e 0).engine.generation = e.generation →
          (e.runCycles caller count).1.generation = e.generation := hkept.trans
      have hcalled : (runSteps caller count.toNat e 0).result = .ok () →
          (e.runCycles caller count).1.soundOn =
            (runSteps caller count.toNat e 0).engine.machine.any Machine.buzzing := by
        intro hok
        simp only [runCycles, hm, hok, soundOn_setSound]
      generalize runSteps caller count.toNat e 0 = ran at hend hsame hcalled
      cases hend with
      | finished | misfit _ _ | waiting _ _ => exact Or.inl (hsame hgeneration)
      | @faulted s reason hs hfm =>
          have hanswer := fail_answer hfm caller reason
          generalize f.fail caller s.machine reason = answered at hanswer hsame hcalled
          cases hanswer with
          | kept _ hl | refused _ _ hl =>
              exact Or.inl (hsame ((congrArg Ledger.generation hl).trans hgeneration))
          | @restarted g _ m' _ hi hl =>
              have hmachine : g.machine = some m' := congrArg Ledger.machine hl
              have hcalm : g.machine.any Machine.buzzing = false := by
                rw [hmachine]
                exact Machine.buzzing_of_init hi
              exact Or.inr ((hcalled rfl).trans hcalm)

omit [Quantity α] [Tracing] in
theorem endsSilently_tickTimers {e : Engine α} (hp : e.phase ≠ .pending) (caller : Caller) :
    e.EndsSilently (e.tickTimers caller).1 := by
  cases hm : e.machine with
  | none =>
      rw [tickTimers_of_noMachine hm]
      exact (Subdued.refl e).ends
  | some m =>
      have hcontrol := control_refreshed e m
      have hphase : (e.refreshed m).phase = e.phase := congrArg Control.phase hcontrol
      have hticked : e.EndsSilently (e.refreshed m) := by
        rintro - id hid
        have hg : (e.refreshed m).generation = e.generation :=
          congrArg Control.generation hcontrol
        exact (hasEnded_congr hg (congrArg Phase.alive hphase) id).1 hid
      rcases tickTimers_cases hm caller with h | h
      · rw [h]
        exact hticked
      · -- the refresh asks for a stop, which may end a run
        rw [h]
        exact hticked.trans (subdued_stop (hphase ▸ hp) caller)

end Engine

namespace Deed

variable {α : Type} [Quantity α] [Tracing]

/-- A call for instructions from outside comes back. What answers it from within, by a stop or by
a new start, would have to wait for a live run, and this would wait for the call to be over. -/
def Returns (d : Deed α) : Prop :=
  ∀ count, d.job = .runCycles count → d.run = none → d.before.phase = .live →
    d.after.generation = d.before.generation ∧ d.after.phase = .live

/-- A call for instructions that starts no run ends none, if it comes back. -/
theorem alive_runCycles {run : Option Nat} {count : Int} {e : Engine α}
    (hby : (⟨run, .runCycles count, e⟩ : Deed α).ByRunning)
    (hreturns : (⟨run, .runCycles count, e⟩ : Deed α).Returns)
    (hsame : (e.runCycles (.ofRun run) count).1.generation = e.generation)
    (hp : e.phase ≠ .pending) :
    (e.runCycles (.ofRun run) count).1.phase.alive = e.phase.alive := by
  cases run with
  | some id =>
      -- from within, the phase changes only if another run is started
      have hmoves : e.Moves .run True True (e.runCycles .run count).1 :=
        Engine.moves_runCycles trivial e count
      rcases hmoves.onward.turn with ⟨-, hphase⟩ | ⟨hlt, -⟩
      · exact congrArg Phase.alive hphase
      · exact absurd hsame hlt.ne'
  | none =>
      have hmoves : e.Moves .outside True True (e.runCycles .outside count).1 :=
        Engine.moves_runCycles trivial e count
      by_cases hl : e.phase = .live
      · have hlive : (e.runCycles .outside count).1.phase = .live := (hreturns count rfl rfl hl).2
        show (e.runCycles .outside count).1.phase.alive = e.phase.alive
        rw [hlive, hl]
      · have hover : e.phase.alive = false := Phase.alive_eq_false hp hl
        rw [hover]
        exact Bool.eq_false_iff.2 fun halive =>
          Bool.false_ne_true (hover.symm.trans (hmoves.alive hsame halive))

/-- A run that has ended within a deed leaves the buzzer off. -/
theorem endsSilently {d : Deed α} (hby : d.ByRunning)
    (hp : d.run = none → d.before.phase ≠ .pending) (hreturns : d.Returns) :
    d.before.EndsSilently d.after := by
  obtain ⟨run, job, e⟩ := d
  have hphase : e.phase ≠ .pending := by
    cases run with
    | none => exact hp rfl
    | some id =>
        obtain ⟨-, hlive, -⟩ := hby id rfl
        change e.phase = .live at hlive
        rw [hlive]
        nofun
  cases job with
  | begin => exact (Engine.Subdued.refl e).ends
  | tickTimers => exact Engine.endsSilently_tickTimers hphase _
  | runCycles count =>
      intro hon id hid
      change (e.runCycles (.ofRun run) count).1.soundOn = true at hon
      change (e.runCycles (.ofRun run) count).1.HasEnded id at hid
      rcases Engine.generation_or_silent_runCycles e (.ofRun run) count with hsame | hsilent
      · -- the same run is the newest one, and it is under way as before
        have halive := alive_runCycles hby hreturns hsame hphase
        exact (Engine.hasEnded_congr hsame halive id).1 hid
      · cases hsilent.symm.trans hon

end Deed

namespace Engine

variable {α : Type} [Quantity α]

/-- The engine that the first of some deeds finds, or the one that is left if there are none. -/
def found (deeds : List (Deed α)) (left : Engine α) : Engine α :=
  match deeds with
  | [] => left
  | d :: _ => d.before

omit [Quantity α] in
@[simp] theorem found_nil (left : Engine α) : found [] left = left := rfl

variable [Tracing]

/-- Between two deeds, and after the last one, the buzzer is off if a run has ended since the
former began. The deeds `mid` are the former one and the beginnings of runs after it. -/
theorem silent_of_ended {e : Engine α} (he : e.Startable) {history : List (Occurrence α)}
    (hreturns : ∀ d ∈ e.deeds history, d.Returns) {pre mid rest : List (Deed α)}
    (hd : e.deeds history = pre ++ mid ++ rest) (hquiet : ∀ d ∈ mid.tail, d.job = .begin) :
    (found (mid ++ rest) (e.after history)).EndsSilently (found rest (e.after history)) := by
  cases mid with
  | nil => exact (Subdued.refl _).ends
  | cons d more =>
      have hsplit : e.deeds history = pre ++ d :: (more ++ rest) := by
        rw [hd, List.append_assoc, List.cons_append]
      obtain ⟨-, hby, hp, hlater⟩ := (hushed_after he history).split hsplit
      have hmem : d ∈ e.deeds history := by
        rw [hsplit]
        exact List.mem_append_right pre List.mem_cons_self
      have hends : d.before.EndsSilently d.after := d.endsSilently hby hp (hreturns d hmem)
      refine hends.trans ?_
      cases rest with
      | nil =>
          rw [List.append_nil] at hlater
          exact hlater.subdued hquiet
      | cons next after =>
          obtain ⟨hbetween, -⟩ := hlater.split rfl
          exact hbetween.subdued hquiet

/-- Before the first deed the buzzer is as it was. -/
theorem silent_of_no_deed {e : Engine α} (he : e.Startable) (hs : e.soundOn = false)
    {history : List (Occurrence α)} {pre rest : List (Deed α)}
    (hd : e.deeds history = pre ++ rest) (hquiet : ∀ d ∈ pre, d.job = .begin) :
    (found rest (e.after history)).soundOn = false := by
  have hsubdued : e.Subdued (found rest (e.after history)) := by
    have hall := hushed_after he history
    cases rest with
    | nil =>
        rw [hd, List.append_nil] at hall
        exact hall.subdued hquiet
    | cons next after => exact (hall.split hd).1.subdued hquiet
  exact Bool.eq_false_iff.2 fun hon => Bool.false_ne_true (hs.symm.trans (hsubdued.soundOn hon))

end Engine

end Chip8
