import Chip8.Proofs.Engine.Ledger
import Chip8.Proofs.Machine.History

/-!
# The control of an engine

`Engine.control` is what an engine knows of its runs, together with its policy and its counts.
Here are the effects on it of the functions that stop and start runs, and what later turns out to
be kept by everything that is done to an engine: a run that has to stop will always have to
(`Engine.Later`), the machine stays reachable (`Engine.Sane`), and a run that calls the engine from
within leaves the clocks alone and the phase, too, unless it starts another run
(`Engine.Onward`).
-/

set_option autoImplicit false

namespace Chip8

/-- What an engine knows of its runs, its policy and its counts. -/
structure Control (α : Type) where
  timerRate : α
  policy : Policy
  schedule : List (List α)
  phase : Phase
  stopRequested : Bool
  generation : Nat
  clocks : List (Clock α)
  cycles : Nat
  refreshes : Nat

namespace Engine

variable {α : Type}

/-- The control of an engine. -/
def control (e : Engine α) : Control α where
  timerRate := e.timerRate
  policy := e.policy
  schedule := e.schedule
  phase := e.phase
  stopRequested := e.stopRequested
  generation := e.generation
  clocks := e.clocks
  cycles := e.cycles
  refreshes := e.refreshes

/-! ## Notes and the buzzer -/

@[simp] theorem control_note (e : Engine α) (entry : Entry) :
    (e.note entry).control = e.control := rfl

@[simp] theorem control_noteAll (e : Engine α) (entries : List Entry) :
    (e.noteAll entries).control = e.control := by
  induction entries generalizing e with
  | nil => rfl
  | cons entry rest ih => exact (ih (e.note entry)).trans (control_note e entry)

@[simp] theorem control_setSound (e : Engine α) (on : Bool) :
    (e.setSound on).control = e.control := by
  unfold setSound
  by_cases h : on = e.soundOn
  · rw [if_pos h]
  · rw [if_neg h]
    rfl

@[simp] theorem control_taken (e : Engine α) (after : Machine) (entries : List Entry) :
    (e.taken after entries).control = e.control :=
  control_noteAll _ entries

/-- The refresh is counted. -/
@[simp] theorem control_refreshed (e : Engine α) (m : Machine) :
    (e.refreshed m).control = { e.control with refreshes := e.refreshes + 1 } := by
  have hsounded := control_setSound { e with machine := some m.tick } m.tick.buzzing
  exact congrArg (fun c : Control α => { c with refreshes := c.refreshes + 1 }) hsounded

@[simp] theorem machine_noteAll (e : Engine α) (entries : List Entry) :
    (e.noteAll entries).machine = e.machine :=
  congrArg Ledger.machine (ledger_noteAll e entries)

@[simp] theorem machine_setSound (e : Engine α) (on : Bool) :
    (e.setSound on).machine = e.machine :=
  congrArg Ledger.machine (ledger_setSound e on)

@[simp] theorem machine_taken (e : Engine α) (after : Machine) (entries : List Entry) :
    (e.taken after entries).machine = some after :=
  machine_noteAll _ entries

@[simp] theorem machine_refreshed (e : Engine α) (m : Machine) :
    (e.refreshed m).machine = some m.tick :=
  congrArg Ledger.machine (ledger_refreshed e m)

@[simp] theorem soundOn_setSound (e : Engine α) (on : Bool) : (e.setSound on).soundOn = on := by
  unfold setSound
  by_cases h : on = e.soundOn
  · rw [if_pos h]
    exact h.symm
  · rw [if_neg h]
    rfl

/-! ## What is kept -/

/-- Between two states of an engine runs may have been started, and the newest run still has to
stop if it had to. -/
structure Later (e f : Engine α) : Prop where
  generation : e.generation ≤ f.generation
  stopRequested : f.generation = e.generation → e.stopRequested = true → f.stopRequested = true

theorem Later.of_eq {e f : Engine α} (hg : f.generation = e.generation)
    (hs : e.stopRequested = true → f.stopRequested = true) : e.Later f :=
  ⟨Nat.le_of_eq hg.symm, fun _ => hs⟩

theorem Later.trans {e f g : Engine α} (hf : e.Later f) (hg : f.Later g) : e.Later g where
  generation := Nat.le_trans hf.generation hg.generation
  stopRequested := by
    intro heq hstop
    have hle := hf.generation
    have hle' := hg.generation
    exact hg.stopRequested (by omega) (hf.stopRequested (by omega) hstop)

/-- A run that need not stop did not have to before. -/
theorem Later.not_asked {e f : Engine α} (h : e.Later f) (hg : f.generation = e.generation)
    (hgo : f.stopRequested = false) : e.stopRequested = false := by
  cases hs : e.stopRequested with
  | false => rfl
  | true => cases hgo.symm.trans (h.stopRequested hg hs)

/-- The machine of an engine, if it has one, is reachable. -/
def Sane [Tracing] (e : Engine α) : Prop :=
  ∀ m, e.machine = some m → m.Reachable

theorem Sane.congr [Tracing] {e f : Engine α} (h : e.Sane) (hm : f.machine = e.machine) :
    f.Sane := by
  intro m hf
  exact h m (hm.symm.trans hf)

theorem Sane.of_perform [Tracing] {e f : Engine α} (h : e.Sane) {m : Machine}
    (hm : e.machine = some m) {o : Operation} (ho : o.isOrdinary = true)
    (hf : f.machine = some (m.perform o).machine) : f.Sane := by
  intro m' hm'
  cases hf.symm.trans hm'
  exact (h m hm).perform ho

/-- What a run makes of the control from within: clocks and schedule are as they were, and so is
the phase, unless another run has been started and is pending. -/
structure Onward (e f : Engine α) : Prop where
  timerRate : f.timerRate = e.timerRate
  schedule : f.schedule = e.schedule
  clocks : f.clocks = e.clocks
  turn : f.generation = e.generation ∧ f.phase = e.phase ∨
    e.generation < f.generation ∧ f.phase = .pending

theorem Onward.of_control {e f : Engine α} {requested : Bool} {cycles refreshes : Nat}
    (h : f.control = { e.control with stopRequested := requested, cycles, refreshes }) :
    e.Onward f where
  timerRate := congrArg Control.timerRate h
  schedule := congrArg Control.schedule h
  clocks := congrArg Control.clocks h
  turn := Or.inl ⟨congrArg Control.generation h, congrArg Control.phase h⟩

theorem Onward.trans {e f g : Engine α} (hf : e.Onward f) (hg : f.Onward g) : e.Onward g where
  timerRate := hg.timerRate.trans hf.timerRate
  schedule := hg.schedule.trans hf.schedule
  clocks := hg.clocks.trans hf.clocks
  turn := by
    rcases hf.turn with ⟨hgf, hpf⟩ | ⟨hgf, hpf⟩
    · rcases hg.turn with ⟨hgg, hpg⟩ | ⟨hgg, hpg⟩
      · exact Or.inl ⟨hgg.trans hgf, hpg.trans hpf⟩
      · exact Or.inr ⟨hgf ▸ hgg, hpg⟩
    · refine Or.inr ?_
      rcases hg.turn with ⟨hgg, hpg⟩ | ⟨hgg, hpg⟩
      · exact ⟨hgg.symm ▸ hgf, hpg.trans hpf⟩
      · exact ⟨Nat.lt_trans hgf hgg, hpg⟩

/-- The run `id` is at work: it is the newest one and live, or another one has been started from
within and is pending. -/
def AtWork (id : Nat) (e : Engine α) : Prop :=
  e.generation = id ∧ e.phase = .live ∨ id < e.generation ∧ e.phase = .pending

theorem AtWork.onward {id : Nat} {e f : Engine α} (h : e.AtWork id) (hf : e.Onward f) :
    f.AtWork id := by
  rcases h with ⟨hg, hp⟩ | ⟨hg, hp⟩
  · rcases hf.turn with ⟨hgf, hpf⟩ | ⟨hgf, hpf⟩
    · exact Or.inl ⟨hgf.trans hg, hpf.trans hp⟩
    · exact Or.inr ⟨hg ▸ hgf, hpf⟩
  · refine Or.inr ?_
    rcases hf.turn with ⟨hgf, hpf⟩ | ⟨hgf, hpf⟩
    · exact ⟨hgf.symm ▸ hg, hpf.trans hp⟩
    · exact ⟨Nat.lt_trans hg hgf, hpf⟩

/-- A run at work that need not stop is under way. -/
theorem AtWork.isRunning {id : Nat} {e : Engine α} (h : e.AtWork id)
    (hid : e.stopped id = false) :
    e.generation = id ∧ e.phase = .live ∧ e.stopRequested = false := by
  obtain ⟨hnewest, hgo⟩ := stopped_eq_false_iff.1 hid
  rcases h with ⟨hg, hp⟩ | ⟨hg, -⟩
  · exact ⟨hg, hp, hgo⟩
  · omega

/-! ## Stops and starts -/

/-- The clocks after the newest one has been told to call nothing any more. -/
def silenced : List (Clock α) → List (Clock α)
  | clock :: older => { clock with scheduled := 0 } :: older
  | [] => []

/-- The end of a run silences its clock, and a live run is over. -/
theorem control_finish (e : Engine α) :
    e.finish.control = { e.control with
      clocks := silenced e.clocks
      phase := if e.phase = .live then .over else e.phase } := by
  unfold finish silenced
  exact control_setSound _ false

/-- A stop from within leaves a request. -/
theorem control_stop_run (e : Engine α) :
    (e.stop .run).control = { e.control with stopRequested := true } := by
  have hstages := stop_stages e .run
  generalize e.stop .run = f at hstages ⊢
  cases hstages with
  | absent _ | within _ => rfl

/-- A stop from outside waits for the run to end. -/
theorem control_stop_outside (e : Engine α) :
    (e.stop .outside).control = { e.control with
      stopRequested := true
      phase := .absent
      clocks := if e.phase = .live then silenced e.clocks else e.clocks } := by
  have hstages := stop_stages e .outside
  generalize e.stop .outside = f at hstages ⊢
  cases hstages with
  | absent ha =>
      rw [if_neg (by rw [ha]; nofun), ← ha]
      rfl
  | live hl hf =>
      subst hf
      have hfinished := control_finish { e with stopRequested := true }
      rw [if_pos hl]
      exact congrArg (fun c : Control α => { c with phase := .absent }) hfinished
  | ended _ hl =>
      rw [if_neg hl]
      rfl

theorem refreshes_stop (e : Engine α) (caller : Caller) :
    (e.stop caller).refreshes = e.refreshes := by
  cases caller with
  | run => exact congrArg Control.refreshes (control_stop_run e)
  | outside => exact congrArg Control.refreshes (control_stop_outside e)

variable [Quantity α]

theorem control_of_openClock {e f : Engine α} {later : List (List α)}
    (h : e.openClock later = some f) :
    ∃ period, Quantity.div (Quantity.one : α) e.timerRate = .ok period ∧
      f.control = { e.control with
        phase := .live
        schedule := later
        clocks := ⟨period, 0, clockFunctions⟩ :: e.clocks } := by
  obtain ⟨period, hperiod, rfl⟩ := openClock_eq h
  exact ⟨period, hperiod, rfl⟩

theorem refreshes_rest (e : Engine α) (id : Nat) : (e.rest id).refreshes = e.refreshes := by
  rcases rest_cases e id with h | h
  · rw [h]
    exact congrArg Control.refreshes (control_finish e)
  · rw [h]

theorem refreshes_enter (e : Engine α) : e.enter.refreshes = e.refreshes := by
  have hstages := enter_stages e
  generalize e.enter = f at hstages ⊢
  cases hstages with
  | ticking _ | noClock _ _ => rfl
  | idle _ ho =>
      obtain ⟨period, -, rfl⟩ := openClock_eq ho
      exact refreshes_rest _ _

/-- A start from within leaves a new run pending. -/
theorem control_start_run (e : Engine α) :
    (e.start .run).control = { e.control with
      stopRequested := false, phase := .pending, generation := e.generation + 1 } := by
  unfold start
  exact control_noteAll _ _

/-- The engine after a start from outside has stopped the run before and has given the new one its
number. -/
def renewed (e : Engine α) : Engine α :=
  { (if e.phase ≠ .absent then e.stop .outside else e) with
    stopRequested := false
    budget := Quantity.zero
    phase := .pending
    generation := (if e.phase ≠ .absent then e.stop .outside else e).generation + 1 }

/-- If there is no run to wait for, the stop leaves nothing that the start does not overwrite. -/
theorem renewed_eq (e : Engine α) :
    e.renewed = { e.stop .outside with
      stopRequested := false
      budget := Quantity.zero
      phase := .pending
      generation := e.generation + 1 } := by
  have hg : (e.stop .outside).generation = e.generation :=
    congrArg Ledger.generation (ledger_stop e .outside)
  unfold renewed
  by_cases ha : e.phase = .absent
  · have hstop : e.stop .outside = { e with stopRequested := true } := if_pos ha
    rw [if_neg (not_not_intro ha), hstop]
  · rw [if_pos ha, hg]

/-- A start from outside renews the engine, lets the run enter, and notes it. -/
theorem start_outside (e : Engine α) :
    e.start .outside = e.renewed.enter.noteAll e.renewed.enter.startEntries := by
  unfold start renewed
  simp only [true_and]
  rfl

theorem control_start_outside (e : Engine α) :
    (e.start .outside).control = e.renewed.enter.control := by
  rw [start_outside, control_noteAll]

theorem refreshes_start (e : Engine α) (caller : Caller) :
    (e.start caller).refreshes = e.refreshes := by
  cases caller with
  | run => exact congrArg Control.refreshes (control_start_run e)
  | outside =>
      refine (congrArg Control.refreshes (control_start_outside e)).trans ?_
      refine (refreshes_enter e.renewed).trans ?_
      rw [renewed_eq]
      exact refreshes_stop e .outside

end Engine

end Chip8
