import Chip8.Proofs.Engine.Stages

/-!
# The ledger of an engine

An engine has a machine, rates, a policy and accounts; the rest of its state is about how far its
runs have got and about what the outside has heard. `Engine.ledger` is the first part, together
with the faults that were reported. Here the control of an engine is described in terms of the
ledger: notes, the buzzer and the clocks leave no trace in it, a stop leaves its request, a start
gives a new run a number and an empty account.
-/

set_option autoImplicit false

namespace Chip8

/-- The fault that a signal reports. -/
def Signal.fault? : Signal → Option Fault
  | .fault reason => some reason
  | .entry _ | .refresh | .buzzer _ => none

/-- What an engine keeps account of. -/
structure Ledger (α : Type) where
  machine : Option Machine
  rate : α
  timerRate : α
  policy : Policy
  cycles : Nat
  fault : Option Fault
  budget : α
  generation : Nat
  stopRequested : Bool
  /-- The faults that the outside has been told, the newest first. -/
  reports : List Fault

namespace Engine

variable {α : Type}

/-- The faults that an engine has told the outside, the newest first. -/
def reports (e : Engine α) : List Fault :=
  e.trail.filterMap Signal.fault?

/-- The ledger of an engine. -/
def ledger (e : Engine α) : Ledger α where
  machine := e.machine
  rate := e.rate
  timerRate := e.timerRate
  policy := e.policy
  cycles := e.cycles
  fault := e.fault
  budget := e.budget
  generation := e.generation
  stopRequested := e.stopRequested
  reports := e.reports

/-- Whether a run has to stop can be read off the ledger. -/
theorem stopped_congr {e f : Engine α} (hg : f.generation = e.generation)
    (hs : f.stopRequested = e.stopRequested) (id : Nat) : f.stopped id = e.stopped id := by
  rw [stopped, stopped, hg, hs]

/-- The newest run has to stop exactly if it was asked to. -/
theorem stopped_generation (e : Engine α) : e.stopped e.generation = e.stopRequested := by
  rw [stopped, bne_self_eq_false, Bool.false_or]

/-- A run need not stop if it is the newest one and was not asked to. -/
theorem stopped_eq_false_iff {e : Engine α} {id : Nat} :
    e.stopped id = false ↔ e.generation = id ∧ e.stopRequested = false := by
  rw [stopped, Bool.or_eq_false_iff, bne_eq_false_iff_eq]

theorem stopped_of_ledger {e f : Engine α} (h : f.ledger = e.ledger) (id : Nat) :
    f.stopped id = e.stopped id :=
  stopped_congr (congrArg Ledger.generation h) (congrArg Ledger.stopRequested h) id

/-! ## What leaves no trace -/

@[simp] theorem ledger_note (e : Engine α) (entry : Entry) : (e.note entry).ledger = e.ledger := rfl

@[simp] theorem ledger_noteAll (e : Engine α) (entries : List Entry) :
    (e.noteAll entries).ledger = e.ledger := by
  induction entries generalizing e with
  | nil => rfl
  | cons entry rest ih => exact (ih (e.note entry)).trans (ledger_note e entry)

@[simp] theorem ledger_setSound (e : Engine α) (on : Bool) :
    (e.setSound on).ledger = e.ledger := by
  unfold setSound
  by_cases h : on = e.soundOn
  · rw [if_pos h]
  · rw [if_neg h]
    rfl

@[simp] theorem ledger_countTick (e : Engine α) : e.countTick.ledger = e.ledger := by
  obtain ⟨clocks, h⟩ := countTick_eq e
  rw [h]
  rfl

@[simp] theorem ledger_finish (e : Engine α) : e.finish.ledger = e.ledger :=
  ledger_setSound _ false

/-- What is taken over is the machine, and the notes leave no trace. -/
@[simp] theorem ledger_taken (e : Engine α) (after : Machine) (entries : List Entry) :
    (e.taken after entries).ledger = { e.ledger with machine := some after } :=
  ledger_noteAll _ entries

/-- Nor does the count of a refresh, or its signal. -/
@[simp] theorem ledger_refreshed (e : Engine α) (m : Machine) :
    (e.refreshed m).ledger = { e.ledger with machine := some m.tick } :=
  ledger_setSound { e with machine := some m.tick } m.tick.buzzing

/-! ## Stops -/

/-- A stop leaves the request, whoever asks for it. -/
@[simp] theorem ledger_stop (e : Engine α) (caller : Caller) :
    (e.stop caller).ledger = { e.ledger with stopRequested := true } := by
  have hstages := stop_stages e caller
  generalize e.stop caller = f at hstages ⊢
  cases hstages with
  | absent _ | within _ | ended _ _ => rfl
  | live _ hf =>
      subst hf
      exact ledger_finish { e with stopRequested := true }

/-! ## Idleness -/

/-- No instruction was counted, and the rates are what they were. -/
structure Idled (e f : Engine α) : Prop where
  cycles : f.cycles = e.cycles
  rate : f.rate = e.rate
  timerRate : f.timerRate = e.timerRate

theorem Idled.of_ledger {e f : Engine α} {l : Ledger α} (h : f.ledger = l)
    (hl : (l.cycles, l.rate, l.timerRate) = (e.cycles, e.rate, e.timerRate)) : e.Idled f := by
  subst h
  simp only [Prod.mk.injEq] at hl
  exact ⟨hl.1, hl.2.1, hl.2.2⟩

theorem Idled.trans {e f g : Engine α} (hf : e.Idled f) (hg : f.Idled g) : e.Idled g :=
  ⟨hg.cycles.trans hf.cycles, hg.rate.trans hf.rate, hg.timerRate.trans hf.timerRate⟩

/-! ## Work on the machine -/

/-- Between two states of an engine its machine has been worked on: nothing else in the ledger has
changed, except that a stop may have been asked for. -/
def Worked (e f : Engine α) : Prop :=
  ∃ asked, f.ledger =
    { e.ledger with machine := f.machine, stopRequested := e.stopRequested || asked }

theorem Worked.of_ledger_eq {e f : Engine α} (h : f.ledger = e.ledger) : e.Worked f := by
  have hm : f.machine = e.machine := congrArg Ledger.machine h
  exact ⟨false, by rw [h, hm, Bool.or_false]; rfl⟩

theorem Worked.refl (e : Engine α) : e.Worked e :=
  .of_ledger_eq rfl

theorem Worked.trans {e f g : Engine α} (hef : e.Worked f) (hfg : f.Worked g) : e.Worked g := by
  obtain ⟨asked, hf⟩ := hef
  obtain ⟨again, hg⟩ := hfg
  have hstop : f.stopRequested = (e.stopRequested || asked) := congrArg Ledger.stopRequested hf
  refine ⟨asked || again, ?_⟩
  rw [hg, hf, hstop, Bool.or_assoc]

theorem worked_of_ledger {e f : Engine α} {m : Machine}
    (h : f.ledger = { e.ledger with machine := some m }) : e.Worked f ∧ f.machine = some m := by
  have hm : f.machine = some m := congrArg Ledger.machine h
  exact ⟨⟨false, by rw [h, hm, Bool.or_false]; rfl⟩, hm⟩

theorem Worked.idled {e f : Engine α} (h : e.Worked f) : e.Idled f := by
  obtain ⟨asked, hl⟩ := h
  exact .of_ledger hl rfl

theorem Worked.stop {e f : Engine α} (h : e.Worked f) (caller : Caller) :
    e.Worked (f.stop caller) ∧ (f.stop caller).machine = f.machine := by
  obtain ⟨asked, hl⟩ := h
  have hs := ledger_stop f caller
  have hm : (f.stop caller).machine = f.machine := congrArg Ledger.machine hs
  refine ⟨⟨true, ?_⟩, hm⟩
  rw [hs, hl, hm, Bool.or_true]

/-- What an operation has left of the machine is taken over; the draw of a random byte may have
brought a stop with it. -/
theorem worked_absorb (e : Engine α) (caller : Caller) (before after : Machine)
    (entries : List Entry) :
    e.Worked (e.absorb caller before after entries) ∧
      (e.absorb caller before after entries).machine = some after := by
  obtain ⟨hw, hm⟩ := worked_of_ledger (ledger_taken e after entries)
  rcases absorb_cases e caller before after entries with h | h
  · rw [h]
    exact ⟨hw, hm⟩
  · obtain ⟨hstopped, hkept⟩ := hw.stop caller
    rw [h]
    exact ⟨hstopped, hkept.trans hm⟩

/-- A tick counts the machine's timers down; the refresh may bring a stop with it. -/
theorem worked_tickTimers {e : Engine α} {m : Machine} (hm : e.machine = some m)
    (caller : Caller) :
    ∃ f, e.tickTimers caller = (f, .ok ()) ∧ e.Worked f ∧ f.machine = some m.tick := by
  obtain ⟨hw, hticked⟩ := worked_of_ledger (ledger_refreshed e m)
  rcases tickTimers_cases hm caller with h | h
  · exact ⟨_, h, hw, hticked⟩
  · obtain ⟨hstopped, hkept⟩ := hw.stop caller
    exact ⟨_, h, hstopped, hkept.trans hticked⟩

theorem worked_of_tickTimers {e f : Engine α} {caller : Caller}
    (h : e.tickTimers caller = (f, .ok ())) : e.Worked f := by
  cases hm : e.machine with
  | none =>
      rw [tickTimers_of_noMachine hm] at h
      cases h
  | some m =>
      obtain ⟨f', hticked, hworked, -⟩ := worked_tickTimers hm caller
      cases h.symm.trans hticked
      exact hworked

/-! ## Programs -/

/-- A program that the machine takes is loaded, and the last fault is forgotten. -/
theorem init_of_machine {e : Engine α} {m m' : Machine} {program : List Int}
    (hm : e.machine = some m) (hi : m.init program = .ok m') :
    ∃ f, e.init program = (f, .ok ()) ∧
      f.ledger = { e.ledger with machine := some m', fault := none } := by
  simp only [init, hm, hi]
  exact ⟨_, rfl, ledger_noteAll _ _⟩

/-- A program that the machine refuses leaves the engine as it is. -/
theorem init_of_refusal {e : Engine α} {m : Machine} {program : List Int} {why : LoadError}
    (hm : e.machine = some m) (hi : m.init program = .error why) :
    e.init program = (e, .error (.load why)) := by
  simp only [init, hm, hi]

section Control

variable [Quantity α]

/-- A reset wipes the machine, the account of instructions and the fault. -/
theorem reset_of_machine {e : Engine α} {m : Machine} (hm : e.machine = some m) :
    ∃ f, e.reset = (f, .ok ()) ∧ f.ledger = { e.ledger with
      machine := some m.reset, budget := Quantity.zero, fault := none } := by
  unfold reset
  rw [hm]
  exact ⟨_, rfl, ledger_setSound _ false⟩

/-! ## Starts -/

@[simp] theorem ledger_rest (e : Engine α) (id : Nat) : (e.rest id).ledger = e.ledger := by
  rcases rest_cases e id with h | h
  · rw [h]
    exact ledger_finish e
  · rw [h]

theorem ledger_of_openClock {e f : Engine α} {later : List (List α)}
    (h : e.openClock later = some f) : f.ledger = e.ledger := by
  obtain ⟨period, -, rfl⟩ := openClock_eq h
  rfl

@[simp] theorem ledger_enter (e : Engine α) : e.enter.ledger = e.ledger := by
  have hstages := enter_stages e
  generalize e.enter = f at hstages ⊢
  cases hstages with
  | ticking _ | noClock _ _ => rfl
  | idle _ ho => exact (ledger_rest _ _).trans (ledger_of_openClock ho)

/-- A start gives the new run a number of its own and an empty account. -/
@[simp] theorem ledger_start (e : Engine α) (caller : Caller) :
    (e.start caller).ledger = { e.ledger with
      stopRequested := false, budget := Quantity.zero, generation := e.generation + 1 } := by
  unfold start
  rw [ledger_noteAll]
  cases caller with
  | run => rfl
  | outside =>
      refine (ledger_enter _).trans ?_
      by_cases ha : e.phase = .absent
      · rw [if_neg (fun h => h.2 ha)]
        rfl
      · rw [if_pos ⟨rfl, ha⟩]
        exact congrArg (fun l : Ledger α => { l with
          stopRequested := false, budget := Quantity.zero, generation := l.generation + 1 })
          (ledger_stop e .outside)

end Control

end Engine

end Chip8
