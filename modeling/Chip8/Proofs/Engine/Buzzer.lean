import Chip8.Proofs.Engine.Beats
import Chip8.Proofs.Engine.Outward
import Chip8.Proofs.Engine.Silence

/-!
# The buzzer

Whenever the buzzer is switched the outside is told, so that the reports alternate
(`Engine.Flips`). The buzzer is in tune with the sound timer at certain times: at the end of a
reset, of a call for instructions, of a tick of the timers that ends no run, and of every tick
that does not break its run off (`Engine.inTune_beat`).
-/

set_option autoImplicit false

namespace Chip8

namespace Engine

variable {α : Type}

/-! ## Reports -/

/-- What the outside has been told of the buzzer, the oldest first. -/
def buzzes (e : Engine α) : List Bool :=
  e.trail.reverse.filterMap Signal.buzzer?

/-- The reports of a buzzer between two of its states: each of them tells of a change. -/
def Flips : Bool → List Bool → Bool → Prop
  | start, [], now => now = start
  | start, on :: rest, now => on = !start ∧ Flips on rest now

theorem Flips.append {start middle now : Bool} {first rest : List Bool}
    (hf : Flips start first middle) (hr : Flips middle rest now) :
    Flips start (first ++ rest) now := by
  induction first generalizing start with
  | nil =>
      obtain rfl := hf
      exact hr
  | cons on more ih => exact ⟨hf.1, ih hf.2⟩

/-- The buzzer is what was reported last. -/
theorem Flips.last {start now : Bool} {reports : List Bool} (h : Flips start reports now) :
    now = reports.getLast?.getD start := by
  induction reports generalizing start with
  | nil => exact h
  | cons on rest ih =>
      rw [ih h.2, List.getLast?_cons]
      rfl

/-- The reports alternate. -/
theorem Flips.alternate {start now : Bool} {reports : List Bool} (h : Flips start reports now)
    {i : Nat} {on : Bool} (hi : reports[i]? = some on) :
    on = if i % 2 = 0 then !start else start := by
  induction reports generalizing start i with
  | nil => cases hi
  | cons first rest ih =>
      obtain ⟨rfl, hrest⟩ := h
      cases i with
      | zero => simpa using hi.symm
      | succ i =>
          have hlater := ih hrest hi
          have hparity : (i + 1) % 2 = 0 ↔ ¬ i % 2 = 0 := by omega
          simp only [hlater, hparity, Bool.not_not, ite_not]

/-- What is done to an engine adds signals to its trail, and those of the buzzer tell of every
change. -/
theorem Outward.flips [Tracing] {allowed : Operation → Prop} {e f : Engine α}
    (h : e.Outward allowed f) :
    ∃ new, f.trail = new ++ e.trail ∧
      Flips e.soundOn (new.reverse.filterMap Signal.buzzer?) f.soundOn := by
  induction h with
  | inward h => exact ⟨[], congrArg Face.trail h, congrArg Face.soundOn h⟩
  | @tell e f s hs h =>
      have hsame : f.soundOn = e.soundOn := congrArg Face.soundOn h
      refine ⟨[s], congrArg Face.trail h, ?_⟩
      simpa [hs, Flips] using hsame
  | switch e on =>
      unfold setSound
      split
      · exact ⟨[], rfl, rfl⟩
      · refine ⟨[.buzzer on, .entry (.buzzer on)], rfl, ?_, rfl⟩
        cases on <;> cases hs : e.soundOn <;> simp_all
  | work _ _ h => exact ⟨[], congrArg Face.trail h, congrArg Face.soundOn h⟩
  | remove h => exact ⟨[], congrArg Face.trail h, congrArg Face.soundOn h⟩
  | trans _ _ hf hg =>
      obtain ⟨first, hfirst, hff⟩ := hf
      obtain ⟨rest, hrest, hfg⟩ := hg
      refine ⟨rest ++ first, by rw [hrest, hfirst, List.append_assoc], ?_⟩
      rw [List.reverse_append, List.filterMap_append]
      exact hff.append hfg

/-! ## The sound timer -/

/-- The buzzer is on exactly if the sound timer is running. -/
def InTune (e : Engine α) : Prop :=
  e.soundOn = true ↔ ∃ m, e.machine = some m ∧ 0 < m.sound

theorem InTune.of_eq {e : Engine α} (h : e.soundOn = e.machine.any Machine.buzzing) :
    e.InTune := by
  unfold InTune
  rw [h]
  cases e.machine with
  | none => simp
  | some m => simp [Machine.buzzing]

theorem InTune.congr {e f : Engine α} (h : e.InTune) (hs : f.soundOn = e.soundOn)
    (hm : f.machine = e.machine) : f.InTune := by
  unfold InTune
  rw [hs, hm]
  exact h

/-- A stop that ends no run leaves the buzzer alone. -/
theorem soundOn_stop {e : Engine α} {caller : Caller}
    (h : ∀ id, (e.stop caller).HasEnded id → e.HasEnded id) :
    (e.stop caller).soundOn = e.soundOn := by
  have hstages := stop_stages e caller
  have hl := ledger_stop e caller
  generalize e.stop caller = f at h hstages hl ⊢
  cases hstages with
  | absent _ | within _ | ended _ _ => rfl
  | live hlive hf =>
      -- the live run would have ended
      have hg := congrArg Ledger.generation hl
      rcases h e.generation (Or.inr ⟨hg.symm, rfl⟩) with hlt | ⟨-, hover⟩
      · exact absurd hlt (Nat.lt_irrefl _)
      · rw [hlive] at hover
        cases hover

theorem inTune_refreshed (e : Engine α) (m : Machine) : (e.refreshed m).InTune := by
  apply InTune.of_eq
  rw [machine_refreshed]
  exact soundOn_setSound { e with machine := some m.tick } m.tick.buzzing

theorem inTune_tickTimers {e f : Engine α} {caller : Caller}
    (h : e.tickTimers caller = (f, .ok ())) (hends : ∀ id, f.HasEnded id → e.HasEnded id) :
    f.InTune := by
  cases hm : e.machine with
  | none =>
      rw [tickTimers_of_noMachine hm] at h
      cases h
  | some m =>
      have hticked := inTune_refreshed e m
      rcases tickTimers_cases hm caller with hcase | hcase
      · cases h.symm.trans hcase
        exact hticked
      · cases h.symm.trans hcase
        have hcontrol := control_refreshed e m
        have hended : ∀ id, (e.refreshed m).HasEnded id ↔ e.HasEnded id :=
          hasEnded_congr (congrArg Control.generation hcontrol)
            (congrArg (fun c : Control α => c.phase.alive) hcontrol)
        have hstop : ((e.refreshed m).stop caller).soundOn = (e.refreshed m).soundOn :=
          soundOn_stop fun id hid => (hended id).2 (hends id hid)
        exact hticked.congr hstop (congrArg Ledger.machine (ledger_stop _ caller))

variable [Quantity α]

theorem inTune_reset {e f : Engine α} (h : e.reset = (f, .ok ())) : f.InTune := by
  unfold reset at h
  cases hm : e.machine with
  | none =>
      rw [hm] at h
      cases h
  | some m =>
      rw [hm] at h
      cases h
      apply InTune.of_eq
      rw [soundOn_setSound, machine_setSound]
      rfl

variable [Tracing]

/-- A call for instructions ends with the buzzer in tune, whatever has happened in it. -/
theorem inTune_runCycles {e f : Engine α} {caller : Caller} {count : Int} {executed : Nat}
    (h : e.runCycles caller count = (f, .ok executed)) : f.InTune := by
  unfold runCycles at h
  cases hm : e.machine with
  | none =>
      rw [hm] at h
      cases h
  | some m =>
      rw [hm] at h
      dsimp only at h
      generalize runSteps caller count.toNat e 0 = ran at h
      rcases ran with ⟨g, executed, reason | done⟩
      · cases h
      · cases h
        apply InTune.of_eq
        rw [soundOn_setSound, machine_setSound]

theorem inTune_cpuTick {e f : Engine α} {caller : Caller} {dt : α}
    (h : e.cpuTick caller dt = (f, .ok ())) : f.InTune := by
  unfold cpuTick at h
  generalize Pace.slice e.rate e.timerRate e.budget dt = slice at h
  rcases slice with ⟨budget, reason | count⟩
  · cases h
  · dsimp only at h
    cases hc : runCycles { e with budget } caller count with
    | mk g result =>
        rw [hc] at h
        cases result with
        | error reason => cases h
        | ok executed =>
            have htuned := inTune_runCycles hc
            dsimp only at h
            split at h
            · cases h
              exact htuned.congr rfl rfl
            · cases h
              exact htuned

/-- The timers' tick from within a run ends no run. -/
theorem inTune_tickTimers_run {e f : Engine α} (h : e.tickTimers .run = (f, .ok ())) :
    f.InTune := by
  obtain ⟨asked, hledger⟩ := worked_of_tickTimers h
  have honward := onward_tickTimers e
  rw [h] at honward
  refine inTune_tickTimers h fun id hid => ?_
  rcases honward.turn with ⟨hg, hp⟩ | ⟨hlt, -⟩
  · exact (hasEnded_congr hg (congrArg Phase.alive hp) id).1 hid
  · exact absurd (congrArg Ledger.generation hledger) hlt.ne'

/-- A tick that does not break its run off leaves the buzzer in tune. -/
theorem inTune_tick {e f : Engine α} {id : Nat} {dt : α} (hid : e.stopped id = false)
    (h : e.tick id dt = (f, .ok ())) : f.InTune := by
  have hstages := tick_stages e id dt
  rw [h] at hstages
  generalize ho : (f, (Except.ok () : Except Refusal Unit)) = outcome at hstages
  cases hstages with
  | stopped hstop =>
      rw [stopped_of_ledger (ledger_countTick e), hid] at hstop
      cases hstop
  | noMachine hgo hm => cases ho
  | halted hgo ht hstop =>
      -- the refresh has asked for a stop, and nothing more is done
      cases ho
      exact inTune_tickTimers_run ht
  | sliced hgo ht hgo' => exact inTune_cpuTick ho.symm

/-- Whatever is done in a history, the buzzer is in tune after every tick that does not break its
run off. -/
theorem inTune_beat {e : Engine α} {history : List (Occurrence α)} {t : Beat α}
    (ht : t ∈ e.beats history) (hok : (t.before.tick t.run t.dt).2 = .ok ()) :
    t.after.InTune := by
  apply inTune_tick (stopped_of_mem_beats ht)
  rw [← hok]
  rfl

/-! ## New engines -/

omit [Tracing] in
/-- The buzzer of a new engine is off, and nothing has been told. -/
theorem silent_of_create {rate timerRate : α} {random : RandomSource} {policy : Policy}
    {schedule : List (List α)} {new : Engine α}
    (h : create rate timerRate random policy schedule = .ok new) :
    new.soundOn = false ∧ new.trail = [] := by
  unfold create at h
  split at h
  · cases h
  · cases h
    exact ⟨rfl, rfl⟩

omit [Tracing] in
theorem drives_any : Drives fun _ => True :=
  ⟨fun _ => trivial, trivial, trivial, trivial⟩

/-- Whatever is done with a new engine, the reports of its buzzer tell of every change. -/
theorem flips_of_create {rate timerRate : α} {random : RandomSource} {policy : Policy}
    {schedule : List (List α)} {new : Engine α}
    (h : create rate timerRate random policy schedule = .ok new)
    (history : List (Occurrence α)) :
    Flips false (new.after history).buzzes (new.after history).soundOn := by
  obtain ⟨hsilent, hquiet⟩ := silent_of_create h
  have houtward : new.Outward (fun _ => True) (new.after history) :=
    outward_after drives_any (fun _ _ _ => trivial) new
  obtain ⟨signals, htrail, hflips⟩ := houtward.flips
  rw [hquiet, List.append_nil] at htrail
  rw [hsilent] at hflips
  rw [buzzes, htrail]
  exact hflips

end Engine

end Chip8
