import Chip8.Number.Exact
import Chip8.Proofs.Engine.Halt
import Chip8.Proofs.Engine.Silence

/-!
# Driving an engine in the foreground

A run in the background does on its ticks what can also be done by hand: tick the timers, then call
for as many instructions as an account of one's own is worth (`Engine.drive`). An engine in the
foreground mirrors one whose run is under way if the two show the same and no stop holds the former
up (`Engine.Mirrors`). One tick of the run, if it meets no stop, no fault and no error, takes a
mirror to a mirror, and so do all its ticks (`Engine.Mirrors.tick`, `Engine.Mirrors.play`). The
start of a run brings a stop of the run before with it, so that the mirror is a stopped copy
(`Engine.start_mirrored`).
-/

set_option autoImplicit false

namespace Chip8

/-- Whether the outside is told of a signal. An entry is only written down. -/
def Signal.isHeard : Signal → Bool
  | .entry _ => false
  | .refresh | .buzzer _ | .fault _ => true

/-- An engine as it can be seen and heard while its runs are not looked at. What was heard last
comes first. -/
structure Surface (α : Type) where
  machine : Option Machine
  rate : α
  timerRate : α
  policy : Policy
  cycles : Nat
  fault : Option Fault
  soundOn : Bool
  refreshes : Nat
  heard : List Signal

namespace Engine

variable {α : Type}

/-- The surface of an engine. -/
def surface (e : Engine α) : Surface α where
  machine := e.machine
  rate := e.rate
  timerRate := e.timerRate
  policy := e.policy
  cycles := e.cycles
  fault := e.fault
  soundOn := e.soundOn
  refreshes := e.refreshes
  heard := e.trail.filter Signal.isHeard

/-- What the outside has heard, the oldest first. -/
def heard (e : Engine α) : List Signal :=
  (e.trail.filter Signal.isHeard).reverse

@[simp] theorem surface_noteAll (e : Engine α) (entries : List Entry) :
    (e.noteAll entries).surface = e.surface := by
  induction entries generalizing e with
  | nil => rfl
  | cons entry rest ih => exact ih (e.note entry)

theorem surface_setSound {g b : Engine α} (h : g.surface = b.surface) (on : Bool) :
    (g.setSound on).surface = (b.setSound on).surface := by
  have hsound : g.soundOn = b.soundOn := congrArg Surface.soundOn h
  unfold setSound
  rw [hsound]
  split
  · exact h
  · exact congrArg (fun s : Surface α => { s with
      soundOn := on, heard := .buzzer on :: s.heard }) h

@[simp] theorem surface_countTick (e : Engine α) : e.countTick.surface = e.surface := by
  obtain ⟨clocks, h⟩ := countTick_eq e
  rw [h]
  rfl

theorem setSound_self {e : Engine α} {on : Bool} (h : e.soundOn = on) : e.setSound on = e :=
  if_pos h.symm

theorem surface_finish {e : Engine α} (h : e.soundOn = false) :
    e.finish.surface = e.surface := by
  unfold finish
  refine (congrArg Engine.surface (setSound_self ?_)).trans rfl
  exact h

/-- A stop that finds the buzzer off, or no live run, does not show. -/
theorem surface_stop {e : Engine α} (h : e.phase = .live → e.soundOn = false) :
    (e.stop .outside).surface = e.surface := by
  have hstages := stop_stages e .outside
  generalize e.stop .outside = f at hstages ⊢
  cases hstages with
  | absent _ | ended _ _ => rfl
  | live hl hf =>
      subst hf
      exact surface_finish (h hl)

theorem stopping_congr {e f : Engine α} (h : f.control = e.control) :
    f.stopping = e.stopping := by
  have hp : f.phase = e.phase := congrArg Control.phase h
  have hs : f.stopRequested = e.stopRequested := congrArg Control.stopRequested h
  rw [stopping, stopping, hp, hs]

/-- A run need not stop now if it need not stop later. -/
theorem Later.go {id : Nat} {e f : Engine α} (h : e.Later f) (hid : id ≤ e.generation)
    (hgo : f.stopped id = false) : e.stopped id = false := by
  refine Bool.eq_false_iff.2 fun hstop => ?_
  have hhalted : f.Halted id := Halted.later ⟨hid, hstop⟩ h
  exact Bool.false_ne_true (hgo.symm.trans hhalted.stopped)

/-! ## Mirrors -/

/-- An engine shows the same as another one, and no stop holds it up. -/
structure Mirrors (g b : Engine α) : Prop where
  surface : g.surface = b.surface
  ready : g.stopping = false

/-- After a stop a run has to stop. -/
theorem stopped_stop (e : Engine α) (caller : Caller) (id : Nat) :
    (e.stop caller).stopped id = true := by
  have hasked : (e.stop caller).stopRequested = true :=
    congrArg Ledger.stopRequested (ledger_stop e caller)
  rw [stopped, hasked, Bool.or_true]

theorem Mirrors.taken {g b : Engine α} (h : g.Mirrors b) (after : Machine)
    (entries : List Entry) : (g.taken after entries).Mirrors (b.taken after entries) where
  surface := by
    unfold Engine.taken
    rw [surface_noteAll, surface_noteAll]
    exact congrArg (fun s : Surface α => { s with machine := some after }) h.surface
  ready := (stopping_congr (control_taken g after entries)).trans h.ready

/-- An operation that brings no stop with it is taken over in the foreground, too. -/
theorem Mirrors.absorb {g b : Engine α} (h : g.Mirrors b) {id : Nat} {before after : Machine}
    {entries : List Entry} (hgo : (b.absorb .run before after entries).stopped id = false) :
    (g.absorb .outside before after entries).Mirrors (b.absorb .run before after entries) := by
  have hpolicy : g.policy = b.policy := congrArg Surface.policy h.surface
  by_cases hs : b.policy.Stops before after
  · rw [absorb_of_stops .run entries hs] at hgo
    cases hgo.symm.trans (stopped_stop (b.taken after entries) .run id)
  · rw [absorb_of_not_stops .run entries hs, absorb_of_not_stops .outside entries (hpolicy ▸ hs)]
    exact h.taken after entries

theorem Mirrors.refreshed {g b : Engine α} (h : g.Mirrors b) (m : Machine) :
    (g.refreshed m).Mirrors (b.refreshed m) := by
  have hsounded : (setSound { g with machine := some m.tick } m.tick.buzzing).surface =
      (setSound { b with machine := some m.tick } m.tick.buzzing).surface :=
    surface_setSound (congrArg (fun s : Surface α => { s with machine := some m.tick })
      h.surface) m.tick.buzzing
  have hcontrol := control_refreshed g m
  constructor
  · exact congrArg (fun s : Surface α => { s with
      refreshes := s.refreshes + 1, heard := .refresh :: s.heard }) hsounded
  · have hkept : (g.refreshed m).stopping = g.stopping :=
      congrArg (fun c : Control α => c.phase.alive && c.stopRequested) hcontrol
    exact hkept.trans h.ready

/-- A tick of the timers whose refresh brings no stop with it can be made in the foreground, too. -/
theorem Mirrors.tickTimers {g b b' : Engine α} (h : g.Mirrors b) {id : Nat}
    (ht : b.tickTimers .run = (b', .ok ())) (hgo : b'.stopped id = false) :
    ∃ g', g.tickTimers .outside = (g', .ok ()) ∧ g'.Mirrors b' := by
  cases hm : b.machine with
  | none =>
      rw [tickTimers_of_noMachine hm] at ht
      cases ht
  | some m =>
      have hm' : g.machine = some m := (congrArg Surface.machine h.surface).trans hm
      have hticked := h.refreshed m
      have hpolicy : (g.refreshed m).policy = (b.refreshed m).policy :=
        congrArg Surface.policy hticked.surface
      have hrefreshes : (g.refreshed m).refreshes = (b.refreshed m).refreshes :=
        congrArg Surface.refreshes hticked.surface
      rw [tickTimers_of_machine hm] at ht
      rw [tickTimers_of_machine hm', hpolicy, hrefreshes]
      split at ht
      · cases ht
        cases hgo.symm.trans (stopped_stop (b.refreshed m) .run id)
      next hn =>
        cases ht
        rw [if_neg hn]
        exact ⟨_, rfl, hticked⟩

variable [Quantity α]

/-- One call for instructions has gone the same way as another one. -/
structure Ran.Mirrors (mine ran : Ran α) : Prop where
  executed : mine.executed = ran.executed
  result : mine.result = ran.result
  engine : mine.engine.Mirrors ran.engine

section Driving

variable [Tracing]

/-- A call for instructions that meets no stop and no error goes the same way in the foreground. -/
theorem Mirrors.runSteps {g b : Engine α} (h : g.Mirrors b) (count executed : Nat)
    (hgo : (runSteps .run count b executed).engine.stopped b.generation = false)
    (hok : (runSteps .run count b executed).result = .ok ()) :
    (Engine.runSteps .outside count g executed).Mirrors (runSteps .run count b executed) ∧
      (runSteps .run count b executed).engine.budget = b.budget := by
  -- each step goes the same way on both engines, as long as none of them asks for a stop
  induction count generalizing g b executed with
  | zero => exact ⟨⟨rfl, rfl, h⟩, rfl⟩
  | succ count ih =>
      unfold Engine.runSteps at hgo hok ⊢
      have hfree : ¬ b.stopping = true := by
        intro hstop
        rw [if_pos hstop, stopped_generation] at hgo
        rw [stopping, hgo, Bool.and_false] at hstop
        cases hstop
      rw [if_neg hfree] at hgo hok ⊢
      rw [if_neg (by rw [h.ready]; exact Bool.false_ne_true)]
      cases hm : b.machine with
      | none =>
          rw [hm] at hok
          cases hok
      | some m =>
          have hm' : g.machine = some m := (congrArg Surface.machine h.surface).trans hm
          obtain ⟨⟨asked, hl⟩, hmachine⟩ := worked_absorb b .run m m.step.machine m.step.entries
          have hmirror : (b.absorb .run m m.step.machine m.step.entries).stopped b.generation =
              false → (g.absorb .outside m m.step.machine m.step.entries).Mirrors
                (b.absorb .run m m.step.machine m.step.entries) := h.absorb
          rw [hm] at hgo hok
          rw [hm']
          dsimp only at hgo hok ⊢
          generalize b.absorb .run m m.step.machine m.step.entries = b' at *
          generalize g.absorb .outside m m.step.machine m.step.entries = g' at *
          have hgeneration : b'.generation = b.generation := congrArg Ledger.generation hl
          have hbudget : b'.budget = b.budget := congrArg Ledger.budget hl
          generalize m.step.result = result at hgo hok ⊢
          rcases result with (reason | reason) | _ | w
          · -- after a fault the run has to stop, whatever the answer to it
            have hstopped := (stopped_fail hmachine .run reason).1
            rw [hgeneration] at hstopped
            cases hgo.symm.trans hstopped
          · cases hok
          · exact ⟨⟨rfl, rfl, hmirror hgo⟩, hbudget⟩
          · dsimp only at hgo hok ⊢
            have hmoves : b'.Moves .run True True
                (Engine.runSteps .run count b' (executed + 1)).engine := moves_runSteps count b' _
            have hgo' := hmoves.later.go (Nat.le_of_eq hgeneration.symm) hgo
            rw [← hgeneration] at hgo
            obtain ⟨hrest, hkept⟩ := ih (hmirror hgo') _ hgo hok
            exact ⟨hrest, hkept.trans hbudget⟩

theorem Mirrors.runCycles {g b b' : Engine α} (h : g.Mirrors b) {count : Int} {executed : Nat}
    (hr : b.runCycles .run count = (b', .ok executed)) (hgo : b'.stopped b.generation = false) :
    b'.budget = b.budget ∧
      ∃ g', g.runCycles .outside count = (g', .ok executed) ∧ g'.Mirrors b' := by
  unfold Engine.runCycles at hr ⊢
  cases hm : b.machine with
  | none =>
      rw [hm] at hr
      cases hr
  | some m =>
      have hm' : g.machine = some m := (congrArg Surface.machine h.surface).trans hm
      rw [hm] at hr
      rw [hm']
      dsimp only at hr ⊢
      have hmirror := h.runSteps count.toNat 0
      generalize Engine.runSteps .run count.toNat b 0 = ran at hr hmirror
      generalize Engine.runSteps .outside count.toNat g 0 = mine at hmirror ⊢
      rcases ran with ⟨f, n, reason | done⟩
      · cases hr
      · cases hr
        -- the count and the buzzer are of no account for what the run has to do
        have hledger := ledger_setSound { f with cycles := f.cycles + n }
          (f.machine.any Machine.buzzing)
        have hgo' : f.stopped b.generation = false := by
          rw [← hgo]
          exact (stopped_congr (congrArg Ledger.generation hledger)
            (congrArg Ledger.stopRequested hledger) b.generation).symm
        obtain ⟨⟨hn, hok, hrest⟩, hbudget⟩ := hmirror hgo' rfl
        rcases mine with ⟨k, n', result⟩
        cases hn
        cases hok
        have hbuzzing : k.machine.any Machine.buzzing = f.machine.any Machine.buzzing :=
          congrArg (fun s : Surface α => s.machine.any Machine.buzzing) hrest.surface
        refine ⟨(congrArg Ledger.budget hledger).trans hbudget, _, rfl, ?_, ?_⟩
        · dsimp only
          rw [hbuzzing]
          exact surface_setSound (congrArg (fun s : Surface α => { s with
            cycles := s.cycles + n }) hrest.surface) _
        · exact (stopping_congr (control_setSound _ _)).trans hrest.ready

/-- A slice that is carried out in the background can be called for in the foreground. -/
theorem Mirrors.cpuTick {g b b' : Engine α} (h : g.Mirrors b) {dt : α}
    (hc : b.cpuTick .run dt = (b', .ok ())) (hgo : b'.stopped b.generation = false) :
    ∃ left count executed g', Pace.slice g.rate g.timerRate b.budget dt = (left, .ok count) ∧
      g.runCycles .outside count = (g', .ok executed) ∧
      b'.budget = (if (executed : Int) < count then Quantity.zero else left) ∧ g'.Mirrors b' := by
  have hrate : g.rate = b.rate := congrArg Surface.rate h.surface
  have htimerRate : g.timerRate = b.timerRate := congrArg Surface.timerRate h.surface
  unfold Engine.cpuTick at hc
  rw [hrate, htimerRate]
  generalize Pace.slice b.rate b.timerRate b.budget dt = slice at hc ⊢
  rcases slice with ⟨left, reason | count⟩
  · cases hc
  · dsimp only at hc
    -- the account of the run does not show, and in the foreground it is kept by hand
    have hmirror : g.Mirrors { b with budget := left } := ⟨h.surface, h.ready⟩
    cases hr : Engine.runCycles { b with budget := left } .run count with
    | mk f result =>
        rw [hr] at hc
        cases result with
        | error reason => cases hc
        | ok executed =>
            dsimp only at hc
            by_cases hlt : (executed : Int) < count
            · rw [if_pos hlt] at hc
              cases hc
              obtain ⟨-, g', hg, hrest⟩ := hmirror.runCycles hr hgo
              exact ⟨left, count, executed, g', rfl, hg, (if_pos hlt).symm, hrest.surface,
                hrest.ready⟩
            · rw [if_neg hlt] at hc
              cases hc
              obtain ⟨hbudget, g', hg, hrest⟩ := hmirror.runCycles hr hgo
              exact ⟨left, count, executed, g', rfl, hg, hbudget.trans (if_neg hlt).symm, hrest⟩

/-! ## Driving by hand -/

/-- One tick in the foreground: the timers are ticked, and then as many instructions are called for
as the account is worth. A call that was cut short leaves nothing of the account. -/
def driveTick (account dt : α) (e : Engine α) : Option (α × Engine α) :=
  match e.tickTimers .outside with
  | (_, .error _) => none
  | (ticked, .ok ()) =>
    match Pace.slice ticked.rate ticked.timerRate account dt with
    | (_, .error _) => none
    | (left, .ok count) =>
      match ticked.runCycles .outside count with
      | (_, .error _) => none
      | (f, .ok executed) => some (if (executed : Int) < count then Quantity.zero else left, f)

/-- Some ticks in the foreground, from an account of instructions. -/
def drive (account : α) : List α → Engine α → Option (Engine α)
  | [], e => some e
  | dt :: rest, e =>
    match driveTick account dt e with
    | none => none
    | some (left, f) => drive left rest f

/-- A tick of a run that need not stop after it can be done in the foreground, with the run's
account. -/
theorem Mirrors.tick {g b b' : Engine α} (h : g.Mirrors b) {id : Nat} {dt : α}
    (hid : b.stopped id = false) (ht : b.tick id dt = (b', .ok ()))
    (hgo : b'.stopped id = false) :
    ∃ g', driveTick b.budget dt g = some (b'.budget, g') ∧ g'.Mirrors b' := by
  have hledger := ledger_countTick b
  have hcounted : g.Mirrors b.countTick := ⟨h.surface.trans (surface_countTick b).symm, h.ready⟩
  have hbudget : b.countTick.budget = b.budget := congrArg Ledger.budget hledger
  have hstages := tick_stages b id dt
  rw [ht] at hstages
  generalize hb : (b', (Except.ok () : Except Refusal Unit)) = outcome at hstages
  cases hstages with
  | stopped hstop =>
      rw [stopped_of_ledger hledger, hid] at hstop
      cases hstop
  | noMachine _ _ => cases hb
  | halted _ _ hstop =>
      cases hb
      cases hgo.symm.trans hstop
  | @sliced ticked _ htimers hready =>
      obtain ⟨asked, hworked⟩ := worked_of_tickTimers htimers
      have hleft : ticked.budget = b.countTick.budget := congrArg Ledger.budget hworked
      have hnewest := (stopped_eq_false_iff.1 hready).1
      obtain ⟨gt, hgt, hticked⟩ := hcounted.tickTimers htimers hready
      obtain ⟨left, count, executed, g', hslice, hrun, haccount, hrest⟩ :=
        hticked.cpuTick hb.symm (hnewest ▸ hgo)
      rw [hleft, hbudget] at hslice
      refine ⟨g', ?_, hrest⟩
      simp only [driveTick, hgt, hslice, hrun, haccount]

/-! ## Runs that stay under way -/

/-- The run `id` is under way: it is the newest one, live, and has not been asked to stop. -/
structure UnderWay (id : Nat) (e : Engine α) : Prop where
  phase : e.phase = .live
  go : e.stopped id = false

omit [Quantity α] [Tracing] in
theorem phase_finish_ne_live (e : Engine α) : e.finish.phase ≠ .live := by
  rw [show e.finish.phase = _ from congrArg Control.phase (control_finish e)]
  dsimp only [control]
  split
  · nofun
  next hl => exact hl

omit [Tracing] in
/-- A run that is still under way when its ticks are used up waits for more. -/
theorem rest_of_underWay {id : Nat} {e : Engine α} (h : (e.rest id).UnderWay id) :
    e.rest id = e := by
  refine (rest_cases e id).resolve_left fun hend => ?_
  rw [hend] at h
  exact phase_finish_ne_live e h.phase

/-- A run that is under way after its ticks did not have to stop before. -/
theorem go_of_play {id : Nat} {times : List α} {e : Engine α}
    (h : (play id times e).UnderWay id) : e.stopped id = false := by
  refine Bool.eq_false_iff.2 fun hstop => ?_
  rw [play_of_stopped hstop] at h
  exact phase_finish_ne_live e h.phase

/-- All ticks of a run that is still under way after them can be done in the foreground. -/
theorem Mirrors.play {g b : Engine α} (h : g.Mirrors b) {id : Nat} {times : List α}
    (hf : (play id times b).UnderWay id) :
    ∃ g', (∀ rest, drive b.budget (times ++ rest) g = drive (play id times b).budget rest g') ∧
      g'.Mirrors (play id times b) := by
  induction times generalizing g b with
  | nil =>
      have hrest : Engine.play id [] b = b := rest_of_underWay hf
      rw [hrest]
      exact ⟨g, fun _ => rfl, h⟩
  | cons dt later ih =>
      have hgo : b.stopped id = false := go_of_play hf
      unfold Engine.play at hf ⊢
      rw [if_neg (Bool.eq_false_iff.1 hgo)] at hf ⊢
      cases ht : b.tick id dt with
      | mk b' result =>
          rw [ht] at hf
          cases result with
          | error reason => exact absurd hf.phase (phase_finish_ne_live b')
          | ok done =>
              dsimp only at hf ⊢
              obtain ⟨g₁, hfirst, hmirror⟩ := h.tick hgo ht (go_of_play hf)
              obtain ⟨g', hrest, hlast⟩ := ih hmirror hf
              refine ⟨g', fun rest => ?_, hlast⟩
              rw [← hrest rest, List.cons_append, drive, hfirst]

/-! ## When a call is over -/

/-- A run at work is pending only if it is a newer one. -/
theorem pending_play {id : Nat} {times : List α} {e : Engine α} (h : e.AtWork id)
    (hp : (play id times e).phase = .pending) : id < (play id times e).generation := by
  have hfinish : ∀ f : Engine α, f.AtWork id → f.finish.phase = .pending →
      id < f.finish.generation := by
    intro f hf hpending
    rw [show f.finish.generation = f.generation from congrArg Ledger.generation (ledger_finish f)]
    rcases hf with ⟨-, hlive⟩ | ⟨hlt, -⟩
    · have hne : f.phase ≠ .pending := by
        rw [hlive]
        nofun
      exact absurd hpending (phase_finish_ne_pending hne).1
    · exact hlt
  induction times generalizing e with
  | nil =>
      unfold play rest at hp ⊢
      split
      next hend =>
        rw [if_pos hend] at hp
        exact hfinish e h hp
      next hend =>
        rw [if_neg hend] at hp
        rcases h with ⟨-, hlive⟩ | ⟨hlt, -⟩
        · cases hlive.symm.trans hp
        · exact hlt
  | cons dt later ih =>
      have hticked : (e.tick id dt).1.AtWork id := h.countTick.onward (onward_tick id e dt)
      unfold play at hp ⊢
      split
      next hstop =>
        rw [if_pos hstop] at hp
        exact hfinish e h hp
      next hstop =>
        rw [if_neg hstop] at hp
        generalize e.tick id dt = ticked at hticked hp ⊢
        rcases ticked with ⟨f, reason | done⟩
        · exact hfinish f hticked hp
        · exact ih hticked hp

/-- An engine whose run is under way when a call is over has only played what was pending. -/
theorem settle_of_underWay {id : Nat} {e : Engine α} (h : e.settle.UnderWay id) :
    e.settle = playPending e.schedule e := by
  have hlive := h.phase
  unfold settle at hlive ⊢
  dsimp only at hlive ⊢
  split
  next hend =>
    rw [if_pos hend] at hlive
    exact absurd hlive (phase_finish_ne_live _)
  next => rfl

/-- If anything was pending, then it was not newer than the run. -/
theorem playPending_of_underWay {id : Nat} {runs : List (List α)} {e : Engine α}
    (hp : e.phase = .pending → id < e.generation) (h : (playPending runs e).UnderWay id) :
    playPending runs e = e := by
  apply playPending_of_ne
  intro hpending
  have hled : Led True e (pendingDeeds runs e) (playPending runs e) :=
    traversal_led.playPending runs e
  have hnewest : (playPending runs e).generation = id := (stopped_eq_false_iff.1 h.go).1
  have hlt := hp hpending
  have hle := hled.later.generation
  omega

theorem later_after (e : Engine α) (history : List (Occurrence α)) :
    e.Later (e.after history) := by
  have hled : Led True e (e.deeds history) (e.after history) :=
    led_after (fun _ _ => Or.inl trivial) e
  exact hled.later

/-- A tick after which the run is under way finds it under way, and is one of its ticks. -/
theorem next_tick_of_underWay {id : Nat} {e : Engine α} (he : e.Settled) (hid : id ≤ e.generation)
    {dt : α} (h : (e.next (.tick dt)).UnderWay id) :
    e.UnderWay id ∧ e.next (.tick dt) = play id [dt] e := by
  have hlater : e.Later (e.next (.tick dt)) := later_after e [.tick dt]
  have hgo : e.stopped id = false := hlater.go hid h.go
  have hnewest : e.generation = id := (stopped_eq_false_iff.1 hgo).1
  have hplayed : e.next (.tick dt) = playPending (e.advance dt).schedule (e.advance dt) :=
    settle_of_underWay h
  rw [hplayed] at h ⊢
  by_cases hl : e.phase = .live
  · have hadvance : e.advance dt = play id [dt] e := by
      rw [advance, if_pos hl, hnewest]
    rw [hadvance] at h ⊢
    exact ⟨⟨hl, hgo⟩, playPending_of_underWay (pending_play (Or.inl ⟨hnewest, hl⟩)) h⟩
  · have hadvance : e.advance dt = e := if_neg hl
    rw [hadvance, playPending_of_ne he.phase] at h
    exact absurd h.phase hl

/-- A run that is under way after some more ticks was so before. -/
theorem underWay_of_ticks {id : Nat} {e : Engine α} (he : e.Settled) (hid : id ≤ e.generation)
    {more : List α} (h : (e.after (more.map .tick)).UnderWay id) : e.UnderWay id := by
  induction more generalizing e with
  | nil => exact h
  | cons dt rest ih =>
      have hle : e.generation ≤ (e.next (.tick dt)).generation :=
        (later_after e [.tick dt]).generation
      have hnext := ih (settled_settle _) (Nat.le_trans hid hle) h
      exact (next_tick_of_underWay he hid hnext).1

/-- All ticks of a live run, as long as it stays under way, can be done in the foreground. -/
theorem Mirrors.after {g b : Engine α} (h : g.Mirrors b) {id : Nat} (hb : b.Settled)
    (hid : id ≤ b.generation) {more : List α} (hf : (b.after (more.map .tick)).UnderWay id) :
    ∃ g', drive b.budget more g = some g' ∧ g'.Mirrors (b.after (more.map .tick)) := by
  induction more generalizing g b with
  | nil => exact ⟨g, rfl, h⟩
  | cons dt rest ih =>
      -- the run is under way after all ticks, and therefore after the first one, too
      have hle : b.generation ≤ (b.next (.tick dt)).generation :=
        (later_after b [.tick dt]).generation
      have hsettled : (b.next (.tick dt)).Settled := settled_settle _
      have hnext := underWay_of_ticks hsettled (Nat.le_trans hid hle) hf
      obtain ⟨-, hplay⟩ := next_tick_of_underWay hb hid hnext
      have hplayed := hplay ▸ hnext
      obtain ⟨g₁, hfirst, hmirror⟩ := h.play hplayed
      rw [← hplay] at hfirst hmirror
      obtain ⟨g', hrest, hlast⟩ := ih hmirror hsettled (Nat.le_trans hid hle) hf
      exact ⟨g', (hfirst rest).trans hrest, hlast⟩

end Driving

/-! ## The start of a run -/

omit [Quantity α] in
theorem heard_of_surface {g b : Engine α} (h : g.surface = b.surface) : g.heard = b.heard :=
  congrArg (fun s : Surface α => s.heard.reverse) h

theorem surface_openClock {e f : Engine α} {later : List (List α)}
    (h : e.openClock later = some f) : f.surface = e.surface := by
  obtain ⟨period, -, rfl⟩ := openClock_eq h
  rfl

/-- A start brings the stop of the run before with it, and no more of it shows. -/
theorem surface_renewed (e : Engine α) : e.renewed.surface = (e.stop .outside).surface := by
  rw [renewed_eq]
  rfl

theorem schedule_renewed (e : Engine α) : e.renewed.schedule = e.schedule := by
  rw [renewed_eq]
  exact congrArg Control.schedule (control_stop_outside e)

theorem generation_renewed (e : Engine α) : e.renewed.generation = e.generation + 1 := by
  rw [renewed_eq]

omit [Quantity α] in
theorem UnderWay.congr {id : Nat} {e f : Engine α} (h : e.UnderWay id)
    (hc : f.control = e.control) : f.UnderWay id where
  phase := (congrArg Control.phase hc).trans h.phase
  go := (stopped_congr (congrArg Control.generation hc) (congrArg Control.stopRequested hc)
    id).trans h.go

/-- A run that has made its clock is at work, and nothing of this shows. -/
theorem Mirrors.openClock {g e f : Engine α} (h : g.Mirrors e) {later : List (List α)}
    (ho : e.openClock later = some f) {id : Nat} (hid : e.generation = id) :
    f.generation = id ∧ f.AtWork id ∧ f.budget = e.budget ∧ g.Mirrors f := by
  obtain ⟨period, -, hopened⟩ := control_of_openClock ho
  have hnewest : f.generation = id := (congrArg Control.generation hopened).trans hid
  refine ⟨hnewest, Or.inl ⟨hnewest, congrArg Control.phase hopened⟩, ?_, ?_⟩
  · exact congrArg Ledger.budget (ledger_of_openClock ho)
  · exact ⟨h.surface.trans (surface_openClock ho).symm, h.ready⟩

section Starting

variable [Tracing]

/-- A run whose clock cannot be made is over at once. -/
theorem not_underWay_of_over {id : Nat} {runs : List (List α)} {e : Engine α}
    (hp : e.phase = .over) : ¬ (playPending runs e).UnderWay id := by
  intro h
  rw [playPending_of_ne (by rw [hp]; nofun)] at h
  cases hp.symm.trans h.phase

/-- A run that is started without ticks makes its clock within the start, and waits. -/
theorem Mirrors.start_idle {g e : Engine α} (h : g.Mirrors e.renewed) {later : List (List α)}
    (hidle : e.renewed.afterIdle = some later)
    (hf : (e.start .outside).settle.UnderWay (e.generation + 1)) :
    (e.start .outside).settle.budget = Quantity.zero ∧ g.Mirrors (e.start .outside).settle := by
  have hkept := control_start_outside e
  have hphase : (e.start .outside).phase = e.renewed.enter.phase := congrArg Control.phase hkept
  have hplayed := settle_of_underWay hf
  rw [hplayed] at hf ⊢
  -- a run without a clock would be over, and one that had to end could not be under way
  cases ho : e.renewed.openClock later with
  | none =>
      have hentered : e.renewed.enter = { e.renewed with phase := .over } := by
        simp only [enter, hidle, ho]
      rw [hentered] at hphase
      exact absurd hf (not_underWay_of_over hphase)
  | some f =>
      obtain ⟨hid, hwork, hbudget, hmirror⟩ := h.openClock ho (generation_renewed e)
      have hentered : e.renewed.enter = f.rest (e.generation + 1) := by
        simp only [enter, hidle, ho, hid]
      have hpending : (e.start .outside).phase = .pending →
          e.generation + 1 < (e.start .outside).generation := by
        rw [hphase, show (e.start .outside).generation = e.renewed.enter.generation from
          congrArg Control.generation hkept, hentered]
        change (Engine.play (e.generation + 1) [] f).phase = .pending → _
        exact pending_play hwork
      have hself := playPending_of_underWay hpending hf
      rw [hself] at hf ⊢
      have hwaits : e.renewed.enter = f := by
        have hentry := hf.congr hkept.symm
        rw [hentered] at hentry ⊢
        exact rest_of_underWay hentry
      rw [start_outside, hwaits]
      constructor
      · exact (congrArg Ledger.budget (ledger_noteAll f _)).trans hbudget
      · exact ⟨hmirror.surface.trans (surface_noteAll f _).symm, hmirror.ready⟩

/-- The ticks of a pending run that is under way after them. -/
theorem Mirrors.begin {g e : Engine α} (h : g.Mirrors e) {id : Nat} (hid : e.generation = id)
    {times : List α} {later runs : List (List α)}
    (hf : (playPending runs (e.begin times later)).UnderWay id) :
    ∃ g', (∀ rest, drive e.budget (times ++ rest) g =
        drive (playPending runs (e.begin times later)).budget rest g') ∧
      g'.Mirrors (playPending runs (e.begin times later)) := by
  cases ho : e.openClock later with
  | none =>
      have hover : (e.begin times later).phase = .over := by
        rw [Engine.begin, ho]
      exact absurd hf (not_underWay_of_over hover)
  | some f =>
      obtain ⟨hnewest, hwork, hbudget, hmirror⟩ := h.openClock ho hid
      have hbegun : e.begin times later = Engine.play id times f := by
        simp only [Engine.begin, ho, hnewest]
      rw [hbegun] at hf ⊢
      have hself := playPending_of_underWay (pending_play hwork) hf
      rw [hself] at hf ⊢
      rw [← hbudget]
      exact hmirror.play hf

/-- The ticks of a run that has been started come after the call. -/
theorem Mirrors.start_ticking {g e : Engine α} (h : g.Mirrors e.renewed) {dt : α}
    {times : List α} {later : List (List α)} (hs : e.schedule = (dt :: times) :: later)
    (hf : (e.start .outside).settle.UnderWay (e.generation + 1)) :
    ∃ g', (∀ rest, drive Quantity.zero (dt :: times ++ rest) g =
        drive (e.start .outside).settle.budget rest g') ∧
      g'.Mirrors (e.start .outside).settle := by
  have hentered : e.renewed.enter = e.renewed := by
    simp only [enter, afterIdle, schedule_renewed, hs]
  have hstart : e.start .outside = e.renewed.noteAll e.renewed.startEntries := by
    rw [start_outside, hentered]
  have hkept : (e.start .outside).control = e.renewed.control := by
    rw [hstart, control_noteAll]
  have hpending : (e.start .outside).phase = .pending := congrArg Control.phase hkept
  have hschedule : (e.start .outside).schedule = (dt :: times) :: later :=
    (congrArg Control.schedule hkept).trans ((schedule_renewed e).trans hs)
  have hid : (e.start .outside).generation = e.generation + 1 :=
    (congrArg Control.generation hkept).trans (generation_renewed e)
  have hmirror : g.Mirrors (e.start .outside) := by
    rw [hstart]
    exact ⟨h.surface.trans (surface_noteAll _ _).symm, h.ready⟩
  have hbudget : (e.start .outside).budget = Quantity.zero := by
    rw [hstart]
    exact congrArg Ledger.budget (ledger_noteAll _ _)
  have hplayed := settle_of_underWay hf
  rw [hplayed, hschedule, playPending, if_pos hpending] at hf
  rw [hplayed, hschedule, playPending, if_pos hpending, ← hbudget]
  exact hmirror.begin hid hf

/-- What a start and the ticks of its run do can be done in the foreground, after a stop. -/
theorem Mirrors.start {g e : Engine α} (h : g.Mirrors (e.stop .outside))
    (hf : (e.start .outside).settle.UnderWay (e.generation + 1)) :
    ∃ g', (∀ rest, drive Quantity.zero (e.schedule.headD [] ++ rest) g =
        drive (e.start .outside).settle.budget rest g') ∧
      g'.Mirrors (e.start .outside).settle := by
  have hrenewed : g.Mirrors e.renewed := ⟨h.surface.trans (surface_renewed e).symm, h.ready⟩
  have hschedule := schedule_renewed e
  cases hs : e.schedule with
  | nil =>
      have hidle : e.renewed.afterIdle = some [] := by
        rw [afterIdle, hschedule, hs]
      obtain ⟨hbudget, hmirror⟩ := hrenewed.start_idle hidle hf
      exact ⟨g, fun rest => by rw [hbudget]; rfl, hmirror⟩
  | cons times later =>
      cases times with
      | nil =>
          have hidle : e.renewed.afterIdle = some later := by
            rw [afterIdle, hschedule, hs]
          obtain ⟨hbudget, hmirror⟩ := hrenewed.start_idle hidle hf
          exact ⟨g, fun rest => by rw [hbudget]; rfl, hmirror⟩
      | cons dt times => exact hrenewed.start_ticking hs hf

/-- Two engines agree in the machine, the count of instructions, the buzzer and the fault, and the
outside has heard the same of them. -/
structure Agrees (g f : Engine α) : Prop where
  machine : g.machine = f.machine
  cycles : g.cycles = f.cycles
  soundOn : g.soundOn = f.soundOn
  fault : g.fault = f.fault
  heard : g.heard = f.heard

omit [Quantity α] [Tracing] in
theorem Mirrors.agrees {g f : Engine α} (h : g.Mirrors f) : g.Agrees f where
  machine := congrArg Surface.machine h.surface
  cycles := congrArg Surface.cycles h.surface
  soundOn := congrArg Surface.soundOn h.surface
  fault := congrArg Surface.fault h.surface
  heard := heard_of_surface h.surface

omit [Quantity α] [Tracing] in
theorem Settled.stopping {e : Engine α} (h : e.Settled) : e.stopping = false := by
  unfold Engine.stopping
  by_cases hl : e.phase = .live
  · rw [h.live hl, Bool.and_false]
  · rw [Phase.alive_eq_false h.phase hl, Bool.false_and]

/-- A run is started, makes the ticks of its list and some more, and is then still under way: it
has met no stop, no fault and no error. Then the machine, the count of instructions, the buzzer,
the fault and what was heard are the same as if a copy of the engine had been stopped and driven
for these ticks in the foreground. The copy need not be stopped if no live run was buzzing. -/
theorem agrees_of_drive {e : Engine α} (he : e.Settled) (files : Node) (more : List α)
    (hnewest : ((e.next (.command files .start)).after (more.map .tick)).generation =
      e.generation + 1)
    (hrunning : ((e.next (.command files .start)).after (more.map .tick)).isRunning = true) :
    let f := (e.next (.command files .start)).after (more.map .tick)
    let times := e.schedule.headD [] ++ more
    (∃ g, drive Quantity.zero times (e.stop .outside) = some g ∧ g.Agrees f) ∧
      ((e.phase = .live → e.soundOn = false) →
        ∃ g, drive Quantity.zero times e = some g ∧ g.Agrees f) := by
  intro f times
  have hbegun : (e.next (.command files .start)).Settled := settled_settle _
  have hsettled : f.Settled := hbegun.after _
  have hlive : f.phase = .live := hsettled.isRunning_iff.1 hrunning
  have hf : f.UnderWay (e.generation + 1) :=
    ⟨hlive, stopped_eq_false_iff.2 ⟨hnewest, hsettled.live hlive⟩⟩
  have hid : e.generation + 1 ≤ (e.next (.command files .start)).generation := by
    have hled : Led True (e.start .outside) _ (e.start .outside).settle := led_settle _
    have hstart : (e.start .outside).generation = e.generation + 1 :=
      congrArg Ledger.generation (ledger_start e .outside)
    exact hstart ▸ hled.later.generation
  have hstarted := underWay_of_ticks hbegun hid hf
  -- whatever mirrors the stopped engine can be driven in place of the run
  have hdriven : ∀ g : Engine α, g.Mirrors (e.stop .outside) →
      ∃ g', drive Quantity.zero times g = some g' ∧ g'.Agrees f := by
    intro g hg
    obtain ⟨g₁, hfirst, hmirror⟩ := hg.start hstarted
    obtain ⟨g', hrest, hlast⟩ := hmirror.after hbegun hid hf
    exact ⟨g', (hfirst more).trans hrest, hlast.agrees⟩
  constructor
  · apply hdriven
    refine ⟨rfl, ?_⟩
    rw [stopping, phase_stop_outside]
    rfl
  · intro hsilent
    apply hdriven
    exact ⟨(surface_stop hsilent).symm, he.stopping⟩

end Starting

open Tracing.Off in
/-- A program sets the sound timer and waits for a key. Its run makes three ticks, and the last two
slices are cut short by the wait. -/
theorem agrees_of_drive_key_wait :
    ∃ new : Engine Rat,
      create 120 60 ⟨fun _ => 0, 0⟩ ⟨.stop, none, none⟩ [[1 / 60, 1 / 60]] = .ok new ∧
      let e := new.after
        [.command .emptyDirectory (.init [0x60, 0x05, 0xF0, 0x18, 0xF1, 0x0A])]
      let f := (e.next (.command .emptyDirectory .start)).after [.tick (1 / 60)]
      let times := e.schedule.headD [] ++ [1 / 60]
      f.generation = e.generation + 1 ∧ f.isRunning = true ∧ f.cycles = 3 ∧
        f.heard = [.refresh, .buzzer true, .refresh, .refresh] ∧
        (∃ g, drive Quantity.zero times (e.stop .outside) = some g ∧ g.Agrees f) ∧
        ∃ g, drive Quantity.zero times e = some g ∧ g.Agrees f := by
  refine ⟨_, rfl, ?_⟩
  intro e f times
  have hnew : create (120 : Rat) 60 ⟨fun _ => 0, 0⟩ ⟨.stop, none, none⟩ [[1 / 60, 1 / 60]] =
      .ok _ := rfl
  have he : e.Settled := (settled_create hnew).after _
  have hnewest : f.generation = e.generation + 1 := by decide +kernel
  have hrunning : f.isRunning = true := by decide +kernel
  have habsent : e.phase ≠ .live := by decide +kernel
  obtain ⟨hstopped, hdriven⟩ := agrees_of_drive he .emptyDirectory [1 / 60] hnewest hrunning
  exact ⟨hnewest, hrunning, by decide +kernel, by decide +kernel, hstopped,
    hdriven fun hl => absurd hl habsent⟩

open Tracing.Off in
/-- A start that finds a live run buzzing ends it first, and so the buzzer is heard to be switched
off and on again. A copy that is driven without a stop just goes on buzzing. -/
theorem heard_of_drive_buzzing :
    ∃ new : Engine Rat,
      create 60 60 ⟨fun _ => 0, 0⟩ ⟨.ignore, none, none⟩ [[1 / 60, 1 / 60], [1 / 60]] = .ok new ∧
      let init : Occurrence Rat :=
        .command .emptyDirectory (.init [0x60, 0x05, 0xF0, 0x18, 0x12, 0x04])
      let start : Occurrence Rat := .command .emptyDirectory .start
      let e := new.after [init, start]
      let f := e.next start
      e.phase = .live ∧ e.schedule = [[1 / 60]] ∧ f.generation = e.generation + 1 ∧
        f.isRunning = true ∧
        e.heard = [.refresh, .refresh, .buzzer true] ∧
        f.heard = [.refresh, .refresh, .buzzer true, .buzzer false, .buzzer true, .refresh] ∧
        (drive Quantity.zero [1 / 60] e).map heard =
          some [.refresh, .refresh, .buzzer true, .refresh] := by
  refine ⟨_, rfl, ?_⟩
  intro init start e f
  exact ⟨by decide +kernel, by decide +kernel, by decide +kernel, by decide +kernel,
    by decide +kernel, by decide +kernel, by decide +kernel⟩

end Engine

end Chip8
