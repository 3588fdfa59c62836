import Chip8.Number.Basic
import Chip8.Proofs.Engine.Counter
import Chip8.Proofs.Engine.Halt
import Chip8.Proofs.Engine.Load
import Chip8.Proofs.Engine.Scheduler
import Chip8.Proofs.Machine.Reset

/-!
# Restarts from within a run

If the policy is to restart after a fault, then the new run is made while the old one is still in
the middle of a slice. What the old run does until it has unwound leaves a renewed engine as it is
(`Engine.Renewed`): the rest of the slice, the account of the slice, the end of the tick, and the
end of the run. Then the new run makes its clock, and finds the machine reset with the program in
its memory (`Engine.restart_begins_clean`).
-/

set_option autoImplicit false

namespace Chip8

/-- The machine that is left by a reset and a program that is then loaded. -/
def Machine.restarted (m : Machine) (program : List Int) : Machine :=
  m.reset.withProgram (program.map fun z => UInt8.ofNat z.toNat)

namespace Engine

variable {α : Type}

/-- The run `id` has been replaced by a pending one, which will find the machine `m`. -/
structure Renewed [Quantity α] (id : Nat) (m : Machine) (e : Engine α) : Prop where
  generation : e.generation = id + 1
  phase : e.phase = .pending
  stopRequested : e.stopRequested = false
  machine : e.machine = some m
  budget : e.budget = Quantity.zero
  fault : e.fault = none

variable [Quantity α] {id : Nat} {m : Machine}

theorem Renewed.stopped {e : Engine α} (h : e.Renewed id m) : e.stopped id = true := by
  rw [Engine.stopped, h.generation, bne_iff_ne.2 (Nat.succ_ne_self id), Bool.true_or]

/-- The end of the old run leaves a renewed engine as it is, with the buzzer off. -/
theorem Renewed.finish {e : Engine α} (h : e.Renewed id m) :
    e.finish.Renewed id m ∧ e.finish.soundOn = false := by
  have hl := ledger_finish e
  have hp : e.finish.phase = .pending := by
    have hnot : ¬ e.phase = .live := by
      rw [h.phase]
      nofun
    exact (congrArg Control.phase (control_finish e)).trans ((if_neg hnot).trans h.phase)
  refine ⟨⟨?_, hp, ?_, ?_, ?_, ?_⟩, soundOn_setSound _ false⟩
  · exact (congrArg Ledger.generation hl).trans h.generation
  · exact (congrArg Ledger.stopRequested hl).trans h.stopRequested
  · exact (congrArg Ledger.machine hl).trans h.machine
  · exact (congrArg Ledger.budget hl).trans h.budget
  · exact (congrArg Ledger.fault hl).trans h.fault

end Engine

/-! ## Unwinding -/

namespace Engine

variable {α : Type} [Quantity α]

/-- If the program of the policy is accepted then a fault is answered by a restart. -/
theorem fail_of_restart {e : Engine α} {m : Machine} (hm : e.machine = some m)
    {program : List Int} (hp : e.policy.onFault = .restart program)
    (ha : Memory.Accepts program) (caller : Caller) (reason : Fault) :
    ∃ f, e.fail caller m reason = (f, .ok ()) ∧ f.ledger = { e.ledger with
      machine := some (m.restarted program), fault := none, budget := Quantity.zero
      generation := e.generation + 1, stopRequested := false
      reports := reason :: e.reports } := by
  have haccepted := m.reset.init_of_accepts ha
  have hanswer := fail_answer hm caller reason
  generalize e.fail caller m reason = answered at hanswer
  cases hanswer with
  | kept hnot _ => exact absurd hp (hnot program)
  | refused hr hi _ =>
      cases hp.symm.trans hr
      cases haccepted.symm.trans hi
  | @restarted f _ _ hr hi hl =>
      cases hp.symm.trans hr
      cases haccepted.symm.trans hi
      exact ⟨f, rfl, hl⟩

/-- A call within a run that meets a fault leaves a renewed engine, and is not broken off. -/
theorem renewed_runCycles [Tracing] {e : Engine α} {program : List Int}
    (hp : e.policy.onFault = .restart program) (ha : Memory.Accepts program) {count : Int}
    {s : Step} (hs : s ∈ e.steps .run count.toNat) {reason : Fault}
    (hfault : s.result = .error (.fault reason)) :
    (e.runCycles .run count).1.Renewed e.generation (s.machine.restarted program) ∧
      ∃ executed, (e.runCycles .run count).2 = .ok executed := by
  obtain ⟨m, -, hm, -, -⟩ := ready_of_steps hs
  obtain ⟨done, f, -, -, ⟨asked, hf⟩, hfm, hran⟩ := runSteps_of_fault hs hfault
  have hpolicy : f.policy.onFault = .restart program :=
    (congrArg (fun l : Ledger α => l.policy.onFault) hf).trans hp
  have hgeneration : f.generation = e.generation := congrArg Ledger.generation hf
  obtain ⟨g, hfail, hg⟩ := fail_of_restart hfm hpolicy ha .run reason
  obtain ⟨hl, hresult⟩ := runCycles_of_machine hm .run count
  rw [hran, hfail] at hl hresult
  have hmoves : e.Moves .run True True (e.runCycles .run count).1 := moves_runCycles trivial e count
  generalize e.runCycles .run count = called at hl hresult hmoves
  have hnew : called.1.generation = e.generation + 1 :=
    (congrArg Ledger.generation hl).trans
      ((congrArg Ledger.generation hg).trans (congrArg (· + 1) hgeneration))
  -- a run that has been started from within is pending
  have hphase : called.1.phase = .pending := by
    rcases hmoves.onward.turn with ⟨hsame, -⟩ | ⟨-, hpending⟩
    · omega
    · exact hpending
  refine ⟨⟨hnew, hphase, ?_, ?_, ?_, ?_⟩, _, hresult⟩
  · exact (congrArg Ledger.stopRequested hl).trans (congrArg Ledger.stopRequested hg)
  · exact (congrArg Ledger.machine hl).trans (congrArg Ledger.machine hg)
  · exact (congrArg Ledger.budget hl).trans (congrArg Ledger.budget hg)
  · exact (congrArg Ledger.fault hl).trans (congrArg Ledger.fault hg)

end Engine

/-- A deed of a run that meets a fault leaves a renewed engine, and is not broken off. -/
theorem Deed.renewed_of_fault {α : Type} [Quantity α] [Tracing] {d : Deed α}
    (hby : d.ByRunning) {id : Nat} (hrun : d.run = some id) {program : List Int}
    (hp : d.before.policy.onFault = .restart program) (ha : Memory.Accepts program) {s : Step}
    (hs : s ∈ d.steps) {reason : Fault} (hfault : s.result = .error (.fault reason)) :
    d.after.Renewed id (s.machine.restarted program) ∧ d.outcome.2 = .ok () := by
  obtain ⟨hgeneration, -, -⟩ := hby id hrun
  obtain ⟨run, job, e⟩ := d
  subst hrun
  cases job with
  | begin | tickTimers => cases hs
  | runCycles count =>
      obtain ⟨hrenewed, executed, hresult⟩ := Engine.renewed_runCycles hp ha hs hfault
      rw [← hgeneration]
      exact ⟨hrenewed, congrArg (Except.map fun _ => ()) hresult⟩

namespace Engine

variable {α : Type} [Quantity α]

section Restarts

variable [Tracing]

theorem timerRate_tick (id : Nat) (e : Engine α) (dt : α) :
    (e.tick id dt).1.timerRate = e.timerRate :=
  (onward_tick id e dt).timerRate.trans (congrArg Ledger.timerRate (ledger_countTick e))

theorem deeds_singleton (e : Engine α) (o : Occurrence α) :
    e.deeds [o] = e.occurDeeds o ++ (e.occur o).settleDeeds :=
  List.append_nil _

/-- The old run has unwound: the buzzer is off, and the new run can make its clock. -/
structure Unwound (id : Nat) (m : Machine) (e : Engine α) : Prop extends Renewed id m e where
  soundOn : e.soundOn = false
  period : ∃ period, Quantity.div (Quantity.one : α) e.timerRate = .ok period

section Unwinding

variable {id : Nat} {m : Machine} {d : Deed α} {e : Engine α} {pre post : List (Deed α)}
  (hsteps : d.steps ≠ []) (hrun : d.run = some id) (hok : d.outcome.2 = .ok ())
  (hd : d.after.Renewed id m)

include hsteps hok hd

/-- The rest of the slice is dropped, and its account is empty. -/
theorem renewed_cpuTick {run : Option Nat} {dt : α}
    (h : e.cpuTickDeeds run dt = pre ++ d :: post) :
    post = [] ∧ d.run = run ∧
      ∃ f : Engine α, e.cpuTick (.ofRun run) dt = (f, .ok ()) ∧ f.Renewed id m := by
  unfold cpuTickDeeds at h
  unfold cpuTick
  generalize Pace.slice e.rate e.timerRate e.budget dt = slice at h ⊢
  rcases slice with ⟨budget, reason | count⟩
  · cases (List.nil_eq_append_iff.1 h).2
  · obtain ⟨-, hpost⟩ | ⟨-, hnone⟩ := List.singleton_eq_append_iff.1 h
    · cases hpost
      refine ⟨rfl, rfl, ?_⟩
      unfold Deed.after at hd
      unfold Deed.outcome at hok hd
      dsimp only at hok hd ⊢
      generalize runCycles { e with budget } (.ofRun run) count = called at hok hd ⊢
      rcases called with ⟨f, reason | executed⟩
      · cases hok
      · -- the call has left the account empty, and what is dropped leaves it so
        dsimp only at hd ⊢
        by_cases hlt : (executed : Int) < count
        · rw [if_pos hlt]
          exact ⟨_, rfl, hd.generation, hd.phase, hd.stopRequested, hd.machine, rfl, hd.fault⟩
        · rw [if_neg hlt]
          exact ⟨f, rfl, hd⟩
    · cases hnone

/-- The tick comes to its end. -/
theorem renewed_tick {n : Nat} {dt : α} (h : e.tickDeeds n dt = pre ++ d :: post) :
    post = [] ∧ d.run = some n ∧
      ∃ f : Engine α, e.tick n dt = (f, .ok ()) ∧ f.Renewed id m := by
  unfold tickDeeds countedDeeds at h
  unfold tick guarded
  generalize e.countTick = counted at h ⊢
  by_cases hstop : counted.stopped n = true
  · rw [if_pos hstop] at h
    cases (List.nil_eq_append_iff.1 h).2
  · rw [if_neg hstop] at h ⊢
    dsimp only
    obtain ⟨-, hfirst⟩ | ⟨more, -, hrest⟩ := List.cons_eq_append_iff.1 h
    · -- the timers meet no fault
      obtain ⟨rfl, -⟩ := List.cons.inj hfirst
      exact absurd rfl hsteps
    · generalize counted.tickTimers .run = ticked at hrest ⊢
      rcases ticked with ⟨f, reason | done⟩
      · cases (List.nil_eq_append_iff.1 hrest).2
      · dsimp only at hrest ⊢
        by_cases hstop : f.stopped n = true
        · rw [if_pos hstop] at hrest
          cases (List.nil_eq_append_iff.1 hrest).2
        · rw [if_neg hstop] at hrest ⊢
          exact renewed_cpuTick hsteps hok hd hrest

include hrun

/-- The old run makes no more ticks. -/
theorem renewed_play {n : Nat} {times : List α} (h : playDeeds n times e = pre ++ d :: post) :
    post = [] ∧
      ∃ f : Engine α, play n times e = f.finish ∧ f.Renewed id m ∧
        f.timerRate = e.timerRate := by
  induction times generalizing e pre with
  | nil => cases (List.nil_eq_append_iff.1 h).2
  | cons dt rest ih =>
      unfold playDeeds at h
      unfold play
      by_cases hstop : e.stopped n = true
      · rw [if_pos hstop] at h
        cases (List.nil_eq_append_iff.1 h).2
      · rw [if_neg hstop] at h ⊢
        have hrate := timerRate_tick n e dt
        obtain ⟨mid, hfirst, rfl⟩ | ⟨mid, rfl, hlater⟩ := append_eq_append_cons h
        · obtain ⟨rfl, hn, f, htick, hf⟩ := renewed_tick hsteps hok hd hfirst
          cases hn.symm.trans hrun
          rw [htick] at hrate ⊢
          dsimp only
          rw [playDeeds_of_stopped hf.stopped, play_of_stopped hf.stopped]
          exact ⟨rfl, f, rfl, hf, hrate⟩
        · -- the fault comes on a later tick
          generalize e.tick n dt = ticked at hlater hrate ⊢
          rcases ticked with ⟨f, reason | done⟩
          · cases (List.nil_eq_append_iff.1 hlater).2
          · obtain ⟨hpost, g, hplay, hg, htimer⟩ := ih hlater
            exact ⟨hpost, g, hplay, hg, htimer.trans hrate⟩

/-- A pending run that faults has unwound when the next one is to begin. -/
theorem unwound_begin {times : List α} {later : List (List α)}
    (h : e.beginDeeds times later = pre ++ d :: post) :
    post = [] ∧ (e.begin times later).Unwound id m := by
  unfold beginDeeds at h
  unfold begin
  cases ho : e.openClock later with
  | none =>
      rw [ho] at h
      cases (List.nil_eq_append_iff.1 h).2
  | some opened =>
      rw [ho] at h
      obtain ⟨period, hperiod, hcontrol⟩ := control_of_openClock ho
      have hopened : opened.timerRate = e.timerRate := congrArg Control.timerRate hcontrol
      dsimp only at h ⊢
      by_cases hstop : opened.stopRequested = true
      · rw [if_pos hstop] at h
        cases (List.nil_eq_append_iff.1 h).2
      · rw [if_neg hstop] at h
        obtain ⟨-, hfirst⟩ | ⟨more, -, hrest⟩ := List.cons_eq_append_iff.1 h
        · -- the beginning meets no fault
          obtain ⟨rfl, -⟩ := List.cons.inj hfirst
          exact absurd rfl hsteps
        · obtain ⟨hpost, f, hplay, hf, hrate⟩ := renewed_play hsteps hrun hok hd hrest
          obtain ⟨hfinish, hsound⟩ := hf.finish
          have htimer : f.finish.timerRate = e.timerRate :=
            (congrArg Ledger.timerRate (ledger_finish f)).trans (hrate.trans hopened)
          rw [hplay]
          exact ⟨hpost, hfinish, hsound, period, htimer ▸ hperiod⟩

theorem unwound_playPending {runs : List (List α)} (h : pendingDeeds runs e = pre ++ d :: post) :
    ∃ later, ∃ f : Engine α, f.Unwound id m ∧ post = pendingDeeds later f ∧
      playPending runs e = playPending later f := by
  induction runs generalizing e pre with
  | nil =>
      unfold pendingDeeds at h
      by_cases hp : e.phase = .pending
      · -- a run without ticks meets no fault
        rw [if_pos hp] at h
        obtain ⟨-, hunwound⟩ := unwound_begin hsteps hrun hok hd h
        exact absurd hunwound.phase (phase_begin_nil e [])
      · rw [if_neg hp] at h
        cases (List.nil_eq_append_iff.1 h).2
  | cons times later ih =>
      unfold pendingDeeds at h
      by_cases hp : e.phase = .pending
      · rw [if_pos hp] at h
        have hplay : playPending (times :: later) e = playPending later (e.begin times later) :=
          if_pos hp
        rw [hplay]
        obtain ⟨mid, hfirst, rfl⟩ | ⟨mid, rfl, hlater⟩ := append_eq_append_cons h
        · obtain ⟨rfl, hunwound⟩ := unwound_begin hsteps hrun hok hd hfirst
          exact ⟨later, e.begin times later, hunwound, rfl, rfl⟩
        · exact ih hlater
      · rw [if_neg hp] at h
        cases (List.nil_eq_append_iff.1 h).2

/-- Whatever the occurrence is in which a run faults, what follows are the deeds of the runs that
are pending when the old run has unwound. -/
theorem unwound_occur {o : Occurrence α} (he : e.Orderly)
    (h : e.occurDeeds o ++ (e.occur o).settleDeeds = pre ++ d :: post) :
    ∃ later, ∃ f : Engine α, f.Unwound id m ∧ post = pendingDeeds later f ∧
      playPending (e.occur o).schedule (e.occur o) = playPending later f := by
  obtain ⟨mid, hfirst, rfl⟩ | ⟨mid, -, hsettled⟩ := append_eq_append_cons h
  · cases o with
    | command files c =>
        -- a command does nothing in the name of a run
        have hmem : d ∈ e.performDeeds c := by
          rw [show e.performDeeds c = pre ++ d :: mid from hfirst]
          exact List.mem_append_right pre List.mem_cons_self
        cases (run_of_mem_performDeeds hmem).symm.trans hrun
    | tick dt =>
        unfold occurDeeds at hfirst
        by_cases hl : e.phase = .live
        · simp only [if_pos hl] at hfirst
          obtain ⟨rfl, f, hplay, hf, hrate⟩ := renewed_play hsteps hrun hok hd hfirst
          obtain ⟨c, -, -, hperiod⟩ := he.live hl
          obtain ⟨hfinish, hsound⟩ := hf.finish
          have hoccur : e.occur (.tick dt) = f.finish := (if_pos hl).trans hplay
          have htimer : f.finish.timerRate = e.timerRate :=
            (congrArg Ledger.timerRate (ledger_finish f)).trans hrate
          rw [hoccur]
          exact ⟨f.finish.schedule, f.finish, ⟨hfinish, hsound, c.period, htimer ▸ hperiod⟩, rfl,
            rfl⟩
        · simp only [if_neg hl] at hfirst
          cases (List.nil_eq_append_iff.1 hfirst).2
  · exact unwound_playPending hsteps hrun hok hd hsettled

end Unwinding

/-! ## The new run -/

/-- What a new run finds when it begins: the machine is reset, but for its keypad and its source of
random bytes, and holds the program; nothing is due, no fault is kept, and the buzzer is off. -/
structure BeginsClean (before : Machine) (program : List Int) (e : Engine α) : Prop where
  machine : ∃ memory : Memory,
    e.machine = some { Machine.fresh before.keypad before.random with memory } ∧
      ∀ a, programStart ≤ a → a < memorySize →
        ((memory.byte a).toNat : Int) = program[a - programStart]?.getD 0
  budget : e.budget = Quantity.zero
  fault : e.fault = none
  soundOn : e.soundOn = false

omit [Tracing] in
theorem BeginsClean.countTick {before : Machine} {program : List Int} {e : Engine α}
    (h : e.BeginsClean before program) : e.countTick.BeginsClean before program := by
  obtain ⟨clocks, hcounted⟩ := countTick_eq e
  rw [hcounted]
  exact ⟨h.machine, h.budget, h.fault, h.soundOn⟩

omit [Tracing] in
theorem byte_restarted (before : Machine) {program : List Int} (ha : Memory.Accepts program)
    {a : Nat} (hstart : programStart ≤ a) (hlt : a < memorySize) :
    (((before.restarted program).memory.byte a).toNat : Int) =
      program[a - programStart]?.getD 0 := by
  rw [Machine.restarted, Machine.byte_reset_withProgram before _ hstart hlt, List.getElem?_map]
  cases hz : program[a - programStart]? with
  | none => rfl
  | some z =>
      obtain ⟨h0, h256⟩ := ha.bytes z (List.mem_of_getElem? hz)
      show ((UInt8.ofNat z.toNat).toNat : Int) = z
      rw [UInt8.toNat_ofNat']
      omega

/-- When the old run has unwound, the new one makes its clock and begins. -/
theorem begins_of_unwound {id : Nat} {before : Machine} {program : List Int} {e : Engine α}
    (he : e.Unwound id (before.restarted program)) (ha : Memory.Accepts program)
    (times : List α) (later : List (List α)) :
    ∃ g : Engine α, g.BeginsClean before program ∧
      e.beginDeeds times later = ⟨some (id + 1), .begin, g⟩ :: playDeeds (id + 1) times g ∧
      e.begin times later = play (id + 1) times g := by
  obtain ⟨period, hperiod⟩ := he.period
  let g : Engine α := { e with
    phase := .live
    schedule := later
    clocks := ⟨period, 0, clockFunctions⟩ :: e.clocks }
  have hopen : e.openClock later = some g := by
    rw [openClock, hperiod]
  have hasked : g.stopRequested = false := he.stopRequested
  have hgeneration : g.generation = id + 1 := he.generation
  have hclean : g.BeginsClean before program :=
    ⟨⟨_, he.machine, fun a => byte_restarted before ha⟩, he.budget, he.fault, he.soundOn⟩
  refine ⟨g, hclean, ?_, ?_⟩
  · rw [beginDeeds, hopen]
    simp only [hasked, hgeneration, Bool.false_eq_true, if_false]
  · rw [begin, hopen]
    simp only [hgeneration]

theorem pendingDeeds_of_ne {e : Engine α} (hp : e.phase ≠ .pending) (runs : List (List α)) :
    pendingDeeds runs e = [] := by
  cases runs with
  | nil => exact if_neg hp
  | cons times later => exact if_neg hp

/-- The new run takes the first list of ticks. If it has none then it waits, as it has begun. -/
theorem pending_of_unwound {id : Nat} {before : Machine} {program : List Int} {e : Engine α}
    (he : e.Unwound id (before.restarted program)) (ha : Memory.Accepts program)
    (runs : List (List α)) :
    ∃ times rest, ∃ g : Engine α, g.BeginsClean before program ∧
      pendingDeeds runs e = ⟨some (id + 1), .begin, g⟩ :: (playDeeds (id + 1) times g ++ rest) ∧
      (times = [] → rest = [] ∧ playPending runs e = g.rest (id + 1)) := by
  cases runs with
  | nil =>
      obtain ⟨g, hclean, hdeeds, hplay⟩ := begins_of_unwound he ha [] []
      refine ⟨[], [], g, hclean, ?_, fun _ => ⟨rfl, ?_⟩⟩
      · rw [pendingDeeds, if_pos he.phase, hdeeds]
        rfl
      · rw [playPending, if_pos he.phase, hplay]
        rfl
  | cons times later =>
      obtain ⟨g, hclean, hdeeds, hplay⟩ := begins_of_unwound he ha times later
      refine ⟨times, pendingDeeds later (e.begin times later), g, hclean, ?_, ?_⟩
      · rw [pendingDeeds, if_pos he.phase, hdeeds]
        rfl
      · rintro rfl
        -- the new run waits for its first tick, so that no other one is pending
        have hwaits := phase_begin_nil e later
        refine ⟨pendingDeeds_of_ne hwaits later, ?_⟩
        rw [playPending, if_pos he.phase, playPending_of_ne hwaits, hplay]
        rfl

/-- A run that waits and need not stop goes on waiting when the call from outside is over. -/
theorem settle_of_rest {e g : Engine α} {id : Nat}
    (hplay : playPending e.schedule e = g.rest id) (hasked : g.stopRequested = false) :
    e.settle = g.rest id := by
  have hrest : (g.rest id).stopRequested = false :=
    (congrArg Ledger.stopRequested (ledger_rest g id)).trans hasked
  rw [settle, hplay]
  refine if_neg ?_
  rintro ⟨-, hstop⟩
  rw [hrest] at hstop
  cases hstop

/-- The first thing that a run does on its ticks is to count the timers down. -/
theorem playDeeds_cons {id : Nat} {e : Engine α} (h : e.stopped id = false) (dt : α)
    (later : List α) :
    ∃ others, playDeeds id (dt :: later) e = ⟨some id, .tickTimers, e.countTick⟩ :: others := by
  have hcounted : e.countTick.stopped id = false :=
    (stopped_of_ledger (ledger_countTick e) id).trans h
  rw [playDeeds, if_neg (Bool.eq_false_iff.1 h), tickDeeds, countedDeeds,
    if_neg (Bool.eq_false_iff.1 hcounted)]
  exact ⟨_, List.cons_append⟩

/-- A run of a new engine, on any of its ticks, meets a fault, and the policy is to restart with a
program that is accepted. Then the next that happens is the beginning of a new run, after the old
one has unwound, and the old one does nothing any more. The new run begins clean, and so its first
tick finds it, whether its ticks are there already or come later. The instructions that were
counted by then are all those that were carried out since the engine was created. -/
theorem restart_begins_clean {rate timerRate : α} {random : RandomSource} {policy : Policy}
    {schedule : List (List α)} {new : Engine α}
    (hc : create rate timerRate random policy schedule = .ok new)
    {program : List Int} (hp : policy.onFault = .restart program) (ha : Memory.Accepts program)
    (history : List (Occurrence α)) (o : Occurrence α) {pre post : List (Deed α)} {d : Deed α}
    (hd : (new.after history).deeds [o] = pre ++ d :: post) {id : Nat} (hrun : d.run = some id)
    {s : Step} (hs : s ∈ d.steps) {reason : Fault} (hfault : s.result = .error (.fault reason)) :
    ∃ times rest, ∃ g : Engine α,
      post = ⟨some (id + 1), .begin, g⟩ :: (playDeeds (id + 1) times g ++ rest) ∧
      g.BeginsClean s.machine program ∧
      (∀ dt later, times = dt :: later → g.countTick.BeginsClean s.machine program ∧ ∃ others,
        playDeeds (id + 1) times g = ⟨some (id + 1), .tickTimers, g.countTick⟩ :: others) ∧
      (times = [] → rest = [] ∧ (new.after history).next o = g.rest (id + 1)) ∧
      (∀ more, ∀ x ∈ post ++ ((new.after history).next o).deeds more, x.run ≠ some id) ∧
      ((∀ x ∈ history ++ [o], x.isOrdinary = true) →
        g.cycles = ((new.deeds history ++ pre ++ [d]).flatMap Deed.instructions).length) := by
  have hall : new.deeds (history ++ [o]) = (new.deeds history ++ pre) ++ d :: post := by
    rw [deeds_append, hd, List.append_assoc]
  have hled : Led True new (new.deeds (history ++ [o])) (new.after (history ++ [o])) :=
    led_after (fun _ _ => Or.inl trivial) new
  obtain ⟨-, hby, hpost⟩ := hled.split hall
  -- the fault is answered by a restart, and the old run unwinds
  have hpolicy : d.before.policy = policy := by
    refine (hled.policy.2 d ?_).trans (congrArg Control.policy (eq_of_create hc).2)
    rw [hall]
    exact List.mem_append_right _ List.mem_cons_self
  obtain ⟨hrenewed, hok⟩ := Deed.renewed_of_fault hby hrun (hpolicy ▸ hp) ha hs hfault
  have horderly : (new.after history).Orderly := (inherits_after new history (orderly_create hc)).1
  have hsteps : d.steps ≠ [] := List.ne_nil_of_mem hs
  rw [deeds_singleton] at hd
  obtain ⟨later, f, hunwound, rfl, hplayed⟩ :=
    unwound_occur hsteps hrun hok hrenewed horderly hd
  -- then the new run begins
  obtain ⟨times, rest, g, hclean, hdeeds, hwaits⟩ := pending_of_unwound hunwound ha later
  have hbegin : new.deeds (history ++ [o]) = (new.deeds history ++ pre ++ [d]) ++
      ⟨some (id + 1), .begin, g⟩ :: (playDeeds (id + 1) times g ++ rest) := by
    rw [hall, hdeeds, List.append_assoc _ [d]]
    rfl
  obtain ⟨-, hbegins, -⟩ := hled.split hbegin
  obtain ⟨hgeneration, -, hasked⟩ := hbegins (id + 1) rfl
  refine ⟨times, rest, g, hdeeds, hclean, ?_, ?_, ?_, ?_⟩
  · rintro dt others rfl
    have hnew : g.stopped (id + 1) = false := by
      rw [← hgeneration, stopped_generation, hasked]
    exact ⟨hclean.countTick, playDeeds_cons hnew dt others⟩
  · intro htimes
    obtain ⟨hrest, hplay⟩ := hwaits htimes
    exact ⟨hrest, settle_of_rest (hplayed.trans hplay) hasked⟩
  · intro more
    have hhalted : d.after.Halted id :=
      ⟨hrenewed.generation ▸ Nat.le_succ id, hrenewed.stopped⟩
    have hmore : Led True _ (((new.after history).next o).deeds more) _ :=
      led_after (fun _ _ => Or.inl trivial) ((new.after history).next o)
    rw [after_append] at hpost
    exact (hpost.append hmore).silent hhalted
  · intro ho
    -- up to the beginning of the new run no deed was broken off
    have hordinary : Led False new (new.deeds (history ++ [o])) (new.after (history ++ [o])) :=
      led_after (fun x hx => Or.inr (ho x hx)) new
    obtain ⟨hbefore, -, -⟩ := hordinary.split hbegin
    have hcontrol := (eq_of_create hc).2
    have hzero : new.cycles = 0 := congrArg Control.cycles hcontrol
    have hnew : new.policy = policy := congrArg Control.policy hcontrol
    have haccepts : ∀ p, new.policy.onFault = .restart p → Memory.Accepts p := by
      intro p hq
      rw [hnew, hp] at hq
      cases hq
      exact ha
    refine (hbefore.cycles_of_accepts (sane_create hc) haccepts).trans ?_
    rw [hzero, Nat.zero_add]

end Restarts

open Tracing.Off in
/-- A program sets a register, switches the buzzer on and returns from nowhere, on the first of two
ticks. The new run begins with a clean machine and two instructions counted, and its own tick is
the next thing that is done. -/
theorem restart_begins_clean_buzzing :
    ∃ new : Engine Number,
      create (.int 300) (.int 60) ⟨fun _ => 0, 0⟩ ⟨.restart [0x12, 0x00], none, none⟩
        [[.real 1.0, .real 1.0], [.real 1.0]] = .ok new ∧
      let history := [.command .emptyDirectory (.init [0x6A, 0x05, 0xFA, 0x18, 0x00, 0xEE])]
      let deeds := (new.after history).deeds [.command .emptyDirectory .start]
      deeds.map Deed.run = [some 1, some 1, some 1, some 2, some 2, some 2] ∧
        ∃ d s rest, ∃ g : Engine Number,
          deeds = deeds.take 2 ++ d :: ⟨some 2, .begin, g⟩ :: rest ∧
          s ∈ d.steps ∧ s.result = .error (.fault (.stackUnderflow 0x204)) ∧
          g.BeginsClean s.machine [0x12, 0x00] ∧ g.cycles = 2 ∧ ∀ x ∈ rest, x.run ≠ some 1 := by
  refine ⟨_, rfl, ?_⟩
  intro history deeds
  have hnew : create (.int 300 : Number) (.int 60) ⟨fun _ => 0, 0⟩
    ⟨.restart [0x12, 0x00], none, none⟩ [[.real 1.0, .real 1.0], [.real 1.0]] = .ok _ := rfl
  have hruns : deeds[2]?.map Deed.run = some (some 1) := by decide +kernel
  have hresults : deeds[2]?.map (fun d => d.steps.map Step.result) =
      some [.ok (some 0x6A05), .ok (some 0xFA18), .error (.fault (.stackUnderflow 0x204))] := by
    decide +kernel
  have hlast : (deeds[2]?.toList.flatMap Deed.instructions).length = 2 := by decide +kernel
  obtain ⟨d, hd, hrun⟩ := Option.map_eq_some_iff.1 hruns
  rw [hd] at hresults hlast
  have hthird : (d.steps.map Step.result)[2]? =
      some (.error (.fault (.stackUnderflow 0x204))) :=
    congrArg (fun results : List (Except Failure (Option Word)) => results[2]?)
      (Option.some.inj hresults)
  obtain ⟨s, hs, hfault⟩ := List.mem_map.1 (List.mem_of_getElem? hthird)
  have hdeeds : deeds = deeds.take 2 ++ d :: deeds.drop 3 := by
    obtain ⟨hlt, hget⟩ := List.getElem?_eq_some_iff.1 hd
    rw [← hget, ← List.drop_eq_getElem_cons hlt, List.take_append_drop]
  obtain ⟨times, rest, g, hpost, hclean, -, -, hsilent, hcycles⟩ :=
    restart_begins_clean hnew rfl (by decide) history _ hdeeds hrun hs hfault
  refine ⟨by decide +kernel, d, s, _, g, hpost ▸ hdeeds, hs, hfault, hclean, ?_, ?_⟩
  · rw [hcycles (by decide +kernel), List.flatMap_append, List.length_append]
    refine (congrArg (_ + ·) hlast).trans ?_
    decide +kernel
  · intro x hx
    refine hsilent [] x (List.mem_append_left _ ?_)
    rw [hpost]
    exact List.mem_cons_of_mem _ hx

end Engine

end Chip8
