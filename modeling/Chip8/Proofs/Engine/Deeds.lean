import Chip8.Proofs.Engine.History
import Chip8.Proofs.Engine.Ticks
import Mathlib

/-!
# The deeds of an engine

Everything that is done with the machine by runs, or by calls from outside that drive it, is a
deed: a run begins, the timers are counted down and a refresh is signalled, or instructions are
called for. `Engine.deeds` lists the deeds of a history in order, each with the engine that it
found and with the number of the run that did it; `Engine.playDeeds` and its kin follow the
functions that play the runs.

`Engine.Traversal` says what a relation has to satisfy so that it holds along these functions. One
such relation is `Engine.Led`, by which the deeds are all there is: between them nothing is counted,
no refresh is signalled and no stop is taken back. What holds of each deed then holds of every
history.
-/

set_option autoImplicit false

namespace Chip8

/-- An element in the middle of two lists that are put together stands in the first or in the second
one. -/
theorem append_eq_append_cons {β : Type} {first rest pre post : List β} {x : β}
    (h : first ++ rest = pre ++ x :: post) :
    (∃ mid, first = pre ++ x :: mid ∧ post = mid ++ rest) ∨
      ∃ mid, pre = first ++ mid ∧ rest = mid ++ x :: post := by
  obtain ⟨mid, hpre, hrest⟩ | ⟨mid, hfirst, hmid⟩ := List.append_eq_append_iff.1 h
  · exact Or.inr ⟨mid, hpre, hrest⟩
  · obtain ⟨rfl, hrest⟩ | ⟨more, rfl, rfl⟩ := List.cons_eq_append_iff.1 hmid
    · refine Or.inr ⟨[], ?_, hrest⟩
      rw [hfirst, List.append_nil, List.append_nil]
    · exact Or.inl ⟨more, hfirst, rfl⟩

/-- The word whose instruction a step has carried out. -/
def Step.instruction? (s : Step) : Option Word :=
  match s.result with
  | .ok found => found
  | .error _ => none

theorem Step.isSome_instruction?_iff {s : Step} : s.instruction?.isSome = true ↔ s.Completed := by
  unfold instruction? Completed
  rcases s.result with reason | found
  · simp only [Option.isSome_none, Bool.false_eq_true, reduceCtorEq, exists_false]
  · simp only [Option.isSome_iff_exists, Except.ok.injEq]

/-- What is done: a run begins, the timers tick, or instructions are called for. -/
inductive Job where
  | begin
  | tickTimers
  | runCycles (count : Int)
  deriving DecidableEq, Repr

/-- Where the calls of a run come from; without a run they come from outside. -/
def Caller.ofRun : Option Nat → Caller
  | none => .outside
  | some _ => .run

/-- Something that is done with an engine, the engine that is found, and the number of the run that
does it. What is done from outside has no number. -/
structure Deed (α : Type) where
  run : Option Nat
  job : Job
  before : Engine α

namespace Deed

variable {α : Type}

/-- The run that does something is under way and was not asked to stop. -/
def ByRunning (d : Deed α) : Prop :=
  ∀ id, d.run = some id →
    d.before.generation = id ∧ d.before.phase = .live ∧ d.before.stopRequested = false

variable [Quantity α] [Tracing]

/-- What a deed leaves of the engine, and whether it was broken off by an error. -/
def outcome (d : Deed α) : Engine α × Except Refusal Unit :=
  match d.job with
  | .begin => (d.before, .ok ())
  | .tickTimers => d.before.tickTimers (.ofRun d.run)
  | .runCycles count =>
    let called := d.before.runCycles (.ofRun d.run) count
    (called.1, called.2.map fun _ => ())

/-- The engine after a deed. -/
def after (d : Deed α) : Engine α :=
  d.outcome.1

/-- Whether a deed was broken off by an error. -/
def brokenOff (d : Deed α) : Bool :=
  match d.outcome.2 with
  | .ok () => false
  | .error _ => true

/-- The steps of a deed. -/
def steps (d : Deed α) : List Step :=
  match d.job with
  | .begin | .tickTimers => []
  | .runCycles count => d.before.steps (.ofRun d.run) count.toNat

/-- The instructions that were carried out. -/
def instructions (d : Deed α) : List Word :=
  d.steps.filterMap Step.instruction?

/-- The number of instructions that a deed adds to the engine's count. -/
def counted (d : Deed α) : Nat :=
  if d.brokenOff then 0 else d.instructions.length

/-- The number of refreshes that a deed signals. -/
def refreshed (d : Deed α) : Nat :=
  match d.job with
  | .tickTimers => if d.brokenOff then 0 else 1
  | .begin | .runCycles _ => 0

end Deed

namespace Engine

variable {α : Type}

/-! ## Between deeds -/

/-- Nothing that deeds do has happened. -/
structure Idle (e f : Engine α) : Prop where
  machine : f.machine = e.machine
  policy : f.policy = e.policy
  cycles : f.cycles = e.cycles
  refreshes : f.refreshes = e.refreshes
  later : e.Later f

theorem Idle.of_control {e f : Engine α} (hm : f.machine = e.machine) {schedule : List (List α)}
    {phase : Phase} {clocks : List (Clock α)}
    (h : f.control = { e.control with schedule, phase, clocks }) : e.Idle f where
  machine := hm
  policy := congrArg Control.policy h
  cycles := congrArg Control.cycles h
  refreshes := congrArg Control.refreshes h
  later := .of_eq (congrArg Control.generation h) fun hs =>
    (congrArg Control.stopRequested h).trans hs

theorem Idle.refl (e : Engine α) : e.Idle e :=
  .of_control rfl rfl

theorem idle_finish (e : Engine α) : e.Idle e.finish :=
  .of_control (congrArg Ledger.machine (ledger_finish e)) (control_finish e)

theorem idle_countTick (e : Engine α) : e.Idle e.countTick := by
  obtain ⟨clocks, h⟩ := countTick_eq e
  rw [h]
  exact .of_control rfl rfl

theorem AtWork.countTick {id : Nat} {e : Engine α} (h : e.AtWork id) :
    e.countTick.AtWork id := by
  obtain ⟨clocks, hcounted⟩ := countTick_eq e
  rw [hcounted]
  exact h

theorem AtWork.byRunning {id : Nat} {e : Engine α} (h : e.AtWork id) (hid : e.stopped id = false)
    (job : Job) : (⟨some id, job, e⟩ : Deed α).ByRunning := by
  intro id' heq
  cases heq
  exact h.isRunning hid

/-! ## The deeds of runs and commands -/

variable [Quantity α]

/-- The deeds of a slice. -/
def cpuTickDeeds (e : Engine α) (run : Option Nat) (dt : α) : List (Deed α) :=
  match Pace.slice e.rate e.timerRate e.budget dt with
  | (_, .error _) => []
  | (budget, .ok count) => [⟨run, .runCycles count, { e with budget }⟩]

/-- The deeds of a tick of the run `id`, from the engine that has counted it. -/
def countedDeeds (id : Nat) (e : Engine α) (dt : α) : List (Deed α) :=
  if e.stopped id then []
  else ⟨some id, .tickTimers, e⟩ ::
    match e.tickTimers .run with
    | (_, .error _) => []
    | (f, .ok ()) => if f.stopped id then [] else f.cpuTickDeeds (some id) dt

/-- The deeds of a tick of the run `id`. -/
def tickDeeds (id : Nat) (e : Engine α) (dt : α) : List (Deed α) :=
  countedDeeds id e.countTick dt

variable [Tracing]

/-- The deeds of the run `id` on its ticks. -/
def playDeeds (id : Nat) : List α → Engine α → List (Deed α)
  | [], _ => []
  | dt :: rest, e =>
    if e.stopped id then []
    else e.tickDeeds id dt ++
      match e.tick id dt with
      | (_, .error _) => []
      | (f, .ok ()) => playDeeds id rest f

/-- The deeds of a pending run. It begins with the engine that it finds when it has made its
clock. A run that has no ticks when it is started from outside begins within the start, and this
is not told apart from the start. -/
def beginDeeds (e : Engine α) (times : List α) (later : List (List α)) : List (Deed α) :=
  match e.openClock later with
  | none => []
  | some f =>
    if f.stopRequested then []
    else ⟨some f.generation, .begin, f⟩ :: playDeeds f.generation times f

/-- The deeds of pending runs. -/
def pendingDeeds : List (List α) → Engine α → List (Deed α)
  | [], e => if e.phase = .pending then e.beginDeeds [] [] else []
  | times :: later, e =>
    if e.phase = .pending then
      e.beginDeeds times later ++ pendingDeeds later (e.begin times later)
    else []

/-- The deeds of the runs that an occurrence has left pending. -/
def settleDeeds (e : Engine α) : List (Deed α) :=
  pendingDeeds e.schedule e

/-- The deeds of a command. -/
def performDeeds (e : Engine α) : Command α → List (Deed α)
  | .tickTimers => [⟨none, .tickTimers, e⟩]
  | .runCycles count => [⟨none, .runCycles count, e⟩]
  | .cpuTick dt => e.cpuTickDeeds none dt
  | _ => []

/-- The deeds of an occurrence, before pending runs are played. -/
def occurDeeds (e : Engine α) : Occurrence α → List (Deed α)
  | .command _ c => e.performDeeds c
  | .tick dt => if e.phase = .live then playDeeds e.generation [dt] e else []

/-- The deeds of a history. -/
def deeds : List (Occurrence α) → Engine α → List (Deed α)
  | [], _ => []
  | o :: rest, e => e.occurDeeds o ++ (e.occur o).settleDeeds ++ deeds rest (e.next o)

theorem deeds_append (first rest : List (Occurrence α)) (e : Engine α) :
    e.deeds (first ++ rest) = e.deeds first ++ (e.after first).deeds rest := by
  induction first generalizing e with
  | nil => rfl
  | cons o more ih =>
      rw [List.cons_append, deeds, deeds, ih, after_cons, List.append_assoc _ _ (deeds rest _)]

/-- A run that has to stop does nothing on its ticks. -/
theorem playDeeds_of_stopped {id : Nat} {e : Engine α} (h : e.stopped id = true)
    (times : List α) : playDeeds id times e = [] := by
  cases times with
  | nil => rfl
  | cons dt rest => rw [playDeeds, if_pos h]

/-! ## Whose deeds they are -/

omit [Tracing] in
theorem run_of_mem_cpuTickDeeds {e : Engine α} {run : Option Nat} {dt : α} {d : Deed α}
    (h : d ∈ e.cpuTickDeeds run dt) : d.run = run := by
  unfold cpuTickDeeds at h
  generalize Pace.slice e.rate e.timerRate e.budget dt = slice at h
  rcases slice with ⟨budget, reason | count⟩
  · cases h
  · cases List.mem_singleton.1 h
    rfl

omit [Tracing] in
theorem run_of_mem_tickDeeds {e : Engine α} {id : Nat} {dt : α} {d : Deed α}
    (h : d ∈ e.tickDeeds id dt) : d.run = some id := by
  unfold tickDeeds countedDeeds at h
  generalize e.countTick = counted at h
  by_cases hid : counted.stopped id = true
  · rw [if_pos hid] at h
    cases h
  · rw [if_neg hid] at h
    rcases List.mem_cons.1 h with rfl | h
    · rfl
    · generalize counted.tickTimers .run = ticked at h
      rcases ticked with ⟨f, reason | done⟩
      · cases h
      · dsimp only at h
        by_cases hstop : f.stopped id = true
        · rw [if_pos hstop] at h
          cases h
        · rw [if_neg hstop] at h
          exact run_of_mem_cpuTickDeeds h

omit [Tracing] in
/-- What is done from outside is not done by a run. -/
theorem run_of_mem_performDeeds {e : Engine α} {c : Command α} {d : Deed α}
    (h : d ∈ e.performDeeds c) : d.run = none := by
  cases c with
  | tickTimers | runCycles count =>
      cases List.mem_singleton.1 h
      rfl
  | cpuTick dt => exact run_of_mem_cpuTickDeeds h
  | _ => cases h

/-! ## Along the functions that play runs -/

/-- What holds of everything that runs do one after the other: of their deeds, of the account of a
slice, of their clocks and of their ends. A relation that has these properties holds of all that is
played. -/
structure Traversal (R : Engine α → List (Deed α) → Engine α → Prop) : Prop where
  append : ∀ {e f g : Engine α} {first rest : List (Deed α)},
    R e first f → R f rest g → R e (first ++ rest) g
  account : ∀ (e : Engine α) (budget : α), R e [] { e with budget }
  countTick : ∀ e : Engine α, R e [] e.countTick
  finish : ∀ e : Engine α, R e [] e.finish
  openClock : ∀ {e f : Engine α} {later : List (List α)},
    e.phase = .pending → e.openClock later = some f → R e [] f
  noClock : ∀ {e : Engine α} {later : List (List α)},
    e.phase = .pending → e.openClock later = none → R e [] { e with phase := .over }
  deed : ∀ d : Deed α, d.run ≠ none → d.ByRunning → R d.before [d] d.after

namespace Traversal

variable {R : Engine α → List (Deed α) → Engine α → Prop} (h : Traversal R)

include h

theorem refl (e : Engine α) : R e [] e :=
  h.account e e.budget

/-- One more deed, before what comes after it. -/
theorem cons {d : Deed α} {rest : List (Deed α)} {f g : Engine α} (hd : R d.before [d] d.after)
    (hf : d.after = f) (hg : R f rest g) : R d.before (d :: rest) g :=
  h.append hd (hf.symm ▸ hg)

/-- What comes after something that is no deed. -/
theorem skip {e f g : Engine α} {deeds : List (Deed α)} (hf : R e [] f) (hg : R f deeds g) :
    R e deeds g :=
  h.append hf hg

theorem rest (e : Engine α) (id : Nat) : R e [] (e.rest id) := by
  rcases rest_cases e id with hrest | hrest
  · rw [hrest]
    exact h.finish e
  · rw [hrest]
    exact h.refl e

theorem cpuTick (e : Engine α) (run : Option Nat) (dt : α)
    (hdeed : ∀ (budget : α) (count : Int),
      let d : Deed α := ⟨run, .runCycles count, { e with budget }⟩
      R d.before [d] d.after) :
    R e (e.cpuTickDeeds run dt) (e.cpuTick (.ofRun run) dt).1 := by
  unfold cpuTickDeeds Engine.cpuTick
  rcases Pace.slice e.rate e.timerRate e.budget dt with ⟨budget, reason | count⟩
  · exact h.account e budget
  · let d : Deed α := ⟨run, .runCycles count, { e with budget }⟩
    have hd : d.after = ({ e with budget }.runCycles (.ofRun run) count).1 := rfl
    refine h.skip (h.account e budget) (h.cons (d := d) (hdeed budget count) hd ?_)
    dsimp only
    rcases runCycles { e with budget } (.ofRun run) count with ⟨f, reason | executed⟩
    · exact h.refl f
    · dsimp only
      split
      · exact h.account f Quantity.zero
      · exact h.refl f

theorem tick {id : Nat} {e : Engine α} (hid : e.AtWork id) (dt : α) :
    R e (e.tickDeeds id dt) (e.tick id dt).1 := by
  apply h.skip (h.countTick e)
  have hcounted := hid.countTick
  show R e.countTick (countedDeeds id e.countTick dt) (e.tick id dt).1
  unfold countedDeeds Engine.tick guarded
  generalize e.countTick = counted at hcounted ⊢
  cases hstop : counted.stopped id with
  | true =>
      -- neither of the run's functions does anything
      simp only [if_pos, hstop]
      exact h.refl counted
  | false =>
      let d : Deed α := ⟨some id, .tickTimers, counted⟩
      have hticked := onward_tickTimers counted
      have hd : R d.before [d] d.after :=
        h.deed d (Option.some_ne_none id) (hcounted.byRunning hstop .tickTimers)
      refine h.cons (d := d) hd rfl ?_
      dsimp only [d, Deed.after, Deed.outcome, Caller.ofRun]
      generalize counted.tickTimers .run = ticked at hticked ⊢
      rcases ticked with ⟨f, reason | done⟩
      · exact h.refl f
      · have hf : f.AtWork id := hcounted.onward hticked
        show R f (if f.stopped id = true then [] else f.cpuTickDeeds (some id) dt)
          (if f.stopped id = true then (f, Except.ok ()) else f.cpuTick .run dt).1
        cases hstop : f.stopped id with
        | true => exact h.refl f
        | false =>
            apply h.cpuTick f (some id) dt
            intro budget count
            exact h.deed _ (Option.some_ne_none id) (hf.byRunning hstop (.runCycles count))

/-- The ticks of a run. -/
theorem play {id : Nat} {e : Engine α} (hid : e.AtWork id) (times : List α) :
    R e (playDeeds id times e) (play id times e) := by
  induction times generalizing e with
  | nil => exact h.rest e id
  | cons dt later ih =>
      unfold playDeeds Engine.play
      by_cases hstop : e.stopped id = true
      · rw [if_pos hstop, if_pos hstop]
        exact h.finish e
      · rw [if_neg hstop, if_neg hstop]
        refine h.append (h.tick hid dt) ?_
        have hticked := hid.countTick.onward (onward_tick id e dt)
        generalize e.tick id dt = ticked at hticked ⊢
        rcases ticked with ⟨f, reason | done⟩
        · exact h.finish f
        · exact ih hticked

/-- A pending run, if it can make its clock or not. -/
theorem begin {e : Engine α} (hp : e.phase = .pending) (times : List α)
    (later : List (List α)) : R e (e.beginDeeds times later) (e.begin times later) := by
  unfold beginDeeds Engine.begin
  cases ho : e.openClock later with
  | none => exact h.noClock hp ho
  | some f =>
      obtain ⟨period, -, hf⟩ := control_of_openClock ho
      have hwork : f.AtWork f.generation := Or.inl ⟨rfl, congrArg Control.phase hf⟩
      have hplay := h.play hwork times
      apply h.skip (h.openClock hp ho)
      dsimp only
      cases hstop : f.stopRequested with
      | true =>
          -- a run that has to stop before its first tick does nothing
          rw [playDeeds_of_stopped ((stopped_generation f).trans hstop)] at hplay
          exact hplay
      | false =>
          have hby := hwork.byRunning ((stopped_generation f).trans hstop) .begin
          have hd := h.deed ⟨some f.generation, .begin, f⟩ (Option.some_ne_none _) hby
          exact h.cons hd rfl hplay

theorem playPending (runs : List (List α)) (e : Engine α) :
    R e (pendingDeeds runs e) (playPending runs e) := by
  induction runs generalizing e with
  | nil =>
      unfold pendingDeeds Engine.playPending
      by_cases hp : e.phase = .pending
      · rw [if_pos hp, if_pos hp]
        exact h.begin hp [] []
      · rw [if_neg hp, if_neg hp]
        exact h.refl e
  | cons times later ih =>
      unfold pendingDeeds Engine.playPending
      by_cases hp : e.phase = .pending
      · rw [if_pos hp, if_pos hp]
        exact h.append (h.begin hp times later) (ih (e.begin times later))
      · rw [if_neg hp, if_neg hp]
        exact h.refl e

/-- All runs that an occurrence has left pending. -/
theorem settle (e : Engine α) : R e e.settleDeeds e.settle := by
  have hplayed : R e e.settleDeeds (Engine.playPending e.schedule e) :=
    h.playPending e.schedule e
  unfold Engine.settle
  dsimp only
  split
  · -- a live run that was asked to stop ends, and does nothing for it
    rw [← List.append_nil e.settleDeeds]
    exact h.append hplayed (h.finish _)
  · exact hplayed

/-- One more tick of a live run. -/
theorem advance (e : Engine α) (dt : α) : R e (e.occurDeeds (.tick dt)) (e.advance dt) := by
  unfold occurDeeds Engine.advance
  by_cases hl : e.phase = .live
  · simp only [if_pos hl]
    exact h.play (Or.inl ⟨rfl, hl⟩) [dt]
  · simp only [if_neg hl]
    exact h.refl e

end Traversal

/-! ## What the deeds lead to -/

/-- A list of deeds leads from one engine to another: everything that happens is one of these deeds,
or a call from outside does something else. `odd` says whether such a call may reach into the
machine. -/
inductive Led (odd : Prop) : Engine α → List (Deed α) → Engine α → Prop where
  | idle {e f : Engine α} (h : e.Idle f) : Led odd e [] f
  | moves {e f : Engine α} (h : e.Moves .outside odd False f) : Led odd e [] f
  | deed (d : Deed α) (h : d.ByRunning) : Led odd d.before [d] d.after
  | append {e f g : Engine α} {first rest : List (Deed α)} (hf : Led odd e first f)
      (hg : Led odd f rest g) : Led odd e (first ++ rest) g

omit [Tracing] in
theorem idle_openClock {e f : Engine α} {later : List (List α)}
    (h : e.openClock later = some f) : e.Idle f := by
  obtain ⟨period, -, hf⟩ := control_of_openClock h
  exact .of_control (congrArg Ledger.machine (ledger_of_openClock h)) hf

section Led

variable {odd : Prop}

/-- The deeds of runs lead to what the runs leave. -/
theorem traversal_led : Traversal (Led (α := α) odd) where
  append := .append
  account _ _ := .idle (.of_control rfl rfl)
  countTick e := .idle (idle_countTick e)
  finish e := .idle (idle_finish e)
  openClock _ ho := .idle (idle_openClock ho)
  noClock _ _ := .idle (.of_control rfl rfl)
  deed d _ hby := .deed d hby

/-- The deeds of all runs that an occurrence has left pending lead to what they leave. -/
theorem led_settle (e : Engine α) : Led odd e e.settleDeeds e.settle :=
  traversal_led.settle e

theorem led_perform {c : Command α} (ho : odd ∨ c.isOrdinary = true) (e : Engine α)
    (files : Node) : Led odd e (e.performDeeds c) (e.perform files c).1 := by
  have houtside : ∀ job, (⟨none, job, e⟩ : Deed α).ByRunning := fun _ _ hrun => nomatch hrun
  cases c with
  | init program => exact .moves (moves_init e program)
  | reset => exact .moves (moves_reset e)
  | loadFile path => exact .moves (moves_loadFile e files path)
  | runFile path => exact .moves (moves_runFile e files path)
  | start => exact .moves (.start e)
  | stop => exact .moves (.stop e)
  | destroy => exact .moves (moves_destroy e)
  | tickTimers => exact .deed ⟨none, .tickTimers, e⟩ (houtside .tickTimers)
  | runCycles count => exact .deed ⟨none, .runCycles count, e⟩ (houtside (.runCycles count))
  | cpuTick dt =>
      apply traversal_led.cpuTick e none dt
      intro budget count
      exact .deed _ (houtside (.runCycles count))
  | operate o => exact .moves (moves_operate e ho)

theorem led_occur {o : Occurrence α} (ho : odd ∨ o.isOrdinary = true) (e : Engine α) :
    Led odd e (e.occurDeeds o) (e.occur o) := by
  cases o with
  | command files c => exact led_perform ho e files
  | tick dt => exact traversal_led.advance e dt

/-- The deeds of a history lead to what it leaves. -/
theorem led_after {history : List (Occurrence α)}
    (ho : ∀ o ∈ history, odd ∨ o.isOrdinary = true) (e : Engine α) :
    Led odd e (e.deeds history) (e.after history) := by
  induction history generalizing e with
  | nil => exact .idle (.refl e)
  | cons o rest ih =>
      obtain ⟨hfirst, hrest⟩ := List.forall_mem_cons.1 ho
      exact .append (.append (led_occur hfirst e) (led_settle (e.occur o))) (ih hrest (e.next o))

end Led

/-! ## Counting -/

/-- The number of instructions that a call has executed is that of the steps which carried one
out. -/
theorem executed_runSteps {e : Engine α} {m : Machine} (hm : e.machine = some m) (caller : Caller)
    (count : Nat) :
    (runSteps caller count e 0).executed =
      ((e.steps caller count).filterMap Step.instruction?).length := by
  obtain ⟨done, last, f, hsteps, hdone, -, hend⟩ := runSteps_end caller count hm 0
  have hfirst : (done.filterMap Step.instruction?).length = done.length :=
    List.filterMap_length_eq_length.2 fun s hs => Step.isSome_instruction?_iff.2 (hdone s hs)
  rw [hsteps, List.filterMap_append, List.length_append, hfirst]
  rw [Nat.zero_add] at hend
  generalize runSteps caller count e 0 = ran at hend ⊢
  -- the step after the completed ones, if there is one, has carried nothing out
  cases hend with
  | finished => rfl
  | @faulted s _ hs _ | @misfit s _ hs _ | @waiting s hs _ =>
      have hlast : [s].filterMap Step.instruction? = [] := by
        rw [List.filterMap_cons, Step.instruction?, hs, List.filterMap_nil]
      rw [hlast]
      rfl

/-- A call leaves the count of refreshes alone. -/
theorem refreshes_runCycles (e : Engine α) (caller : Caller) (count : Int) :
    (e.runCycles caller count).1.refreshes = e.refreshes := by
  unfold runCycles
  cases e.machine with
  | none => rfl
  | some m =>
      have hmoves : e.Moves caller False False (runSteps caller count.toNat e 0).engine :=
        moves_runSteps count.toNat e 0
      have hran := hmoves.counts.2
      dsimp only
      cases (runSteps caller count.toNat e 0).result with
      | error reason => exact hran
      | ok done => exact (congrArg Control.refreshes (control_setSound _ _)).trans hran

end Engine

namespace Deed

variable {α : Type} [Quantity α] [Tracing]

/-- Whatever a deed does it does by moves. -/
theorem moves (d : Deed α) : d.before.Moves (.ofRun d.run) False True d.after := by
  unfold after outcome
  cases d.job with
  | begin => exact .refl d.before
  | tickTimers => exact Engine.moves_tickTimers trivial d.before
  | runCycles count => exact Engine.moves_runCycles trivial d.before count

/-- A deed adds what it counts, and nothing if it is broken off. -/
theorem cycles_after (d : Deed α) : d.after.cycles = d.before.cycles + d.counted := by
  unfold after counted brokenOff instructions steps outcome
  cases d.job with
  | begin => exact (Nat.add_zero _).symm
  | tickTimers =>
      simp only [List.filterMap_nil, List.length_nil, ite_self, Nat.add_zero]
      cases hm : d.before.machine with
      | none => rw [Engine.tickTimers_of_noMachine hm]
      | some m =>
          obtain ⟨f, htick, hw, -⟩ := Engine.worked_tickTimers hm (.ofRun d.run)
          rw [htick]
          exact hw.idled.cycles
  | runCycles count =>
      dsimp only
      cases hm : d.before.machine with
      | none =>
          simp only [Engine.runCycles_of_noMachine hm]
          rfl
      | some m =>
          obtain ⟨hl, hresult⟩ := Engine.runCycles_of_machine hm (.ofRun d.run) count
          have hkept := Engine.cycles_runSteps hm (.ofRun d.run) count.toNat 0
          have hexecuted := Engine.executed_runSteps hm (.ofRun d.run) count.toNat
          have hcycles := congrArg Ledger.cycles hl
          generalize Engine.runSteps (.ofRun d.run) count.toNat d.before 0 = ran
            at hresult hkept hexecuted hcycles
          refine hcycles.trans ?_
          rw [← hkept, ← hexecuted]
          simp only [hresult, Engine.Ran.counted]
          cases ran.result with
          | error reason => rfl
          | ok done => rfl

theorem refreshes_after (d : Deed α) : d.after.refreshes = d.before.refreshes + d.refreshed := by
  unfold after refreshed brokenOff outcome
  cases d.job with
  | begin => rfl
  | tickTimers =>
      dsimp only
      cases hm : d.before.machine with
      | none =>
          rw [Engine.tickTimers_of_noMachine hm]
          rfl
      | some m =>
          have hcounted : (d.before.refreshed m).refreshes = d.before.refreshes + 1 :=
            congrArg Control.refreshes (Engine.control_refreshed d.before m)
          rcases Engine.tickTimers_cases hm (.ofRun d.run) with h | h
          · rw [h]
            exact hcounted
          · rw [h]
            exact (Engine.refreshes_stop _ _).trans hcounted
  | runCycles count => exact Engine.refreshes_runCycles d.before (.ofRun d.run) count

end Deed

namespace Engine

variable {α : Type} [Quantity α] [Tracing] {odd : Prop} {e f : Engine α}
  {deeds : List (Deed α)}

/-- A deed in the middle divides what has happened: the deeds before it lead to the engine that it
finds, and those after it lead on from the engine that it leaves. -/
theorem Led.split (h : Led odd e deeds f) {pre post : List (Deed α)} {d : Deed α}
    (hd : deeds = pre ++ d :: post) :
    Led odd e pre d.before ∧ d.ByRunning ∧ Led odd d.after post f := by
  induction h generalizing pre post with
  | idle _ | moves _ => cases (List.nil_eq_append_iff.1 hd).2
  | deed d' hby =>
      obtain ⟨rfl, hpost⟩ | ⟨-, hnone⟩ := List.singleton_eq_append_iff.1 hd
      · cases hpost
        exact ⟨.idle (.refl _), hby, .idle (.refl _)⟩
      · cases hnone
  | append hf hg ihf ihg =>
      obtain ⟨mid, hfirst, rfl⟩ | ⟨mid, rfl, hrest⟩ := append_eq_append_cons hd
      · obtain ⟨hpre, hby, hpost⟩ := ihf hfirst
        exact ⟨hpre, hby, .append hpost hg⟩
      · obtain ⟨hpre, hby, hpost⟩ := ihg hrest
        exact ⟨.append hf hpre, hby, hpost⟩

theorem Led.later (h : Led odd e deeds f) : e.Later f := by
  induction h with
  | idle h => exact h.later
  | moves h => exact h.later
  | deed d _ => exact d.moves.later
  | append _ _ hf hg => exact hf.trans hg

theorem Led.policy (h : Led odd e deeds f) :
    f.policy = e.policy ∧ ∀ d ∈ deeds, d.before.policy = e.policy := by
  induction h with
  | idle h => exact ⟨h.policy, List.forall_mem_nil _⟩
  | moves h => exact ⟨h.policy, List.forall_mem_nil _⟩
  | deed d _ => exact ⟨d.moves.policy, List.forall_mem_singleton.2 rfl⟩
  | append _ _ hf hg =>
      refine ⟨hg.1.trans hf.1, List.forall_mem_append.2 ⟨hf.2, fun d hd => ?_⟩⟩
      exact (hg.2 d hd).trans hf.1

/-- If calls do not reach into the machine, then every deed finds a reachable one. -/
theorem Led.sane (h : Led False e deeds f) (he : e.Sane) :
    f.Sane ∧ ∀ d ∈ deeds, d.before.Sane := by
  induction h with
  | idle h => exact ⟨he.congr h.machine, List.forall_mem_nil _⟩
  | moves h => exact ⟨h.sane he, List.forall_mem_nil _⟩
  | deed d _ => exact ⟨d.moves.sane he, List.forall_mem_singleton.2 he⟩
  | append _ _ hf hg =>
      obtain ⟨hmiddle, hfirst⟩ := hf he
      obtain ⟨hlast, hrest⟩ := hg hmiddle
      exact ⟨hlast, List.forall_mem_append.2 ⟨hfirst, hrest⟩⟩

/-- Only deeds count instructions. -/
theorem Led.cycles (h : Led odd e deeds f) :
    f.cycles = e.cycles + (deeds.map Deed.counted).sum := by
  induction h with
  | idle h => exact h.cycles
  | moves h => exact h.counts.1
  | deed d _ => exact d.cycles_after
  | append _ _ hf hg =>
      rw [hg, hf, List.map_append, List.sum_append, Nat.add_assoc]

/-- Only deeds signal refreshes. -/
theorem Led.refreshes (h : Led odd e deeds f) :
    f.refreshes = e.refreshes + (deeds.map Deed.refreshed).sum := by
  induction h with
  | idle h => exact h.refreshes
  | moves h => exact h.counts.2
  | deed d _ => exact d.refreshes_after
  | append _ _ hf hg =>
      rw [hg, hf, List.map_append, List.sum_append, Nat.add_assoc]

end Engine

end Chip8
