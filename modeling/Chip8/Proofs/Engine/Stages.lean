import Chip8.Engine.Run

/-!
# The stages of calls

Most functions of an engine are put together from others, and return early if one of these fails.
Here is for each of them through which stages it goes: what an operation has left of the machine is
taken over, and a stop may follow (`Engine.absorb_of_stops`); a program from a file is loaded after
a run under way was stopped and its machine reset, and then a run is started
(`Engine.runFile_stages`); a tick of a run counts the timers down and then serves a slice
(`Engine.tick_stages`). What holds of all stages is then known of the whole.
-/

set_option autoImplicit false

namespace Chip8

/-- The operation of loading leaves the machine with the program that it takes. -/
theorem Machine.machine_perform_init [Tracing] {m m' : Machine} {program : List Int}
    (h : m.init program = .ok m') : (m.perform (.init program)).machine = m' := by
  show (m.loaded program.length (m.init program)).machine = m'
  rw [h]
  rfl

/-- Whether the policy asks for a stop while a machine goes from one state to another: the random
byte that brings it is drawn in between. -/
def Policy.Stops (p : Policy) (before after : Machine) : Prop :=
  ∃ n, p.stopOnRandom = some n ∧ before.random.drawn < n ∧ n ≤ after.random.drawn

theorem Policy.Stops.drawn {p : Policy} {before after : Machine} (h : p.Stops before after) :
    before.random.drawn < after.random.drawn := by
  obtain ⟨n, -, hlt, hle⟩ := h
  exact Nat.lt_of_lt_of_le hlt hle

namespace Engine

variable {α : Type}

/-! ## Stops -/

/-- What a stop leaves. From within it is no more than a request. From outside a live run comes to
its end, and then there is no run to wait for any more. -/
inductive AfterStop (e : Engine α) : Caller → Engine α → Prop where
  | absent {caller : Caller} (ha : e.phase = .absent) :
      AfterStop e caller { e with stopRequested := true }
  | within (ha : e.phase ≠ .absent) :
      AfterStop e .run ({ e with stopRequested := true }.note (.stopped e.cycles))
  | live {f : Engine α} (hl : e.phase = .live) (hf : f = { e with stopRequested := true }.finish) :
      AfterStop e .outside ({ f with phase := .absent }.note (.stopped f.cycles))
  | ended (ha : e.phase ≠ .absent) (hl : e.phase ≠ .live) :
      AfterStop e .outside
        ({ e with stopRequested := true, phase := .absent }.note (.stopped e.cycles))

theorem stop_stages (e : Engine α) (caller : Caller) : e.AfterStop caller (e.stop caller) := by
  unfold stop
  dsimp only
  by_cases ha : e.phase = .absent
  · rw [if_pos ha]
    exact .absent ha
  · rw [if_neg ha]
    cases caller with
    | run => exact .within ha
    | outside =>
        dsimp only
        by_cases hl : e.phase = .live
        · rw [if_pos hl]
          exact .live hl rfl
        · rw [if_neg hl]
          exact .ended ha hl

/-! ## Operations -/

theorem policy_noteAll (e : Engine α) (entries : List Entry) :
    (e.noteAll entries).policy = e.policy := by
  induction entries generalizing e with
  | nil => rfl
  | cons entry rest ih => exact ih (e.note entry)

/-- The engine after what an operation has left of the machine was taken over and noted. -/
def taken (e : Engine α) (after : Machine) (entries : List Entry) : Engine α :=
  { e with machine := some after }.noteAll entries

section Absorb

variable {e : Engine α} {before after : Machine} (caller : Caller) (entries : List Entry)

theorem absorb_of_stops (h : e.policy.Stops before after) :
    e.absorb caller before after entries = (e.taken after entries).stop caller := by
  obtain ⟨n, hpolicy, hdrawn⟩ := h
  -- the policy is looked up after the notes, which do not change it
  have hn : ({ e with machine := some after }.noteAll entries).policy.stopOnRandom = some n :=
    (congrArg Policy.stopOnRandom (policy_noteAll _ entries)).trans hpolicy
  simp only [absorb, hn, if_pos hdrawn]
  rfl

theorem absorb_of_not_stops (h : ¬ e.policy.Stops before after) :
    e.absorb caller before after entries = e.taken after entries := by
  have hpolicy : ({ e with machine := some after }.noteAll entries).policy.stopOnRandom =
      e.policy.stopOnRandom := congrArg Policy.stopOnRandom (policy_noteAll _ entries)
  cases hs : e.policy.stopOnRandom with
  | none =>
      simp only [absorb, hpolicy, hs]
      rfl
  | some n =>
      have hdrawn : ¬ (before.random.drawn < n ∧ n ≤ after.random.drawn) :=
        fun hdrawn => h ⟨n, hs, hdrawn⟩
      simp only [absorb, hpolicy, hs, if_neg hdrawn]
      rfl

/-- What an operation has left is taken over, and a stop may follow. -/
theorem absorb_cases (e : Engine α) (caller : Caller) (before after : Machine)
    (entries : List Entry) :
    e.absorb caller before after entries = e.taken after entries ∨
      e.absorb caller before after entries = (e.taken after entries).stop caller := by
  by_cases h : e.policy.Stops before after
  · exact Or.inr (absorb_of_stops caller entries h)
  · exact Or.inl (absorb_of_not_stops caller entries h)

end Absorb

theorem operate_of_machine [Tracing] {e : Engine α} {m : Machine} (hm : e.machine = some m)
    (caller : Caller) (o : Operation) :
    e.operate caller o =
      (e.absorb caller m (m.perform o).machine (m.perform o).entries, (m.perform o).result) := by
  unfold operate
  rw [hm]

/-- Without a machine an operation does nothing but to note an instruction that is ignored. -/
theorem operate_of_noMachine [Tracing] {e : Engine α} (hm : e.machine = none) (caller : Caller)
    (o : Operation) :
    (e.operate caller o).1 = e ∨
      ∃ target, (e.operate caller o).1 = e.note (.sysIgnored target) := by
  unfold operate
  rw [hm]
  cases o with
  | execute w =>
      dsimp only [executeWithout]
      cases Instruction.decode? w with
      | none => exact Or.inl rfl
      | some i =>
          cases i with
          | sys target => exact Or.inr ⟨target, rfl⟩
          | _ => exact Or.inl rfl
  | _ => exact Or.inl rfl

/-! ## The timers -/

/-- The engine after the timers of its machine were counted down and a refresh was signalled. -/
def refreshed (e : Engine α) (m : Machine) : Engine α :=
  let sounded := { e with machine := some m.tick }.setSound m.tick.buzzing
  { sounded with refreshes := sounded.refreshes + 1 }.signal .refresh

theorem tickTimers_of_machine {e : Engine α} {m : Machine} (hm : e.machine = some m)
    (caller : Caller) :
    e.tickTimers caller =
      (if (e.refreshed m).policy.stopOnRefresh = some (e.refreshed m).refreshes then
        (e.refreshed m).stop caller else e.refreshed m, .ok ()) := by
  rw [tickTimers, hm]
  rfl

theorem tickTimers_of_noMachine {e : Engine α} (hm : e.machine = none) (caller : Caller) :
    e.tickTimers caller = (e, .error .noMachine) := by
  rw [tickTimers, hm]

/-- The refresh may bring a stop with it. -/
theorem tickTimers_cases {e : Engine α} {m : Machine} (hm : e.machine = some m)
    (caller : Caller) :
    e.tickTimers caller = (e.refreshed m, .ok ()) ∨
      e.tickTimers caller = ((e.refreshed m).stop caller, .ok ()) := by
  rw [tickTimers_of_machine hm]
  split
  · exact Or.inr rfl
  · exact Or.inl rfl

/-! ## Programs -/

/-- A program that is refused leaves the engine as it is. -/
theorem init_stages (e : Engine α) (program : List Int) :
    (e.init program).1 = e ∨
      ∃ m m' entries, e.machine = some m ∧ m.init program = .ok m' ∧
        (e.init program).1 = { e with machine := some m', fault := none }.noteAll entries := by
  unfold init
  cases hm : e.machine with
  | none => exact Or.inl rfl
  | some m =>
      dsimp only
      cases hi : m.init program with
      | error why => exact Or.inl rfl
      | ok m' => exact Or.inr ⟨m, m', _, rfl, hi, rfl⟩

/-- A file that cannot be read, or that holds no program, is found out before anything else. -/
theorem loadFile_of_error {e : Engine α} {tree : Node} {path : String} {reason : LoadError}
    (hl : Rom.load tree path = .error reason) :
    e.loadFile tree path = (e.noteAll [.readingFile path], .error (.load reason)) := by
  rw [loadFile, readProgram, hl]
  rfl

theorem loadFile_eq_init {e : Engine α} {tree : Node} {path : String} {program : List Byte}
    (hl : Rom.load tree path = .ok program) :
    e.loadFile tree path =
      (e.noteAll (Rom.entries path (.ok program))).init (Byte.values program) := by
  rw [loadFile, readProgram, hl]

theorem loadFile_stages (e : Engine α) (tree : Node) (path : String) :
    (e.loadFile tree path).1 = (e.readProgram tree path).1 ∨
      ∃ program, (e.loadFile tree path).1 = ((e.readProgram tree path).1.init program).1 := by
  unfold loadFile
  rcases e.readProgram tree path with ⟨read, reason | program⟩
  · exact Or.inl rfl
  · exact Or.inr ⟨_, rfl⟩

variable [Quantity α]

theorem runFile_of_error {e : Engine α} {tree : Node} {path : String} {reason : LoadError}
    (hl : Rom.load tree path = .error reason) :
    e.runFile tree path = (e.noteAll [.readingFile path], .error (.load reason)) := by
  rw [runFile, readProgram, hl]
  rfl

/-- A program from a file is put on the engine as it is, or after a run under way was stopped and
its machine reset; if it is taken a run is started. -/
theorem runFile_stages (e : Engine α) (tree : Node) (path : String) :
    ∃ base,
      (base = (e.readProgram tree path).1 ∨
        base = ((e.readProgram tree path).1.stop .outside).reset.1) ∧
      ((e.runFile tree path).1 = base ∨
        ∃ program, (e.runFile tree path).1 = (base.init program).1 ∨
          (e.runFile tree path).1 = (base.init program).1.start .outside) := by
  unfold runFile
  rcases e.readProgram tree path with ⟨read, reason | program⟩
  · exact ⟨read, Or.inl rfl, Or.inl rfl⟩
  · dsimp only
    refine ⟨(if read.isRunning then (read.stop .outside).reset else (read, .ok ())).1, ?_, ?_⟩
    · split
      · exact Or.inr rfl
      · exact Or.inl rfl
    · generalize (if read.isRunning then (read.stop .outside).reset else (read, .ok ())) = wiped
      rcases wiped with ⟨base, reason | done⟩
      · exact Or.inl rfl
      · refine Or.inr ⟨Byte.values program, ?_⟩
        dsimp only
        generalize base.init (Byte.values program) = loaded
        rcases loaded with ⟨f, reason | done⟩
        · exact Or.inl rfl
        · exact Or.inr rfl

/-! ## Faults -/

/-- The engine that is seen by whatever answers a fault: this was noted and told, and the run is
asked to stop. -/
def faulted (e : Engine α) (m : Machine) (reason : Fault) : Engine α :=
  { { e with fault := some reason }.note (.faulted reason m.dump) with
    stopRequested := true }.signal (.fault reason)

theorem fail_eq (e : Engine α) (caller : Caller) (m : Machine) (reason : Fault) :
    e.fail caller m reason = (e.faulted m reason).answerFault caller := rfl

/-- The answer to a fault is nothing, a stop, or a reset, after which a program is loaded and a run
is started. -/
theorem answerFault_stages (e : Engine α) (caller : Caller) :
    (e.answerFault caller).1 = e ∨ (e.answerFault caller).1 = e.stop caller ∨
      (e.answerFault caller).1 = e.reset.1 ∨
      ∃ program, (e.answerFault caller).1 = (e.reset.1.init program).1 ∨
        (e.answerFault caller).1 = (e.reset.1.init program).1.start caller := by
  unfold answerFault
  cases e.policy.onFault with
  | ignore => exact Or.inl rfl
  | stop => exact Or.inr (Or.inl rfl)
  | restart program =>
      refine Or.inr (Or.inr ?_)
      dsimp only
      generalize e.reset = wiped
      rcases wiped with ⟨f, reason | done⟩
      · exact Or.inl rfl
      · refine Or.inr ⟨program, ?_⟩
        dsimp only
        generalize f.init program = loaded
        rcases loaded with ⟨g, reason | done⟩
        · exact Or.inl rfl
        · exact Or.inr rfl

/-! ## Runs of instructions -/

/-- A call for instructions steps the machine, and may have to answer a fault. What holds along both
holds along the call. -/
theorem runSteps_closed [Tracing] {R : Engine α → Engine α → Prop} (hrefl : ∀ e, R e e)
    (htrans : ∀ {e f g}, R e f → R f g → R e g) {caller : Caller}
    (hstep : ∀ e m, e.machine = some m → R e (e.absorb caller m m.step.machine m.step.entries))
    (hfail : ∀ e m reason, R e (e.fail caller m reason).1) (count : Nat) (e : Engine α)
    (executed : Nat) : R e (runSteps caller count e executed).engine := by
  induction count generalizing e executed with
  | zero => exact hrefl e
  | succ count ih =>
      unfold runSteps
      split
      · exact hrefl e
      · cases hm : e.machine with
        | none => exact hrefl e
        | some m =>
            have hstepped := hstep e m hm
            dsimp only
            generalize e.absorb caller m m.step.machine m.step.entries = f at hstepped ⊢
            rcases m.step.result with (reason | reason) | _ | w
            · exact htrans hstepped (hfail f m.step.machine reason)
            · exact hstepped
            · exact hstepped
            · exact htrans hstepped (ih f (executed + 1))

/-! ## Clocks -/

omit [Quantity α] in
/-- To count a tick is to change the clocks. -/
theorem countTick_eq (e : Engine α) : ∃ clocks, e.countTick = { e with clocks } := by
  unfold countTick
  cases e.clocks with
  | nil => exact ⟨e.clocks, rfl⟩
  | cons clock older => exact ⟨_, rfl⟩

/-- A run makes its clock, which calls its functions, if the clock's period can be computed. -/
theorem openClock_eq {e f : Engine α} {later : List (List α)} (h : e.openClock later = some f) :
    ∃ period, Quantity.div (Quantity.one : α) e.timerRate = .ok period ∧
      f = { e with
        phase := .live
        schedule := later
        clocks := ⟨period, 0, clockFunctions⟩ :: e.clocks } := by
  unfold openClock at h
  cases hp : Quantity.div (Quantity.one : α) e.timerRate with
  | error reason =>
      rw [hp] at h
      cases h
  | ok period =>
      rw [hp] at h
      cases h
      exact ⟨period, rfl, rfl⟩

/-- A run without ticks comes to its end, or it waits. -/
theorem rest_cases (e : Engine α) (id : Nat) : e.rest id = e.finish ∨ e.rest id = e := by
  unfold rest
  split
  · exact Or.inl rfl
  · exact Or.inr rfl

/-- What a run that was started from outside does within the start: nothing if it has ticks to
come, and otherwise it makes its clock and rests. -/
inductive AfterEnter (e : Engine α) : Engine α → Prop where
  | ticking (hidle : e.afterIdle = none) : AfterEnter e e
  | noClock {later : List (List α)} (hidle : e.afterIdle = some later)
      (ho : e.openClock later = none) : AfterEnter e { e with phase := .over }
  | idle {later : List (List α)} {f : Engine α} (hidle : e.afterIdle = some later)
      (ho : e.openClock later = some f) : AfterEnter e (f.rest f.generation)

theorem enter_stages (e : Engine α) : e.AfterEnter e.enter := by
  unfold enter
  cases hidle : e.afterIdle with
  | none => exact .ticking hidle
  | some later =>
      dsimp only
      cases ho : e.openClock later with
      | none => exact .noClock hidle ho
      | some f => exact .idle hidle ho

/-! ## Ticks of a run -/

/-- How a tick of the run `id` goes on an engine that has counted it. -/
inductive AfterTick [Tracing] (id : Nat) (dt : α) (counted : Engine α) :
    Engine α × Except Refusal Unit → Prop where
  | stopped (hstop : counted.stopped id = true) : AfterTick id dt counted (counted, .ok ())
  | noMachine (hgo : counted.stopped id = false) (hm : counted.machine = none) :
      AfterTick id dt counted (counted, .error .noMachine)
  | halted {f : Engine α} (hgo : counted.stopped id = false)
      (ht : counted.tickTimers .run = (f, .ok ())) (hstop : f.stopped id = true) :
      AfterTick id dt counted (f, .ok ())
  | sliced {f : Engine α} (hgo : counted.stopped id = false)
      (ht : counted.tickTimers .run = (f, .ok ())) (hgo' : f.stopped id = false) :
      AfterTick id dt counted (f.cpuTick .run dt)

theorem tick_stages [Tracing] (e : Engine α) (id : Nat) (dt : α) :
    e.countTick.AfterTick id dt (e.tick id dt) := by
  unfold tick guarded
  generalize e.countTick = counted
  dsimp only
  cases hstop : counted.stopped id with
  | true =>
      rw [if_pos rfl]
      dsimp only
      rw [if_pos hstop]
      exact .stopped hstop
  | false =>
      rw [if_neg Bool.false_ne_true]
      cases hm : counted.machine with
      | none =>
          rw [tickTimers_of_noMachine hm]
          exact .noMachine hstop hm
      | some m =>
          obtain ⟨f, ht⟩ : ∃ f, counted.tickTimers .run = (f, .ok ()) :=
            ⟨_, tickTimers_of_machine hm .run⟩
          rw [ht]
          dsimp only
          cases hstop' : f.stopped id with
          | true => exact .halted hstop ht hstop'
          | false => exact .sliced hstop ht hstop'

end Engine

end Chip8
