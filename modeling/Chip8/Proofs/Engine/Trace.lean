import Chip8.Proofs.Engine.Deeds
import Chip8.Proofs.Machine.Trace

/-!
# The trace of an engine

While there is a trace, what an engine's steps fetch is told to the outside, and nothing else is
told of fetches. The deeds of an engine and the operations on its machine say which steps there are;
`Engine.traced_next` says that an occurrence, with the runs that it leaves pending, adds their
fetches to the trail, each one once and in order.
-/

set_option autoImplicit false

namespace Chip8

/-- The entry that a signal hands on. -/
def Signal.entry? : Signal → Option Entry
  | .entry e => some e
  | .refresh | .buzzer _ | .fault _ => none

/-- What `count` steps of a machine fetch. -/
def Machine.fetchesIn [Tracing] : Nat → Machine → List (Int × Word)
  | 0, _ => []
  | count + 1, m => m.fetched?.toList ++ fetchesIn count m.step.machine

/-- What the steps of a deed fetch. -/
def Deed.fetches {α : Type} [Quantity α] [Tracing] (d : Deed α) : List (Int × Word) :=
  match d.before.machine with
  | none => []
  | some m => m.fetchesIn d.steps.length

namespace Engine

variable {α : Type}

/-- The entries that the outside has been handed, the oldest first. -/
def noted (e : Engine α) : List Entry :=
  e.trail.reverse.filterMap Signal.entry?

/-- The fetches that the outside has been told, the oldest first. -/
def traced (e : Engine α) : List (Int × Word) :=
  fetchesOf e.noted

/-! ## Signals -/

theorem traced_note (e : Engine α) (entry : Entry) :
    (e.note entry).traced = e.traced ++ fetchesOf [entry] := by
  rw [traced, noted]
  show fetchesOf ((Signal.entry entry :: e.trail).reverse.filterMap Signal.entry?) = _
  rw [List.reverse_cons, List.filterMap_append, fetchesOf_append]
  rfl

theorem traced_noteAll (e : Engine α) (entries : List Entry) :
    (e.noteAll entries).traced = e.traced ++ fetchesOf entries := by
  induction entries generalizing e with
  | nil => exact (List.append_nil _).symm
  | cons entry rest ih =>
      show ((e.note entry).noteAll rest).traced = _
      rw [ih, traced_note, List.append_assoc, ← fetchesOf_append]
      rfl

/-- A signal that hands no entry on is no fetch. -/
theorem traced_signal (e : Engine α) {s : Signal} (hs : s.entry? = none) :
    (e.signal s).traced = e.traced := by
  rw [traced, noted]
  show fetchesOf ((s :: e.trail).reverse.filterMap Signal.entry?) = _
  rw [List.reverse_cons, List.filterMap_append, List.filterMap_cons_none hs, List.filterMap_nil,
    List.append_nil]
  rfl

/-- Nor is an entry about something else. -/
theorem traced_note_of_none (e : Engine α) {entry : Entry} (he : entry.fetch? = none) :
    (e.note entry).traced = e.traced := by
  rw [traced_note, fetchesOf, List.filterMap_cons_none he, List.filterMap_nil, List.append_nil]

theorem traced_setSound (e : Engine α) (on : Bool) : (e.setSound on).traced = e.traced := by
  unfold setSound
  split
  · rfl
  · rw [traced_signal _ rfl, traced_note_of_none _ rfl]
    rfl

/-! ## Control -/

theorem traced_finish (e : Engine α) : e.finish.traced = e.traced := by
  unfold finish
  exact traced_setSound _ false

theorem traced_stop (e : Engine α) (caller : Caller) : (e.stop caller).traced = e.traced := by
  have hasked : ({ e with stopRequested := true } : Engine α).traced = e.traced := rfl
  have hstages := stop_stages e caller
  generalize e.stop caller = f at hstages ⊢
  cases hstages with
  | absent _ => exact hasked
  | within _ | ended _ _ => exact traced_note_of_none _ rfl
  | @live f _ hf =>
      have hfinished : f.traced = e.traced := hf ▸ (traced_finish _).trans hasked
      exact (traced_note_of_none _ rfl).trans hfinished

variable [Quantity α]

theorem traced_openClock {e f : Engine α} {later : List (List α)}
    (h : e.openClock later = some f) : f.traced = e.traced := by
  obtain ⟨period, -, rfl⟩ := openClock_eq h
  rfl

theorem traced_rest (e : Engine α) (id : Nat) : (e.rest id).traced = e.traced := by
  rcases rest_cases e id with h | h <;> rw [h]
  exact traced_finish e

theorem traced_enter (e : Engine α) : e.enter.traced = e.traced := by
  have hstages := enter_stages e
  generalize e.enter = f at hstages ⊢
  cases hstages with
  | ticking _ | noClock _ _ => rfl
  | idle _ ho => exact (traced_rest _ _).trans (traced_openClock ho)

theorem fetchesOf_startEntries (e : Engine α) : fetchesOf e.startEntries = [] := by
  unfold startEntries
  split <;> rfl

theorem traced_start (e : Engine α) (caller : Caller) : (e.start caller).traced = e.traced := by
  cases caller with
  | run =>
      unfold start
      dsimp only
      rw [traced_noteAll, fetchesOf_startEntries, List.append_nil]
      rfl
  | outside =>
      have hrenewed : e.renewed.traced = e.traced := by
        rw [renewed_eq]
        exact traced_stop e .outside
      rw [start_outside, traced_noteAll, fetchesOf_startEntries, List.append_nil, traced_enter,
        hrenewed]

/-! ## Programs -/

omit [Quantity α] in
theorem traced_init (e : Engine α) (program : List Int) :
    (e.init program).1.traced = e.traced := by
  unfold init
  cases e.machine with
  | none => rfl
  | some m =>
      dsimp only
      cases m.init program with
      | error why => rfl
      | ok m' =>
          dsimp only
          rw [traced_noteAll]
          exact List.append_nil _

theorem traced_reset (e : Engine α) : e.reset.1.traced = e.traced := by
  unfold reset
  cases e.machine with
  | none => rfl
  | some m => exact traced_setSound _ false

theorem fetchesOf_romEntries (path : String) (program : Except LoadError (List Byte)) :
    fetchesOf (Rom.entries path program) = [] := by
  cases program <;> rfl

omit [Quantity α] in
theorem traced_readProgram (e : Engine α) (tree : Node) (path : String) :
    (e.readProgram tree path).1.traced = e.traced := by
  rw [readProgram, traced_noteAll, fetchesOf_romEntries, List.append_nil]

omit [Quantity α] in
theorem traced_loadFile (e : Engine α) (tree : Node) (path : String) :
    (e.loadFile tree path).1.traced = e.traced := by
  have hread := traced_readProgram e tree path
  rcases loadFile_stages e tree path with h | ⟨program, h⟩
  · rw [h]
    exact hread
  · rw [h]
    exact (traced_init _ program).trans hread

theorem traced_runFile (e : Engine α) (tree : Node) (path : String) :
    (e.runFile tree path).1.traced = e.traced := by
  have hread := traced_readProgram e tree path
  obtain ⟨base, hbase, hend⟩ := runFile_stages e tree path
  have hwiped : base.traced = e.traced := by
    rcases hbase with rfl | rfl
    · exact hread
    · exact (traced_reset _).trans ((traced_stop _ .outside).trans hread)
  rcases hend with h | ⟨program, h | h⟩ <;> rw [h]
  · exact hwiped
  · exact (traced_init base program).trans hwiped
  · exact (traced_start _ .outside).trans ((traced_init base program).trans hwiped)

omit [Quantity α] in
theorem traced_destroy (e : Engine α) : e.destroy.traced = e.traced :=
  traced_stop e .outside

/-! ## Driving the machine -/

omit [Quantity α] in
/-- What is taken over from an operation is noted. -/
theorem traced_absorb (e : Engine α) (caller : Caller) (before after : Machine)
    (entries : List Entry) :
    (e.absorb caller before after entries).traced = e.traced ++ fetchesOf entries := by
  have htaken : (e.taken after entries).traced = e.traced ++ fetchesOf entries :=
    traced_noteAll { e with machine := some after } entries
  rcases absorb_cases e caller before after entries with h | h
  · rw [h, htaken]
  · rw [h, traced_stop, htaken]

omit [Quantity α] in
theorem traced_tickTimers (e : Engine α) (caller : Caller) :
    (e.tickTimers caller).1.traced = e.traced := by
  cases hm : e.machine with
  | none => rw [tickTimers_of_noMachine hm]
  | some m =>
      have hticked : (e.refreshed m).traced = e.traced := by
        rw [refreshed, traced_signal _ rfl]
        exact traced_setSound { e with machine := some m.tick } m.tick.buzzing
      rcases tickTimers_cases hm caller with h | h <;> rw [h]
      · exact hticked
      · exact (traced_stop _ caller).trans hticked

theorem traced_answerFault (e : Engine α) (caller : Caller) :
    (e.answerFault caller).1.traced = e.traced := by
  have hreset := traced_reset e
  rcases answerFault_stages e caller with h | h | h | ⟨program, h | h⟩ <;> rw [h]
  · exact traced_stop e caller
  · exact hreset
  · exact (traced_init _ program).trans hreset
  · exact (traced_start _ caller).trans ((traced_init _ program).trans hreset)

theorem traced_fail (e : Engine α) (caller : Caller) (m : Machine) (reason : Fault) :
    (e.fail caller m reason).1.traced = e.traced := by
  rw [fail_eq, traced_answerFault, faulted, traced_signal _ rfl]
  exact traced_note_of_none _ rfl

section Traced

variable [Tracing] (hon : Tracing.isOn = true)

include hon

/-- A call for instructions tells what its steps fetch. -/
theorem traced_runSteps (caller : Caller) (count : Nat) {e : Engine α} {m : Machine}
    (hm : e.machine = some m) (executed : Nat) :
    (runSteps caller count e executed).engine.traced =
      e.traced ++ m.fetchesIn (e.steps caller count).length := by
  induction count generalizing e m executed with
  | zero => exact (List.append_nil _).symm
  | succ count ih =>
      unfold runSteps steps
      by_cases hstop : e.stopping = true
      · rw [if_pos hstop, if_pos hstop]
        exact (List.append_nil _).symm
      · have habsorb := (worked_absorb e caller m m.step.machine m.step.entries).2
        have htold := traced_absorb e caller m m.step.machine m.step.entries
        rw [Machine.fetchesOf_step hon] at htold
        rw [if_neg hstop, if_neg hstop, hm]
        dsimp only
        generalize e.absorb caller m m.step.machine m.step.entries = f at habsorb htold ⊢
        -- one step is told, and the call may go on behind it
        have hlast : f.traced = e.traced ++ m.fetchesIn 1 := by
          rw [htold, Machine.fetchesIn, Machine.fetchesIn, List.append_nil]
        rcases m.step.result with (reason | reason) | _ | w
        · exact (traced_fail f caller m.step.machine reason).trans hlast
        · exact hlast
        · exact hlast
        · dsimp only
          rw [ih habsorb, htold, List.append_assoc]
          rfl

theorem traced_runCycles (e : Engine α) (caller : Caller) (count : Int) {m : Machine}
    (hm : e.machine = some m) :
    (e.runCycles caller count).1.traced =
      e.traced ++ m.fetchesIn (e.steps caller count.toNat).length := by
  have hran := traced_runSteps hon caller count.toNat hm 0
  unfold runCycles
  rw [hm]
  dsimp only
  cases (runSteps caller count.toNat e 0).result with
  | error reason => exact hran
  | ok done => exact (traced_setSound _ _).trans hran

omit [Quantity α] in
theorem traced_operate {e : Engine α} (o : Operation) :
    (e.operate .outside o).1.traced =
      e.traced ++ (e.machine.map fun m => m.fetches o).getD [] := by
  cases hm : e.machine with
  | none =>
      rw [Option.map_none, Option.getD_none, List.append_nil]
      rcases operate_of_noMachine hm .outside o with h | ⟨target, h⟩ <;> rw [h]
      exact traced_note_of_none e rfl
  | some m => rw [operate_of_machine hm, traced_absorb, Machine.fetchesOf_perform hon]; rfl

/-! ## Deeds -/

/-- A deed tells what its steps fetch. -/
theorem traced_deed (d : Deed α) : d.after.traced = d.before.traced ++ d.fetches := by
  unfold Deed.after Deed.outcome Deed.fetches Deed.steps
  cases hm : d.before.machine with
  | none =>
      rw [List.append_nil]
      cases d.job with
      | begin => rfl
      | tickTimers => exact traced_tickTimers d.before _
      | runCycles count =>
          dsimp only
          rw [runCycles_of_noMachine hm]
  | some m =>
      cases d.job with
      | begin => exact (List.append_nil _).symm
      | tickTimers => exact (traced_tickTimers d.before _).trans (List.append_nil _).symm
      | runCycles count => exact traced_runCycles hon d.before _ count hm

theorem traversal_traced :
    Traversal fun (e : Engine α) deeds f => f.traced = e.traced ++ deeds.flatMap Deed.fetches where
  append hf hg := by rw [hg, hf, List.flatMap_append, List.append_assoc]
  account _ _ := (List.append_nil _).symm
  countTick e := by
    obtain ⟨clocks, h⟩ := countTick_eq e
    rw [h]
    exact (List.append_nil _).symm
  finish e := (traced_finish e).trans (List.append_nil _).symm
  openClock _ ho := (traced_openClock ho).trans (List.append_nil _).symm
  noClock _ _ := (List.append_nil _).symm
  deed d _ _ := by rw [traced_deed hon, List.flatMap_singleton]

end Traced

/-! ## Commands and histories -/

variable [Tracing]

/-- What an occurrence fetches before pending runs are played: an operation may be a step, and any
other command does deeds. -/
def occurFetches (e : Engine α) : Occurrence α → List (Int × Word)
  | .command _ (.operate o) => (e.machine.map fun m => m.fetches o).getD []
  | o => (e.occurDeeds o).flatMap Deed.fetches

/-- What an occurrence fetches, with the runs that it leaves pending. -/
def fetches (e : Engine α) (o : Occurrence α) : List (Int × Word) :=
  e.occurFetches o ++ (e.occur o).settleDeeds.flatMap Deed.fetches

section Traced

variable (hon : Tracing.isOn = true)

include hon

theorem traced_perform (e : Engine α) (files : Node) (c : Command α) :
    (e.perform files c).1.traced = e.traced ++ e.occurFetches (.command files c) := by
  have hnone {f : Engine α} (h : f.traced = e.traced) : f.traced = e.traced ++ [] :=
    h.trans (List.append_nil _).symm
  have hdeed (job : Job) : (⟨none, job, e⟩ : Deed α).after.traced =
      e.traced ++ [(⟨none, job, e⟩ : Deed α)].flatMap Deed.fetches := by
    rw [traced_deed hon, List.flatMap_singleton]
  cases c with
  | init program => exact hnone (traced_init e program)
  | reset => exact hnone (traced_reset e)
  | loadFile path => exact hnone (traced_loadFile e files path)
  | runFile path => exact hnone (traced_runFile e files path)
  | start => exact hnone (traced_start e .outside)
  | stop => exact hnone (traced_stop e .outside)
  | destroy => exact hnone (traced_destroy e)
  | tickTimers => exact hdeed .tickTimers
  | runCycles count => exact hdeed (.runCycles count)
  | cpuTick dt =>
      apply (traversal_traced hon).cpuTick e none dt
      intro budget count d
      rw [traced_deed hon, List.flatMap_singleton]
  | operate o => exact traced_operate hon o

theorem traced_occur (e : Engine α) (o : Occurrence α) :
    (e.occur o).traced = e.traced ++ e.occurFetches o := by
  cases o with
  | command files c => exact traced_perform hon e files c
  | tick dt => exact (traversal_traced hon).advance e dt

/-- An occurrence tells what it fetches, each fetch once and in order. -/
theorem traced_next (e : Engine α) (o : Occurrence α) :
    (e.next o).traced = e.traced ++ e.fetches o := by
  rw [next, (traversal_traced hon).settle (e.occur o), traced_occur hon, List.append_assoc,
    fetches]

end Traced

end Engine

end Chip8
