import Chip8.Proofs.Engine.Deeds

/-!
# What the outside sees of an engine

The outside can look at the machine and at the buzzer, and it hears the signals of the trail. This
is the face of an engine. Whatever is done to an engine changes the face piece by piece: something
is told, the buzzer is switched and tells of it, an operation works on the machine, or the machine
is taken away. `Engine.Outward` says so, with a lemma for every function of the engine up to
`Engine.outward_after` for histories.
-/

set_option autoImplicit false

namespace Chip8

/-- The change of the buzzer that a signal reports. -/
def Signal.buzzer? : Signal → Option Bool
  | .buzzer on => some on
  | .entry _ | .refresh | .fault _ => none

/-- What the outside sees of an engine. -/
structure Face where
  machine : Option Machine
  soundOn : Bool
  trail : List Signal

namespace Engine

variable {α : Type}

/-- The face of an engine. -/
def face (e : Engine α) : Face where
  machine := e.machine
  soundOn := e.soundOn
  trail := e.trail

variable [Tracing]

/-- What a call makes of the face of an engine, piece by piece. `allowed` says which operations
work on the machine. -/
inductive Outward (allowed : Operation → Prop) : Engine α → Engine α → Prop where
  | inward {e f : Engine α} (h : f.face = e.face) : Outward allowed e f
  | tell {e f : Engine α} {s : Signal} (hs : s.buzzer? = none)
      (h : f.face = { e.face with trail := s :: e.trail }) : Outward allowed e f
  | switch (e : Engine α) (on : Bool) : Outward allowed e (e.setSound on)
  | work {e f : Engine α} {m : Machine} {o : Operation} (ho : allowed o)
      (hm : e.machine = some m)
      (h : f.face = { e.face with machine := some (m.perform o).machine }) : Outward allowed e f
  | remove {e f : Engine α} (h : f.face = { e.face with machine := none }) : Outward allowed e f
  | trans {e f g : Engine α} (hf : Outward allowed e f) (hg : Outward allowed f g) :
      Outward allowed e g

section Outward

variable {allowed : Operation → Prop}

theorem Outward.refl (e : Engine α) : e.Outward allowed e :=
  .inward rfl

/-- The buzzer is switched after something that is not seen. -/
theorem Outward.sounded {e f : Engine α} (h : f.face = e.face) (on : Bool) :
    e.Outward allowed (f.setSound on) :=
  .trans (.inward h) (.switch f on)

theorem outward_noteAll (e : Engine α) (entries : List Entry) :
    e.Outward allowed (e.noteAll entries) := by
  induction entries generalizing e with
  | nil => exact .refl e
  | cons entry rest ih => exact .trans (.tell (s := .entry entry) rfl rfl) (ih (e.note entry))

/-! ## Control -/

theorem outward_finish (e : Engine α) : e.Outward allowed e.finish := by
  apply Outward.sounded
  rfl

theorem outward_stop (e : Engine α) (caller : Caller) :
    e.Outward allowed (e.stop caller) := by
  have hasked : e.Outward allowed { e with stopRequested := true } := .inward rfl
  have hstages := stop_stages e caller
  generalize e.stop caller = f at hstages ⊢
  cases hstages with
  | absent _ => exact hasked
  | within _ => exact hasked.trans (.tell (s := .entry _) rfl rfl)
  | live _ hf =>
      have hfinished : e.Outward allowed _ := hf ▸ hasked.trans (outward_finish _)
      exact hfinished.trans (.tell (s := .entry _) rfl rfl)
  | ended _ _ => exact hasked.trans (.tell (s := .entry _) rfl rfl)

theorem outward_countTick (e : Engine α) : e.Outward allowed e.countTick := by
  obtain ⟨clocks, h⟩ := countTick_eq e
  rw [h]
  exact .inward rfl

variable [Quantity α]

theorem outward_openClock {e f : Engine α} {later : List (List α)}
    (h : e.openClock later = some f) : e.Outward allowed f := by
  obtain ⟨period, -, rfl⟩ := openClock_eq h
  exact .inward rfl

theorem outward_rest (e : Engine α) (id : Nat) : e.Outward allowed (e.rest id) := by
  rcases rest_cases e id with h | h
  · rw [h]
    exact outward_finish e
  · rw [h]
    exact .refl e

theorem outward_enter (e : Engine α) : e.Outward allowed e.enter := by
  have hstages := enter_stages e
  generalize e.enter = f at hstages ⊢
  cases hstages with
  | ticking _ => exact .refl e
  | noClock _ _ => exact .inward rfl
  | idle _ ho => exact .trans (outward_openClock ho) (outward_rest _ _)

theorem outward_start (e : Engine α) (caller : Caller) : e.Outward allowed (e.start caller) := by
  cases caller with
  | run =>
      unfold start
      dsimp only
      refine .trans ?_ (outward_noteAll _ _)
      exact .inward rfl
  | outside =>
      have hrenewed : e.Outward allowed e.renewed := by
        rw [renewed_eq]
        exact .trans (outward_stop e .outside) (.inward rfl)
      rw [start_outside]
      exact (hrenewed.trans (outward_enter e.renewed)).trans (outward_noteAll _ _)

/-! ## Programs -/

omit [Quantity α] in
theorem outward_init {program : List Int} (hi : allowed (.init program)) (e : Engine α) :
    e.Outward allowed (e.init program).1 := by
  rcases init_stages e program with h | ⟨m, m', entries, hm, hloaded, h⟩
  · rw [h]
    exact .refl e
  · rw [h]
    obtain rfl := m.machine_perform_init hloaded
    exact .trans (.work hi hm rfl) (outward_noteAll _ entries)

theorem outward_reset (hr : allowed .reset) (e : Engine α) :
    e.Outward allowed e.reset.1 := by
  unfold reset
  cases hm : e.machine with
  | none => exact .refl e
  | some m => exact .trans (.work (o := .reset) hr hm rfl) (.switch _ false)

omit [Quantity α] in
theorem outward_loadFile (hi : ∀ program, allowed (.init program)) (e : Engine α) (tree : Node)
    (path : String) : e.Outward allowed (e.loadFile tree path).1 := by
  have hread : e.Outward allowed (e.readProgram tree path).1 := outward_noteAll e _
  rcases loadFile_stages e tree path with h | ⟨program, h⟩
  · rw [h]
    exact hread
  · rw [h]
    exact hread.trans (outward_init (hi program) _)

theorem outward_runFile (hi : ∀ program, allowed (.init program)) (hr : allowed .reset)
    (e : Engine α) (tree : Node) (path : String) :
    e.Outward allowed (e.runFile tree path).1 := by
  obtain ⟨base, hbase, hend⟩ := runFile_stages e tree path
  have hread : e.Outward allowed (e.readProgram tree path).1 := outward_noteAll e _
  have hwiped : e.Outward allowed base := by
    rcases hbase with rfl | rfl
    · exact hread
    · exact (hread.trans (outward_stop _ .outside)).trans (outward_reset hr _)
  rcases hend with h | ⟨program, h | h⟩ <;> rw [h]
  · exact hwiped
  · exact hwiped.trans (outward_init (hi program) base)
  · exact (hwiped.trans (outward_init (hi program) base)).trans (outward_start _ .outside)

omit [Quantity α] in
theorem outward_destroy (e : Engine α) : e.Outward allowed e.destroy :=
  .trans (outward_stop e .outside) (.remove rfl)

/-! ## Driving the machine -/

omit [Quantity α] in
theorem outward_absorb {e : Engine α} {m : Machine} {o : Operation} (ho : allowed o)
    (hm : e.machine = some m) (caller : Caller) (entries : List Entry) :
    e.Outward allowed (e.absorb caller m (m.perform o).machine entries) := by
  have hworked : e.Outward allowed (e.taken (m.perform o).machine entries) :=
    .trans (.work ho hm rfl) (outward_noteAll _ entries)
  rcases absorb_cases e caller m (m.perform o).machine entries with h | h
  · rw [h]
    exact hworked
  · rw [h]
    exact hworked.trans (outward_stop _ caller)

omit [Quantity α] in
theorem outward_refreshed (ht : allowed .tick) {e : Engine α} {m : Machine}
    (hm : e.machine = some m) : e.Outward allowed (e.refreshed m) := by
  have hticked : e.Outward allowed
      (setSound { e with machine := some m.tick } m.tick.buzzing) :=
    .trans (.work (o := .tick) ht hm rfl) (.switch _ _)
  exact hticked.trans (.tell (s := .refresh) rfl rfl)

omit [Quantity α] in
theorem outward_tickTimers (ht : allowed .tick) (e : Engine α) (caller : Caller) :
    e.Outward allowed (e.tickTimers caller).1 := by
  cases hm : e.machine with
  | none =>
      rw [tickTimers_of_noMachine hm]
      exact .refl e
  | some m =>
      have hticked : e.Outward allowed (e.refreshed m) := outward_refreshed ht hm
      rcases tickTimers_cases hm caller with h | h
      · rw [h]
        exact hticked
      · rw [h]
        exact hticked.trans (outward_stop _ caller)

omit [Quantity α] in
theorem outward_operate {o : Operation} (ho : allowed o) (e : Engine α) :
    e.Outward allowed (e.operate .outside o).1 := by
  cases hm : e.machine with
  | none =>
      rcases operate_of_noMachine hm .outside o with h | ⟨target, h⟩
      · rw [h]
        exact .refl e
      · rw [h]
        exact .tell (s := .entry (.sysIgnored target)) rfl rfl
  | some m =>
      rw [operate_of_machine hm]
      exact outward_absorb ho hm .outside _

theorem outward_answerFault (hi : ∀ program, allowed (.init program)) (hr : allowed .reset)
    (e : Engine α) (caller : Caller) : e.Outward allowed (e.answerFault caller).1 := by
  have hreset : e.Outward allowed e.reset.1 := outward_reset hr e
  rcases answerFault_stages e caller with h | h | h | ⟨program, h | h⟩ <;> rw [h]
  · exact .refl e
  · exact outward_stop e caller
  · exact hreset
  · exact hreset.trans (outward_init (hi program) _)
  · exact (hreset.trans (outward_init (hi program) _)).trans (outward_start _ caller)

theorem outward_fail (hi : ∀ program, allowed (.init program)) (hr : allowed .reset)
    (e : Engine α) (caller : Caller) (m : Machine) (reason : Fault) :
    e.Outward allowed (e.fail caller m reason).1 := by
  have htold : e.Outward allowed (e.faulted m reason) := by
    refine .trans ?_ (.tell (s := .fault reason) rfl rfl)
    exact .tell (s := .entry (.faulted reason m.dump)) rfl rfl
  exact htold.trans (outward_answerFault hi hr _ _)

/-- The operations that drive a machine, in a run and from outside. -/
structure Drives (allowed : Operation → Prop) : Prop where
  init : ∀ program, allowed (.init program)
  reset : allowed .reset
  step : allowed .step
  tick : allowed .tick

variable (hd : Drives allowed)

include hd

theorem outward_runSteps (caller : Caller) (count : Nat) (e : Engine α) (executed : Nat) :
    e.Outward allowed (runSteps caller count e executed).engine := by
  apply runSteps_closed .refl .trans
  · intro e m hm
    exact outward_absorb (o := .step) hd.step hm caller m.step.entries
  · intro e m reason
    exact outward_fail hd.init hd.reset e caller m reason

theorem outward_runCycles (e : Engine α) (caller : Caller) (count : Int) :
    e.Outward allowed (e.runCycles caller count).1 := by
  unfold runCycles
  cases e.machine with
  | none => exact .refl e
  | some m =>
      have hran := outward_runSteps hd caller count.toNat e 0
      dsimp only
      cases (runSteps caller count.toNat e 0).result with
      | error reason => exact hran
      | ok done =>
          apply hran.trans
          apply Outward.sounded
          rfl

/-- Whatever a deed does, it does to the face. -/
theorem outward_deed (d : Deed α) : d.before.Outward allowed d.after := by
  unfold Deed.after Deed.outcome
  cases d.job with
  | begin => exact .refl d.before
  | tickTimers => exact outward_tickTimers hd.tick d.before _
  | runCycles count => exact outward_runCycles hd d.before _ count

/-! ## Runs and commands -/

theorem traversal_outward : Traversal fun (e : Engine α) _ f => e.Outward allowed f where
  append := .trans
  account _ _ := .inward rfl
  countTick := outward_countTick
  finish := outward_finish
  openClock _ ho := outward_openClock ho
  noClock _ _ := .inward rfl
  deed d _ _ := outward_deed hd d

theorem outward_perform {c : Command α} (ho : ∀ o, c = .operate o → allowed o) (e : Engine α)
    (files : Node) : e.Outward allowed (e.perform files c).1 := by
  cases c with
  | init program => exact outward_init (hd.init program) e
  | reset => exact outward_reset hd.reset e
  | loadFile path => exact outward_loadFile hd.init e files path
  | runFile path => exact outward_runFile hd.init hd.reset e files path
  | start => exact outward_start e .outside
  | stop => exact outward_stop e .outside
  | destroy => exact outward_destroy e
  | tickTimers => exact outward_tickTimers hd.tick e .outside
  | runCycles count => exact outward_runCycles hd e .outside count
  | cpuTick dt =>
      apply (traversal_outward hd).cpuTick e none dt
      intro budget count
      exact outward_deed hd _
  | operate o => exact outward_operate (ho o rfl) e

/-- What an occurrence and the runs that it leaves pending make of the face. -/
theorem outward_next {o : Occurrence α}
    (ho : ∀ files operation, o = .command files (.operate operation) → allowed operation)
    (e : Engine α) : e.Outward allowed (e.next o) := by
  refine .trans ?_ ((traversal_outward hd).settle (e.occur o))
  cases o with
  | command files c =>
      apply outward_perform hd
      rintro operation rfl
      exact ho files operation rfl
  | tick dt => exact (traversal_outward hd).advance e dt

theorem outward_after {history : List (Occurrence α)}
    (ho : ∀ files operation, .command files (.operate operation) ∈ history → allowed operation)
    (e : Engine α) : e.Outward allowed (e.after history) := by
  induction history generalizing e with
  | nil => exact .refl e
  | cons o rest ih =>
      have hfirst : e.Outward allowed (e.next o) := by
        apply outward_next hd
        rintro files operation rfl
        exact ho files operation List.mem_cons_self
      refine hfirst.trans (ih ?_ (e.next o))
      intro files operation hmem
      exact ho files operation (List.mem_cons_of_mem o hmem)

end Outward

end Engine

end Chip8
