import Chip8.Proofs.Journal.Trace
import Chip8.Proofs.Machine.History

/-!
# The trace of a machine

Before a step notes what it has fetched it looks whether that is wanted. What it does and how it
ends are the same either way, and so for every operation (`Machine.perform_apart`). What a step
fetches can be told from the machine alone (`Machine.fetched?`), and it is what the step notes, if
that is wanted (`Machine.fetchesOf_step`).

A bench is a machine together with a record of what its operations note. The record takes no part
in what the operations do (`Bench.observed_eq_performed`), and its trace holds what has been fetched
while the journal was on, each fetch once and in order (`Bench.traced_after`).
-/

set_option autoImplicit false

namespace Chip8

namespace Machine

/-! ## With and without a trace -/

/-- A cycle does the same, and ends in the same way, whether its fetch is noted or not. -/
theorem cycle_apart (t u : Tracing) (m : Machine) :
    (@cycle t m).machine = (@cycle u m).machine ∧ (@cycle t m).result = (@cycle u m).result := by
  unfold cycle
  cases m.fetch with
  | error reason => exact ⟨rfl, rfl⟩
  | ok fetched =>
      obtain ⟨passed, w⟩ := fetched
      dsimp only
      cases Instruction.decode? w with
      | none => exact ⟨rfl, rfl⟩
      | some i => exact ⟨rfl, rfl⟩

theorem step_apart (t u : Tracing) (m : Machine) :
    (@step t m).machine = (@step u m).machine ∧ (@step t m).result = (@step u m).result := by
  cases hd : m.answered? with
  | none =>
      rw [@step_of_unanswered t m hd, @step_of_unanswered u m hd]
      exact ⟨rfl, rfl⟩
  | some d =>
      rw [@step_of_answered t m d hd, @step_of_answered u m d hd]
      exact d.cycle_apart t u

/-- An operation does the same, and has the same result, whether fetches are noted or not. -/
theorem perform_apart (t u : Tracing) (m : Machine) (o : Operation) :
    (@perform t m o).machine = (@perform u m o).machine ∧
      (@perform t m o).result = (@perform u m o).result := by
  -- only steps fetch in order to execute
  cases o with
  | step =>
      obtain ⟨hmachine, hresult⟩ := m.step_apart t u
      refine ⟨hmachine, ?_⟩
      show (stepped (@step t m)).result = (stepped (@step u m)).result
      rw [stepped, stepped, hresult]
  | _ => exact ⟨rfl, rfl⟩

/-! ## Fetches -/

/-- The address and the word of the instruction that a step fetches. Nothing is fetched while the
machine waits for a key, or if its program counter points to no word. -/
def fetched? (m : Machine) : Option (Int × Word) :=
  match m.answered? with
  | none => none
  | some d =>
    match d.fetch with
    | .error _ => none
    | .ok (_, w) => some (d.pc, w)

theorem fetchesOf_instruction (i : Instruction) : fetchesOf i.entries = [] := by
  cases i <;> rfl

theorem fetchesOf_execute (m : Machine) (w : Word) (i : Instruction) :
    fetchesOf (m.execute w i).entries = [] := by
  unfold execute
  split
  · rfl
  · exact fetchesOf_instruction i

theorem fetchesOf_deliveries (m : Machine) : fetchesOf m.deliveries = [] := by
  unfold deliveries
  split <;> rfl

variable [Tracing]

/-- A fetch is noted if that is wanted. -/
theorem fetchesOf_trace (hon : Tracing.isOn = true) (address : Int) (w : Word) :
    fetchesOf (Entry.trace address w) = [(address, w)] := by
  rw [Entry.trace, if_pos hon]
  rfl

section Traced

variable (hon : Tracing.isOn = true) (m : Machine)

include hon

/-- A cycle notes the instruction that it has fetched, and no other. -/
theorem fetchesOf_cycle :
    fetchesOf m.cycle.entries =
      match m.fetch with
      | .error _ => []
      | .ok (_, w) => [(m.pc, w)] := by
  unfold cycle
  cases m.fetch with
  | error reason => rfl
  | ok fetched =>
      obtain ⟨passed, w⟩ := fetched
      dsimp only
      cases Instruction.decode? w with
      | none =>
          show fetchesOf (Entry.trace m.pc w ++ [.unknownWord m.pc w]) = _
          rw [fetchesOf_append, fetchesOf_trace hon]
          rfl
      | some i =>
          show fetchesOf (Entry.trace m.pc w ++ (passed.execute w i).entries) = _
          rw [fetchesOf_append, fetchesOf_trace hon, fetchesOf_execute]
          rfl

/-- What a step notes as fetched is what it fetches. -/
theorem fetchesOf_step : fetchesOf m.step.entries = m.fetched?.toList := by
  unfold fetched?
  cases hd : m.answered? with
  | none =>
      rw [step_of_unanswered hd]
      rfl
  | some d =>
      have hcycle := fetchesOf_cycle hon d
      rw [step_of_answered hd]
      show fetchesOf (m.deliveries ++ d.cycle.entries) = _
      rw [fetchesOf_append, fetchesOf_deliveries, hcycle]
      dsimp only
      cases d.fetch with
      | error reason => rfl
      | ok fetched => rfl

end Traced

/-- What an operation fetches to execute it. -/
def fetches (m : Machine) : Operation → List (Int × Word)
  | .step => m.fetched?.toList
  | _ => []

omit [Tracing] in
theorem fetchesOf_loaded (m : Machine) (count : Nat) (changed : Except LoadError Machine) :
    fetchesOf (m.loaded count changed).entries = [] := by
  cases changed <;> rfl

omit [Tracing] in
theorem fetchesOf_onKey (m : Machine) (key : Int) (act : Keypad → Key → Keypad)
    {note : Key → Entry} (hnote : ∀ k, (note k).fetch? = none) :
    fetchesOf (m.onKey key act note).entries = [] := by
  unfold onKey
  cases Key.ofInt? key with
  | none => rfl
  | some k => exact List.filterMap_cons_none (hnote k)

/-- Only steps note that an instruction was fetched. -/
theorem fetchesOf_perform (hon : Tracing.isOn = true) (m : Machine) (o : Operation) :
    fetchesOf (m.perform o).entries = m.fetches o := by
  -- every other operation notes what it has done, if anything, and no fetch
  cases o with
  | step => exact fetchesOf_step hon m
  | init program | load program => exact fetchesOf_loaded _ _ _
  | press key | release key => exact fetchesOf_onKey _ _ _ fun _ => rfl
  | execute w =>
      simp only [perform, execute?]
      cases Instruction.decode? w with
      | none => rfl
      | some i => exact fetchesOf_execute m w i
  | fetch | draw rows address x y =>
      unfold perform
      dsimp only
      split <;> rfl
  | push address | pop | read address | write address value | readBlock address count
  | writeBlock address values =>
      unfold perform change observe
      dsimp only
      split <;> rfl
  | _ => rfl

end Machine

/-! ## Benches -/

/-- A machine and the record of what its operations note. -/
structure Bench where
  machine : Machine
  record : Record

namespace Bench

/-- Something that happens on a bench. -/
inductive Turn where
  | operate (o : Operation)
  | switchJournal (on : Bool)
  deriving DecidableEq, Repr

/-- The operation of a turn, if it is one. -/
def Turn.operation? : Turn → Option Operation
  | operate o => some o
  | switchJournal _ => none

/-- An operation on a bench, which sees whether the journal takes the trace. -/
def operate (b : Bench) (o : Operation) : Performed :=
  letI := b.record.journal.tracing
  b.machine.perform o

/-- The bench after a turn. -/
def turn (b : Bench) : Turn → Bench
  | .operate o => ⟨(b.operate o).machine, b.record.write (b.operate o).entries⟩
  | .switchJournal on => { b with record := b.record.switch on }

/-- The bench after a history. -/
def after (b : Bench) (history : List Turn) : Bench :=
  history.foldl turn b

/-- The results of the operations on a bench, each with the machine that it leaves. -/
def observed : List Turn → Bench → List (Except Refusal Reply × Machine)
  | [], _ => []
  | .operate o :: rest, b =>
    ((b.operate o).result, (b.operate o).machine) :: observed rest (b.turn (.operate o))
  | .switchJournal on :: rest, b => observed rest (b.turn (.switchJournal on))

/-- What is fetched on a bench while the journal is on. -/
def fetches : List Turn → Bench → List (Int × Word)
  | [], _ => []
  | .operate o :: rest, b =>
    (if b.record.journal.isOn then b.machine.fetches o else []) ++
      fetches rest (b.turn (.operate o))
  | .switchJournal on :: rest, b => fetches rest (b.turn (.switchJournal on))

end Bench

namespace Machine

/-- The results of some operations, each with the machine that it leaves. -/
def performed [Tracing] : List Operation → Machine → List (Except Refusal Reply × Machine)
  | [], _ => []
  | o :: rest, m =>
    ((m.perform o).result, (m.perform o).machine) :: performed rest (m.perform o).machine

end Machine

namespace Bench

/-- What is observed on a bench depends on the machine and the operations only, and these do not
depend on whether there is a trace. -/
theorem observed_eq_performed [Tracing] (b : Bench) (history : List Turn) :
    b.observed history = b.machine.performed (history.filterMap Turn.operation?) := by
  -- the record of the bench may be any
  induction history generalizing b with
  | nil => rfl
  | cons t rest ih =>
      cases t with
      | operate o =>
          obtain ⟨hmachine, hresult⟩ :=
            b.machine.perform_apart b.record.journal.tracing inferInstance o
          rw [observed, ih]
          show ((b.operate o).result, (b.operate o).machine) ::
            (b.operate o).machine.performed _ = _
          rw [show (b.operate o).machine = (b.machine.perform o).machine from hmachine,
            show (b.operate o).result = (b.machine.perform o).result from hresult]
          rfl
      | switchJournal on => exact ih _

/-- The trace grows by what is fetched while the journal is on. -/
theorem traced_after {b : Bench} (h : b.record.journal.Orderly) (history : List Turn) :
    (b.after history).record.traced =
      b.record.traced ++ (b.fetches history).map traceLine := by
  induction history generalizing b with
  | nil => exact (List.append_nil _).symm
  | cons t rest ih =>
      rw [after, List.foldl_cons, ← after]
      cases t with
      | operate o =>
          rw [ih (b := b.turn (.operate o)) h]
          show (b.record.write (b.operate o).entries).traced ++ _ = _
          rw [fetches, Record.traced_write h, List.map_append, List.append_assoc]
          cases hon : b.record.journal.isOn with
          | false => rfl
          | true =>
              have hfetched : fetchesOf (b.operate o).entries = b.machine.fetches o :=
                @Machine.fetchesOf_perform b.record.journal.tracing hon b.machine o
              rw [if_pos rfl, if_pos rfl, hfetched]
      | switchJournal on =>
          rw [ih (b := b.turn (.switchJournal on)) (h.switch on)]
          show (b.record.switch on).traced ++ _ = _
          rw [Record.traced_switch h]
          rfl

end Bench

end Chip8
