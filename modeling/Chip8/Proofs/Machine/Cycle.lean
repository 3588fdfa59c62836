import Chip8.Proofs.Machine.Execution

/-!
# What a step can do

A step first ends a pending key wait, if a press has arrived, and then goes through one cycle.
`Machine.Cycle` lists the four ways in which a cycle of a machine in range can go: there is no
word to fetch, the word stands for nothing, its instruction meets an obstacle, or the instruction
is carried out (`Machine.cycle_mem`). Whatever is known of single instructions is known of steps
through this list; so a step stays in range (`Machine.inRange_step`).
-/

set_option autoImplicit false

namespace Chip8

namespace Machine

/-! ## Fetching -/

/-- The word at the program counter. -/
def word (m : Machine) : Word :=
  .ofBytes (m.memory.byte m.pc.toNat) (m.memory.byte (m.pc.toNat + 1))

/-- The machine with its program counter behind the word that it points to. -/
def passed (m : Machine) : Machine :=
  { m with pc := m.pc + 2 }

@[simp] theorem passed_pc (m : Machine) : m.passed.pc = m.pc + 2 := rfl

@[simp] theorem passed_index (m : Machine) : m.passed.index = m.index := rfl

theorem fetch_of_lt {m : Machine} (h0 : 0 ≤ m.pc) (h : m.pc < 0xFFF) :
    m.fetch = .ok (m.passed, m.word) := by
  have hsize : memorySize = 4096 := rfl
  rw [fetch, if_neg (by omega)]
  rfl

/-- At the last byte of memory, and beyond, there is no word. -/
theorem fetch_of_le {m : Machine} (h : 0xFFF ≤ m.pc) :
    m.fetch = .error (.fault (.outOfRange .fetch m.pc)) := by
  have hsize : memorySize = 4096 := rfl
  rw [fetch, if_pos (by omega)]

/-- A machine that has passed a word in memory is in range, and right behind that word. -/
theorem InRange.passed {m : Machine} (h : m.InRange) (hpc : m.pc < 0xFFF) :
    m.passed.InRange ∧ 2 ≤ m.passed.pc ∧ m.passed.pc ≤ memorySize := by
  have h0 := h.pc.1
  have hsize : memorySize = 4096 := rfl
  have hp : m.passed.pc = m.pc + 2 := rfl
  exact ⟨h.setPc ⟨by omega, by omega⟩, by omega, by omega⟩

/-! ## Cycles -/

variable [Tracing]

/-- The ways in which a cycle can go. -/
inductive Cycle (m : Machine) : Step → Prop where
  | noWord (hpc : 0xFFF ≤ m.pc) : Cycle m ⟨m, [], .error (.fault (.outOfRange .fetch m.pc))⟩
  | unknown (hpc : m.pc < 0xFFF) (hw : Instruction.decode? m.word = none) :
      Cycle m ⟨m.passed, Entry.trace m.pc m.word ++ [.unknownWord m.pc m.word],
        .ok (some m.word)⟩
  | obstructed (hpc : m.pc < 0xFFF) {i : Instruction} (hw : Instruction.decode? m.word = some i)
      {f : Fault} (ho : i.obstacle m.passed = some f) :
      Cycle m ⟨m.passed, Entry.trace m.pc m.word, .error (.fault f)⟩
  | completed (hpc : m.pc < 0xFFF) {i : Instruction} (hw : Instruction.decode? m.word = some i)
      (ho : i.obstacle m.passed = none) :
      Cycle m ⟨(i.run m.passed).machine, Entry.trace m.pc m.word ++ i.entries,
        .ok (some m.word)⟩

theorem cycle_of_le {m : Machine} (hpc : 0xFFF ≤ m.pc) :
    m.cycle = ⟨m, [], .error (.fault (.outOfRange .fetch m.pc))⟩ := by
  rw [cycle, fetch_of_le hpc]

theorem cycle_of_unknown {m : Machine} (h0 : 0 ≤ m.pc) (hpc : m.pc < 0xFFF)
    (hw : Instruction.decode? m.word = none) :
    m.cycle = ⟨m.passed, Entry.trace m.pc m.word ++ [.unknownWord m.pc m.word],
      .ok (some m.word)⟩ := by
  simp only [cycle, fetch_of_lt h0 hpc, hw]

theorem cycle_of_obstacle {m : Machine} (h : m.InRange) (hpc : m.pc < 0xFFF) {i : Instruction}
    (hw : Instruction.decode? m.word = some i) {f : Fault} (ho : i.obstacle m.passed = some f) :
    m.cycle = ⟨m.passed, Entry.trace m.pc m.word, .error (.fault f)⟩ := by
  have hr := Instruction.run_of_obstacle (h.passed hpc).1 ho
  simp only [cycle, fetch_of_lt h.pc.1 hpc, hw, execute, hr, List.append_nil]

theorem cycle_of_clear {m : Machine} (h : m.InRange) (hpc : m.pc < 0xFFF) {i : Instruction}
    (hw : Instruction.decode? m.word = some i) (ho : i.obstacle m.passed = none) :
    m.cycle = ⟨(i.run m.passed).machine, Entry.trace m.pc m.word ++ i.entries,
      .ok (some m.word)⟩ := by
  have hr : i.run m.passed = ⟨(i.run m.passed).machine, none⟩ := by
    rw [← Instruction.failure_run_of_clear (h.passed hpc).1 ho]
  simp only [cycle, fetch_of_lt h.pc.1 hpc, hw, execute]
  rw [hr]

/-- A cycle of a machine in range goes in one of these ways. -/
theorem cycle_mem {m : Machine} (h : m.InRange) : m.Cycle m.cycle := by
  -- in the order in which the cycle asks: is there a word, an instruction, an obstacle
  by_cases hpc : 0xFFF ≤ m.pc
  · rw [cycle_of_le hpc]
    exact .noWord hpc
  · have hlt : m.pc < 0xFFF := by omega
    cases hw : Instruction.decode? m.word with
    | none =>
        rw [cycle_of_unknown h.pc.1 hlt hw]
        exact .unknown hlt hw
    | some i =>
        cases ho : i.obstacle m.passed with
        | some f =>
            rw [cycle_of_obstacle h hlt hw ho]
            exact .obstructed hlt hw ho
        | none =>
            rw [cycle_of_clear h hlt hw ho]
            exact .completed hlt hw ho

theorem inRange_cycle {m : Machine} (h : m.InRange) : m.cycle.machine.InRange := by
  have hc := cycle_mem h
  generalize m.cycle = s at hc ⊢
  cases hc with
  | noWord hpc => exact h
  | unknown hpc hw => exact (h.passed hpc).1
  | obstructed hpc hw ho => exact (h.passed hpc).1
  | completed hpc hw ho =>
      obtain ⟨hpassed, hbehind⟩ := h.passed hpc
      exact Instruction.inRange_run hpassed hbehind _

/-! ## Key waits -/

/-- No key wait holds the machine back. -/
def Ready (m : Machine) : Prop :=
  m.awaiting = none ∨ m.keypad.presses ≠ []

/-- The machine that a step lets go through its cycle: the awaited register has taken the oldest
press. There is none while no press has arrived. -/
def answered? (m : Machine) : Option Machine :=
  match m.awaiting with
  | none => some m
  | some x =>
    match m.keypad.presses with
    | [] => none
    | k :: rest =>
      some { m.setV x k.val with keypad := { m.keypad with presses := rest }, awaiting := none }

/-- A step that finds no press changes nothing. -/
theorem step_of_unanswered {m : Machine} (h : m.answered? = none) :
    m.step = ⟨m, [], .ok none⟩ := by
  unfold answered? at h
  unfold step Keypad.poll
  cases hx : m.awaiting with
  | none => simp only [hx, reduceCtorEq] at h
  | some x =>
      cases hp : m.keypad.presses with
      | nil => rfl
      | cons k rest => simp only [hx, hp, reduceCtorEq] at h

/-- What is noted about the end of a key wait. -/
def deliveries (m : Machine) : List Entry :=
  match m.awaiting, m.keypad.presses with
  | some x, k :: _ => [.keyDelivered k x]
  | _, _ => []

/-- Any other step is the cycle of the machine whose wait is over. -/
theorem step_of_answered {m d : Machine} (h : m.answered? = some d) :
    m.step = ⟨d.cycle.machine, m.deliveries ++ d.cycle.entries, d.cycle.result⟩ := by
  unfold answered? at h
  unfold step Keypad.poll deliveries
  cases hx : m.awaiting with
  | none =>
      simp only [hx, Option.some.injEq] at h
      subst h
      rfl
  | some x =>
      cases hp : m.keypad.presses with
      | nil => simp only [hx, hp, reduceCtorEq] at h
      | cons k rest =>
          simp only [hx, hp, Option.some.injEq] at h
          subst h
          rfl

omit [Tracing] in
/-- A step goes through a cycle exactly if no key wait holds the machine back. -/
theorem ready_iff {m : Machine} : m.Ready ↔ ∃ d, m.answered? = some d := by
  unfold Ready answered?
  cases m.awaiting with
  | none => simp only [Option.some.injEq, exists_eq', true_or]
  | some x =>
      cases m.keypad.presses with
      | nil => simp only [reduceCtorEq, ne_eq, not_true_eq_false, or_self, exists_false]
      | cons k rest =>
          simp only [reduceCtorEq, ne_eq, not_false_eq_true, or_true, Option.some.injEq,
            exists_eq']

omit [Tracing] in
/-- A machine whose wait is over differs in a register, the wait and the queue only. -/
theorem answered?_eq_some {m d : Machine} (h : m.answered? = some d) :
    (m.awaiting = none ∧ d = m) ∨
      ∃ x k rest, m.awaiting = some x ∧ m.keypad.presses = k :: rest ∧
        d = { m.setV x k.val with
          keypad := { m.keypad with presses := rest }, awaiting := none } := by
  unfold answered? at h
  cases hx : m.awaiting with
  | none =>
      simp only [hx, Option.some.injEq] at h
      exact Or.inl ⟨rfl, h.symm⟩
  | some x =>
      cases hp : m.keypad.presses with
      | nil => simp only [hx, hp, reduceCtorEq] at h
      | cons k rest =>
          simp only [hx, hp, Option.some.injEq] at h
          exact Or.inr ⟨x, k, rest, rfl, rfl, h.symm⟩

omit [Tracing] in
/-- The end of a key wait is not seen by memory and counters. -/
theorem answered?_counters {m d : Machine} (h : m.answered? = some d) :
    d.memory = m.memory ∧ d.pc = m.pc ∧ d.index = m.index ∧ d.depth = m.depth := by
  rcases answered?_eq_some h with ⟨-, rfl⟩ | ⟨x, k, rest, -, -, rfl⟩
  · exact ⟨rfl, rfl, rfl, rfl⟩
  · exact ⟨rfl, rfl, rfl, rfl⟩

omit [Tracing] in
theorem InRange.answered {m d : Machine} (h : m.InRange) (hd : m.answered? = some d) :
    d.InRange := by
  rcases answered?_eq_some hd with ⟨-, rfl⟩ | ⟨x, k, rest, -, -, rfl⟩
  · exact h
  · exact (h.setV x (Byte.isValue_fin k)).setKeypad _ _

/-- A step stays in range. -/
theorem inRange_step {m : Machine} (h : m.InRange) : m.step.machine.InRange := by
  cases hd : m.answered? with
  | none =>
      rw [step_of_unanswered hd]
      exact h
  | some d =>
      rw [step_of_answered hd]
      exact inRange_cycle (h.answered hd)

end Machine

end Chip8
