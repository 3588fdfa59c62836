import Chip8.Proofs.Instruction.Decode
import Chip8.Proofs.Machine.History

/-!
# Faults of a step

`Machine.Hazard` says, by the fields of a machine and of the word that it would fetch, which fault
a program has run into. A step of a reachable machine fails exactly if the machine is not held
back by a key wait and faces a hazard, and it fails with that fault (`Machine.step_error_iff`). A
step that fails leaves the machine as it was, apart from an answered key wait and the program
counter (`Machine.step_machine_of_error`).
-/

set_option autoImplicit false

namespace Chip8

namespace Machine

/-- The faults that lie ahead of a machine. A word whose highest nibble is `0xF` and whose low byte
is `0x33`, `0x55` or `0x65` moves a block of one to sixteen bytes at the index. -/
inductive Hazard (m : Machine) : Fault → Prop where
  | fetch (h : 0xFFF ≤ m.pc) : Hazard m (.outOfRange .fetch m.pc)
  | ret (hpc : m.pc < 0xFFF) (hw : m.word = 0x00EE) (h : m.depth = 0) :
      Hazard m (.stackUnderflow m.pc)
  | call (hpc : m.pc < 0xFFF) (hw : m.word.family.val = 0x2) (h : m.depth = 16) :
      Hazard m (.stackOverflow m.pc)
  | sprite (hpc : m.pc < 0xFFF) (hw : m.word.family.val = 0xD) (hn : 1 ≤ m.word.n.val)
      (h : 0xFFF < m.index + m.word.n.val - 1) :
      Hazard m (.outOfRange .sprite (m.index + m.word.n.val - 1))
  | decimal (hpc : m.pc < 0xFFF) (hw : m.word.family.val = 0xF) (hk : m.word.constant = 0x33)
      (h : 0xFFF < m.index + 2) : Hazard m (.outOfRange .data (m.index + 2))
  | registers (hpc : m.pc < 0xFFF) (hw : m.word.family.val = 0xF)
      (hk : m.word.constant = 0x55 ∨ m.word.constant = 0x65)
      (h : 0xFFF < m.index + m.word.x.val) : Hazard m (.outOfRange .data (m.index + m.word.x.val))

/-! ## Hazards and obstacles -/

theorem passed_pc_sub (m : Machine) : m.passed.pc - 2 = m.pc := by
  rw [passed_pc]
  omega

/-- An obstacle of the instruction at the program counter is a hazard. -/
theorem hazard_of_obstacle {m : Machine} (hpc : m.pc < 0xFFF) {i : Instruction}
    (hi : Instruction.Spells m.word i) {f : Fault} (ho : i.obstacle m.passed = some f) :
    m.Hazard f := by
  have hsize : memorySize = 4096 := rfl
  cases i with
  | ret =>
      obtain ⟨hd, rfl⟩ := Instruction.obstacle_ret_eq_some_iff.1 ho
      rw [passed_pc_sub]
      exact .ret hpc hi hd
  | call target =>
      obtain ⟨hd, rfl⟩ := Instruction.obstacle_call_eq_some_iff.1 ho
      rw [passed_pc_sub]
      exact .call hpc hi.1 hd
  | draw x y rows =>
      obtain ⟨hf, -, -, rfl⟩ := hi
      obtain ⟨hr, hover, rfl⟩ := Instruction.obstacle_draw_eq_some_iff.1 ho
      rw [passed_index] at hover ⊢
      exact .sprite hpc hf (by omega) (by omega)
  | decimal x =>
      obtain ⟨hf, hk, -⟩ := hi
      obtain ⟨hover, rfl⟩ := Instruction.overrun_eq_some_iff.1 ho
      rw [passed_index] at hover ⊢
      rw [show m.index + 3 - 1 = m.index + 2 by omega]
      exact .decimal hpc hf hk (by omega)
  | store last =>
      obtain ⟨hf, hk, rfl⟩ := hi
      obtain ⟨hover, rfl⟩ := Instruction.overrun_eq_some_iff.1 ho
      rw [passed_index] at hover ⊢
      rw [show m.index + (m.word.x.val + 1) - 1 = m.index + m.word.x.val by omega]
      exact .registers hpc hf (Or.inl hk) (by omega)
  | restore last =>
      obtain ⟨hf, hk, rfl⟩ := hi
      obtain ⟨hover, rfl⟩ := Instruction.overrun_eq_some_iff.1 ho
      rw [passed_index] at hover ⊢
      rw [show m.index + (m.word.x.val + 1) - 1 = m.index + m.word.x.val by omega]
      exact .registers hpc hf (Or.inr hk) (by omega)
  | _ => simp only [Instruction.obstacle, reduceCtorEq] at ho

/-- A block whose last address lies behind memory is an obstacle. -/
theorem overrun_of_lt {access : Access} {a last : Int} (h : 0xFFF < a + last) {count : Int}
    (hc : count = last + 1) :
    Instruction.overrun access a count = some (.outOfRange access (a + last)) := by
  have hsize : memorySize = 4096 := rfl
  refine Instruction.overrun_eq_some_iff.2 ⟨by omega, ?_⟩
  rw [show a + count - 1 = a + last by omega]

/-- If there is a word, then a hazard is an obstacle of its instruction. -/
theorem obstacle_of_hazard {m : Machine} (hlt : m.pc < 0xFFF) {f : Fault} (h : m.Hazard f) :
    ∃ i, Instruction.Spells m.word i ∧ i.obstacle m.passed = some f := by
  cases h with
  | fetch h => omega
  | ret _ hw h =>
      refine ⟨.ret, hw, Instruction.obstacle_ret_eq_some_iff.2 ⟨h, ?_⟩⟩
      rw [passed_pc_sub]
  | call _ hw h =>
      refine ⟨.call m.word.address, ⟨hw, rfl⟩, Instruction.obstacle_call_eq_some_iff.2 ⟨h, ?_⟩⟩
      rw [passed_pc_sub]
  | sprite _ hw hn h =>
      have hsize : memorySize = 4096 := rfl
      refine ⟨.draw m.word.x m.word.y m.word.n, ⟨hw, rfl, rfl, rfl⟩,
        Instruction.obstacle_draw_eq_some_iff.2 ⟨by omega, ?_, rfl⟩⟩
      rw [passed_index]
      omega
  | decimal _ hw hk h => exact ⟨.decimal m.word.x, ⟨hw, hk, rfl⟩, overrun_of_lt h rfl⟩
  | registers _ hw hk h =>
      rcases hk with hk | hk
      · exact ⟨.store m.word.x, ⟨hw, hk, rfl⟩, overrun_of_lt h rfl⟩
      · exact ⟨.restore m.word.x, ⟨hw, hk, rfl⟩, overrun_of_lt h rfl⟩

theorem hazard_iff_of_le {m : Machine} (hle : 0xFFF ≤ m.pc) {f : Fault} :
    m.Hazard f ↔ f = .outOfRange .fetch m.pc := by
  constructor
  · intro h
    cases h with
    | fetch h => rfl
    | ret hpc | call hpc | sprite hpc | decimal hpc | registers hpc => omega
  · rintro rfl
    exact .fetch hle

theorem hazard_iff_of_lt {m : Machine} (hlt : m.pc < 0xFFF) {f : Fault} :
    m.Hazard f ↔ ∃ i, Instruction.decode? m.word = some i ∧ i.obstacle m.passed = some f := by
  constructor
  · intro h
    obtain ⟨i, hi, ho⟩ := obstacle_of_hazard hlt h
    exact ⟨i, Instruction.decode?_of_spells hi, ho⟩
  · rintro ⟨i, hw, ho⟩
    exact hazard_of_obstacle hlt (Instruction.spells_of_decode? hw) ho

/-- What lies ahead does not depend on registers, keypad and key wait. -/
theorem Hazard.congr {m d : Machine} (hmemory : d.memory = m.memory) (hpc : d.pc = m.pc)
    (hindex : d.index = m.index) (hdepth : d.depth = m.depth) {f : Fault} (h : d.Hazard f) :
    m.Hazard f := by
  have hword : d.word = m.word := by rw [word, word, hmemory, hpc]
  -- a hazard speaks of the word, of the index, of the depth and of the program counter
  cases h with
  | fetch h => exact hpc ▸ .fetch (hpc ▸ h)
  | ret hlt hw h => exact hpc ▸ .ret (hpc ▸ hlt) (hword ▸ hw) (hdepth ▸ h)
  | call hlt hw h => exact hpc ▸ .call (hpc ▸ hlt) (hword ▸ hw) (hdepth ▸ h)
  | sprite hlt hw hn h =>
      rw [hword] at hw hn h ⊢
      rw [hindex] at h ⊢
      exact .sprite (hpc ▸ hlt) hw hn h
  | decimal hlt hw hk h =>
      rw [hword] at hw hk
      rw [hindex] at h ⊢
      exact .decimal (hpc ▸ hlt) hw hk h
  | registers hlt hw hk h =>
      rw [hword] at hw hk h ⊢
      rw [hindex] at h ⊢
      exact .registers (hpc ▸ hlt) hw hk h

theorem hazard_answered_iff {m d : Machine} (hd : m.answered? = some d) {f : Fault} :
    d.Hazard f ↔ m.Hazard f := by
  obtain ⟨hmemory, hpc, hindex, hdepth⟩ := answered?_counters hd
  exact ⟨fun h => h.congr hmemory hpc hindex hdepth,
    fun h => h.congr hmemory.symm hpc.symm hindex.symm hdepth.symm⟩

/-! ## Steps that fail -/

section Steps

variable [Tracing]

/-- A cycle fails exactly with the hazards that lie ahead. -/
theorem cycle_error_iff {m : Machine} (h : m.InRange) (reason : Failure) :
    m.cycle.result = .error reason ↔ ∃ f, reason = .fault f ∧ m.Hazard f := by
  have hc := cycle_mem h
  generalize m.cycle = s at hc ⊢
  -- the decoder finds one instruction at most, so a hazard cannot belong to another one
  cases hc with
  | noWord hle => simp [hazard_iff_of_le hle, eq_comm]
  | unknown hlt hw => simp [hazard_iff_of_lt hlt, hw]
  | obstructed hlt hw ho => simp [hazard_iff_of_lt hlt, hw, ho, eq_comm]
  | completed hlt hw ho => simp [hazard_iff_of_lt hlt, hw, ho]

/-- A cycle that fails has moved the program counter, if there was a word, and nothing else. -/
theorem cycle_machine_of_error {m : Machine} (h : m.InRange) {reason : Failure}
    (he : m.cycle.result = .error reason) :
    m.cycle.machine = { m with pc := if m.pc < 0xFFF then m.pc + 2 else m.pc } := by
  have hc := cycle_mem h
  generalize m.cycle = s at hc he ⊢
  cases hc with
  | noWord hpc => rw [if_neg (by omega)]
  | obstructed hpc hw ho =>
      rw [if_pos hpc]
      rfl
  | unknown hpc hw => cases he
  | completed hpc hw ho => cases he

theorem step_error_iff_hazard {m : Machine} (h : m.InRange) (reason : Failure) :
    m.step.result = .error reason ↔
      m.Ready ∧ ∃ f, reason = .fault f ∧ m.Hazard f := by
  cases hd : m.answered? with
  | none =>
      have hwait : ¬ m.Ready := by
        rw [ready_iff, hd]
        rintro ⟨d, hsome⟩
        cases hsome
      rw [step_of_unanswered hd]
      constructor
      · intro he
        cases he
      · rintro ⟨hready, -⟩
        exact absurd hready hwait
  | some d =>
      have hready := ready_iff.2 ⟨d, hd⟩
      rw [step_of_answered hd]
      show d.cycle.result = .error reason ↔ _
      rw [cycle_error_iff (h.answered hd)]
      simp only [hazard_answered_iff hd, hready, true_and]

/-- A step that fails is one whose key wait is over, if there was one. -/
theorem step_machine_of_error_answered {m : Machine} (h : m.InRange) {reason : Failure}
    (he : m.step.result = .error reason) :
    ∃ d, m.answered? = some d ∧
      m.step.machine = { d with pc := if m.pc < 0xFFF then m.pc + 2 else m.pc } := by
  cases hd : m.answered? with
  | none =>
      rw [step_of_unanswered hd] at he
      cases he
  | some d =>
      obtain ⟨-, hpc, -, -⟩ := answered?_counters hd
      rw [step_of_answered hd] at he ⊢
      have hc := cycle_machine_of_error (h.answered hd) he
      rw [hpc] at hc
      exact ⟨d, rfl, hc⟩

end Steps

/-- The fault of a failed step is about the fetch exactly if there is no word. -/
theorem Hazard.eq_fetch_iff {m : Machine} {f : Fault} (h : m.Hazard f) :
    f = .outOfRange .fetch m.pc ↔ 0xFFF ≤ m.pc := by
  cases h with
  | fetch h => exact iff_of_true rfl h
  | ret hpc | call hpc | sprite hpc | decimal hpc | registers hpc =>
      exact iff_of_false nofun (Int.not_le.2 hpc)

/-! ## Faults of a reachable machine -/

/-- A step of a reachable machine fails exactly if it does not stay in an unanswered key wait and
faces a hazard; and then it fails with this fault. -/
theorem step_error_iff [Tracing] {m : Machine} (h : m.Reachable) (reason : Failure) :
    m.step.result = .error reason ↔
      m.Ready ∧ ∃ f, reason = .fault f ∧ m.Hazard f :=
  step_error_iff_hazard h.inRange reason

open Tracing.Off in
/-- Sixteen calls of a program that calls itself fill the stack, and the next one fails. -/
theorem step_error_iff_full_stack :
    let m := (fresh .idle ⟨fun _ => 0, 0⟩).after (.init [0x22, 0x00] :: List.replicate 16 .step)
    let reason := Failure.fault (.stackOverflow 0x200)
    m.Reachable ∧ m.step.result = .error reason ∧
      (m.step.result = .error reason ↔
        m.Ready ∧ ∃ f, reason = .fault f ∧ m.Hazard f) := by
  intro m reason
  have h : m.Reachable := (Reachable.fresh _ _).after (by decide)
  -- one evaluation of the seventeen operations shows all that the hazard needs
  have hm : (m.pc, m.word, m.depth, m.awaiting) = (0x200, 0x2200, 16, none) := by decide +kernel
  obtain ⟨hpc, hword, hdepth, hwait⟩ : m.pc = 0x200 ∧ m.word = 0x2200 ∧ m.depth = 16 ∧
      m.awaiting = none := by
    simpa only [Prod.mk.injEq] using hm
  have hazard : m.Hazard (.stackOverflow 0x200) :=
    hpc ▸ .call (by omega) (by rw [hword]; decide) hdepth
  have hiff := step_error_iff h reason
  exact ⟨h, hiff.2 ⟨Or.inl hwait, _, rfl, hazard⟩, hiff⟩

/-- A step of a reachable machine that fails changes nothing, with two exceptions. A press that
answers a key wait has been taken to its register; and the program counter has passed the word,
unless it was the fetch that failed. -/
theorem step_machine_of_error [Tracing] {m : Machine} (h : m.Reachable) {reason : Failure}
    (he : m.step.result = .error reason) :
    let pc := if reason = .fault (.outOfRange .fetch m.pc) then m.pc else m.pc + 2
    (m.awaiting = none ∧ m.step.machine = { m with pc }) ∨
      ∃ x k rest, m.awaiting = some x ∧ m.keypad.presses = k :: rest ∧
        m.step.machine = { m.setV x k.val with
          keypad := { m.keypad with presses := rest }, awaiting := none, pc } := by
  intro pc
  obtain ⟨-, f, rfl, hf⟩ := (step_error_iff_hazard h.inRange reason).1 he
  -- the fault tells whether there was a word
  have hpc : (if m.pc < 0xFFF then m.pc + 2 else m.pc) = pc := by
    by_cases hlt : m.pc < 0xFFF
    · have hne : Failure.fault f ≠ .fault (.outOfRange .fetch m.pc) := by
        intro hfetch
        have hle := hf.eq_fetch_iff.1 (Failure.fault.inj hfetch)
        omega
      rw [if_pos hlt]
      exact (if_neg hne).symm
    · have hfetch := hf.eq_fetch_iff.2 (Int.not_lt.1 hlt)
      rw [if_neg hlt]
      exact (if_pos (congrArg Failure.fault hfetch)).symm
  obtain ⟨d, hd, hmachine⟩ := step_machine_of_error_answered h.inRange he
  rw [hpc] at hmachine
  rcases answered?_eq_some hd with ⟨hwait, rfl⟩ | ⟨x, k, rest, hx, hk, rfl⟩
  · exact Or.inl ⟨hwait, hmachine⟩
  · exact Or.inr ⟨x, k, rest, hx, hk, hmachine⟩

open Tracing.Off in
/-- A press that ends a key wait is taken to its register even if the instruction behind the wait
returns from nothing. -/
theorem step_machine_of_error_after_wait :
    let m := (fresh .idle ⟨fun _ => 0, 0⟩).after
      [.init [0xF1, 0x0A, 0x00, 0xEE], .step, .press 5, .press 6]
    let reason := Failure.fault (.stackUnderflow 0x202)
    m.Reachable ∧ m.step.result = .error reason ∧
      let pc := if reason = .fault (.outOfRange .fetch m.pc) then m.pc else m.pc + 2
      (m.awaiting = none ∧ m.step.machine = { m with pc }) ∨
        ∃ x k rest, m.awaiting = some x ∧ m.keypad.presses = k :: rest ∧
          m.step.machine = { m.setV x k.val with
            keypad := { m.keypad with presses := rest }, awaiting := none, pc } := by
  intro m reason
  have h : m.Reachable := (Reachable.fresh _ _).after (by decide)
  have hm : (m.pc, m.word, m.depth, m.keypad.presses) = (0x202, 0x00EE, 0, [5, 6]) := by
    decide +kernel
  obtain ⟨hpc, hword, hdepth, hpresses⟩ : m.pc = 0x202 ∧ m.word = 0x00EE ∧ m.depth = 0 ∧
      m.keypad.presses = [5, 6] := by
    simpa only [Prod.mk.injEq] using hm
  have hready : m.Ready := Or.inr (by rw [hpresses]; exact List.cons_ne_nil _ _)
  have hazard : m.Hazard (.stackUnderflow 0x202) := hpc ▸ .ret (by omega) hword hdepth
  have he : m.step.result = .error reason :=
    (step_error_iff_hazard h.inRange reason).2 ⟨hready, _, rfl, hazard⟩
  exact ⟨h, he, step_machine_of_error h he⟩

end Machine

end Chip8
