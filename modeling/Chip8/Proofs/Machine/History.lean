import Chip8.Proofs.Machine.Cycle

/-!
# Histories of a machine

A machine is reachable if it comes from a fresh one by ordinary operations: loading programs,
resetting, stepping, ticking, and what keypad and display do on their own, in any order and
whether they are refused or not. Every ordinary operation keeps a machine in range, hence so is
every reachable machine, and all that it shows lies within its bounds
(`Machine.wellFormed_of_reachable`).
-/

set_option autoImplicit false

namespace Chip8

/-- Operations that are part of running a program. The others reach into the machine. -/
def Operation.isOrdinary : Operation → Bool
  | init _ | reset | step | tick | press _ | release _ | releaseAll | flush | poll | takeFrame
  | snapshot => true
  | _ => false

namespace Machine

section Histories

variable [Tracing]

/-- The machine that a list of operations leaves. -/
def after (m : Machine) (ops : List Operation) : Machine :=
  ops.foldl (fun m o => (m.perform o).machine) m

@[simp] theorem after_nil (m : Machine) : m.after [] = m := rfl

@[simp] theorem after_cons (m : Machine) (o : Operation) (ops : List Operation) :
    m.after (o :: ops) = (m.perform o).machine.after ops := rfl

theorem after_concat (m : Machine) (ops : List Operation) (o : Operation) :
    m.after (ops ++ [o]) = ((m.after ops).perform o).machine := by
  rw [after, List.foldl_append]
  rfl

/-- Machines that come from a fresh one by ordinary operations. -/
inductive Reachable : Machine → Prop where
  | fresh (keypad : Keypad) (random : RandomSource) : Reachable (.fresh keypad random)
  | perform {m : Machine} (h : Reachable m) {o : Operation} (ho : o.isOrdinary = true) :
      Reachable (m.perform o).machine

theorem Reachable.after {m : Machine} (h : m.Reachable) {ops : List Operation}
    (ho : ∀ o ∈ ops, o.isOrdinary = true) : (m.after ops).Reachable := by
  induction ops generalizing m with
  | nil => exact h
  | cons o rest ih =>
      have hfirst := h.perform (ho o List.mem_cons_self)
      exact ih hfirst fun p hp => ho p (List.mem_cons_of_mem o hp)

/-! ## Operations stay in range -/

omit [Tracing] in
/-- A program is refused, or it is put in memory and the program counter at its start. -/
theorem init_cases (program : List Int) :
    (∃ reason, ∀ m : Machine, m.init program = .error reason) ∨
      ∃ bytes, ∀ m : Machine, m.init program =
        .ok { m with memory := m.memory.poke programStart bytes, pc := programStart } := by
  unfold init
  rcases Memory.load_cases program with ⟨reason, hl⟩ | ⟨bytes, hl⟩
  · exact Or.inl ⟨reason, fun m => by rw [hl]; rfl⟩
  · exact Or.inr ⟨bytes, fun m => by rw [hl]; rfl⟩

theorem InRange.init {m : Machine} (h : m.InRange) (program : List Int) :
    (m.perform (.init program)).machine.InRange := by
  show (m.loaded program.length (m.init program)).machine.InRange
  rcases init_cases program with ⟨reason, hi⟩ | ⟨bytes, hi⟩
  · rw [hi]
    exact h
  · rw [hi]
    have hstart : (programStart : Int) = 512 := rfl
    exact (h.setMemory _).setPc ⟨by omega, by omega⟩

omit [Tracing] in
theorem InRange.onKey {m : Machine} (h : m.InRange) (key : Int) (act : Keypad → Key → Keypad)
    (note : Key → Entry) : (m.onKey key act note).machine.InRange := by
  unfold Machine.onKey
  cases Key.ofInt? key with
  | none => exact h
  | some k => exact h.setKeypad _ _

/-- Every ordinary operation keeps a machine in range. -/
theorem inRange_perform {m : Machine} (h : m.InRange) {o : Operation}
    (ho : o.isOrdinary = true) : (m.perform o).machine.InRange := by
  -- a reset starts over; everything else that is not a step leaves registers and stack alone
  cases o with
  | init program => exact h.init program
  | reset => exact inRange_reset m
  | step => exact inRange_step h
  | tick => exact h.tick
  | press key => exact h.onKey key _ _
  | release key => exact h.onKey key _ _
  | releaseAll => exact h.setKeypad _ _
  | flush => exact h.setKeypad _ _
  | poll => exact h.setKeypad _ _
  | takeFrame => exact h.setDisplay _
  | snapshot => exact h
  | _ => simp only [Operation.isOrdinary, Bool.false_eq_true] at ho

theorem InRange.after {m : Machine} (h : m.InRange) {ops : List Operation}
    (ho : ∀ o ∈ ops, o.isOrdinary = true) : (m.after ops).InRange := by
  induction ops generalizing m with
  | nil => exact h
  | cons o rest ih =>
      have hfirst := inRange_perform h (ho o List.mem_cons_self)
      exact ih hfirst fun p hp => ho p (List.mem_cons_of_mem o hp)

theorem Reachable.inRange {m : Machine} (h : m.Reachable) : m.InRange := by
  induction h with
  | fresh keypad random => exact inRange_fresh keypad random
  | perform _ ho ih => exact inRange_perform ih ho

end Histories

/-! ## What a reachable machine shows -/

/-- The bounds of everything that a machine shows. -/
structure WellFormed (m : Machine) : Prop where
  memory_size : m.memory.bytes.toList.length = 0x1000
  registers_size : m.v.toList.length = 16
  registers : ∀ a ∈ m.v.toList, 0 ≤ a ∧ a ≤ 255
  index : 0 ≤ m.index ∧ m.index ≤ 0xFFFF
  pc : 0 ≤ m.pc ∧ m.pc ≤ 0x10FE
  depth : 0 ≤ m.depth ∧ m.depth ≤ 16
  returns_size : (m.returns.length : Int) = m.depth
  returns : ∀ w ∈ m.returns, 2 ≤ w.toNat ∧ w.toNat ≤ 0x1000
  delay : 0 ≤ m.delay ∧ m.delay ≤ 255
  sound : 0 ≤ m.sound ∧ m.sound ≤ 255
  awaiting : ∀ x, m.awaiting = some x → x.val ≤ 15
  presses : ∀ k ∈ m.keypad.presses, k.val ≤ 15
  height : m.display.grid.toList.length = 32
  width : ∀ row ∈ m.display.grid.toList, row.toList.length = 64
  cells : ∀ row ∈ m.display.grid.toList, ∀ cell ∈ row.toList,
    flagValue cell = 0 ∨ flagValue cell = 1

/-- The return addresses of a machine in range are the first slots of its stack. -/
theorem InRange.returns_eq {m : Machine} (h : m.InRange) :
    m.returns = m.stack.toList.take m.depth.toNat := by
  have h0 := h.depth.1
  rw [returns, if_neg (by omega)]

theorem InRange.isReturn_of_mem {m : Machine} (h : m.InRange) {w : Word} (hw : w ∈ m.returns) :
    Word.IsReturn w := by
  have hdepth := h.depth
  rw [h.returns_eq] at hw
  obtain ⟨i, hi, rfl⟩ := List.mem_iff_getElem.1 hw
  have hlt : i < m.depth.toNat ∧ i < stackSize := by
    simpa only [List.length_take, Vector.length_toList, Nat.lt_min] using hi
  rw [List.getElem_take]
  exact h.stack ⟨i, hlt.2⟩ (by show (i : Int) < m.depth; omega)

theorem InRange.wellFormed {m : Machine} (h : m.InRange) : m.WellFormed where
  memory_size := m.memory.bytes.length_toList
  registers_size := m.v.length_toList
  registers := by
    intro a ha
    obtain ⟨i, hi, rfl⟩ := List.mem_iff_getElem.1 ha
    have hlt : i < 16 := by rwa [Vector.length_toList] at hi
    obtain ⟨h0, h1⟩ := h.registers ⟨i, hlt⟩
    exact ⟨h0, Int.le_of_lt_add_one h1⟩
  index := h.index
  pc := h.pc
  depth := h.depth
  returns_size := by
    have hdepth := h.depth
    have hstack : stackSize = 16 := rfl
    rw [h.returns_eq, List.length_take, Vector.length_toList]
    omega
  returns := fun w hw => h.isReturn_of_mem hw
  delay := ⟨h.delay.1, Int.le_of_lt_add_one h.delay.2⟩
  sound := ⟨h.sound.1, Int.le_of_lt_add_one h.sound.2⟩
  awaiting := fun x _ => Nat.le_of_lt_succ x.isLt
  presses := fun k _ => Nat.le_of_lt_succ k.isLt
  height := m.display.grid.length_toList
  width := fun row _ => row.length_toList
  cells := by
    intro row _ cell _
    cases cell with
    | false => exact Or.inl rfl
    | true => exact Or.inr rfl

/-- A reachable machine shows nothing that is out of bounds. -/
theorem wellFormed_of_reachable [Tracing] {m : Machine} (h : m.Reachable) : m.WellFormed :=
  h.inRange.wellFormed

open Tracing.Off in
/-- A program calls a routine that waits for a key, and the key has been pressed. -/
theorem wellFormed_of_reachable_waiting :
    let m := (fresh .idle ⟨fun _ => 0, 0⟩).after
      [.init [0x22, 0x04, 0x00, 0x00, 0xF0, 0x0A], .step, .step, .press 5]
    m.Reachable ∧ m.WellFormed := by
  intro m
  have h : m.Reachable := (Reachable.fresh _ _).after (by decide)
  exact ⟨h, wellFormed_of_reachable h⟩

end Machine

end Chip8
