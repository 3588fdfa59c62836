import Chip8.Proofs.Display.Draw
import Chip8.Proofs.Machine.Range

/-!
# Instructions that can fail

Six instructions can fail: a return, a call, a sprite and the three that move registers to memory
or back. `Instruction.obstacle` says when, and which fault that is. On a machine in range it is
the whole truth: an instruction with an obstacle changes nothing and ends with that fault
(`Instruction.run_of_obstacle`), and any other comes to its end
(`Instruction.failure_run_of_clear`). What the six do when they succeed is stated one by one; the
others cannot fail.
-/

set_option autoImplicit false

namespace Chip8

namespace Machine

/-! ## The return stack -/

/-- The slot at a position of the stack. -/
theorem slot_of_lt {p : Int} (h0 : 0 ≤ p) (h : p < stackSize) :
    ∃ i : Fin stackSize, (i.val : Int) = p ∧ slot p = .ok i := by
  refine ⟨⟨p.toNat, by omega⟩, Int.toNat_of_nonneg h0, ?_⟩
  have hi : index? stackSize p = some ⟨p.toNat, by omega⟩ := by
    simp only [index?, if_neg (show ¬ p < 0 by omega)]
    exact dif_pos ⟨h0, h⟩
  rw [slot, hi]

theorem push_of_full {m : Machine} (h : m.depth = stackSize) (address : Int) :
    m.push address = .error (.fault (.stackOverflow (m.pc - 2))) := by
  rw [push, if_pos (by omega)]
  rfl

/-- A word is pushed to the first slot that is not in use. -/
theorem push_of_room {m : Machine} (h0 : 0 ≤ m.depth) (h : m.depth < stackSize) {address : Int}
    (ha : 0 ≤ address ∧ address < 65536) :
    ∃ i : Fin stackSize, (i.val : Int) = m.depth ∧
      m.push address = .ok { m with
        stack := m.stack.set i.val (UInt16.ofNat address.toNat) i.isLt
        depth := m.depth + 1 } := by
  obtain ⟨i, hi, hs⟩ := slot_of_lt h0 h
  refine ⟨i, hi, ?_⟩
  rw [push, if_neg (by omega), hs]
  exact if_pos ha

theorem pop_of_empty {m : Machine} (h : m.depth = 0) :
    m.pop = (m, .error (.fault (.stackUnderflow (m.pc - 2)))) :=
  if_pos h

/-- A word is popped from the last slot that is in use. -/
theorem pop_of_held {m : Machine} (h0 : 0 < m.depth) (h : m.depth ≤ stackSize) :
    ∃ i : Fin stackSize, (i.val : Int) = m.depth - 1 ∧
      m.pop = ({ m with depth := m.depth - 1 }, .ok (m.stack.get i)) := by
  obtain ⟨i, hi, hs⟩ := slot_of_lt (p := m.depth - 1) (by omega) (by omega)
  refine ⟨i, hi, ?_⟩
  rw [pop, if_neg (by omega)]
  simp only [hs]
  rfl

end Machine

namespace Instruction

/-! ## Obstacles -/

/-- The fault of an access to a block of memory that runs over the end. -/
def overrun (access : Access) (a count : Int) : Option Fault :=
  if (memorySize : Int) < a + count then some (.outOfRange access (a + count - 1)) else none

/-- What keeps a machine from carrying out an instruction that it has passed. -/
def obstacle (m : Machine) : Instruction → Option Fault
  | ret => if m.depth = 0 then some (.stackUnderflow (m.pc - 2)) else none
  | call _ => if m.depth = stackSize then some (.stackOverflow (m.pc - 2)) else none
  | draw _ _ rows => if rows.val = 0 then none else overrun .sprite m.index rows.val
  | decimal _ => overrun .data m.index 3
  | store last | restore last => overrun .data m.index (last.val + 1)
  | _ => none

theorem overrun_eq_some_iff {access : Access} {a count : Int} {f : Fault} :
    overrun access a count = some f ↔
      (memorySize : Int) < a + count ∧ f = .outOfRange access (a + count - 1) := by
  rw [overrun, Option.ite_none_right_eq_some, Option.some.injEq]
  exact and_congr_right fun _ => eq_comm

theorem overrun_eq_none_iff {access : Access} {a count : Int} :
    overrun access a count = none ↔ a + count ≤ memorySize := by
  simp [overrun]

theorem obstacle_ret_eq_some_iff {m : Machine} {f : Fault} :
    ret.obstacle m = some f ↔ m.depth = 0 ∧ f = .stackUnderflow (m.pc - 2) := by
  rw [obstacle, Option.ite_none_right_eq_some, Option.some.injEq]
  exact and_congr_right fun _ => eq_comm

theorem obstacle_call_eq_some_iff {m : Machine} {target : Address} {f : Fault} :
    (call target).obstacle m = some f ↔
      m.depth = stackSize ∧ f = .stackOverflow (m.pc - 2) := by
  rw [obstacle, Option.ite_none_right_eq_some, Option.some.injEq]
  exact and_congr_right fun _ => eq_comm

theorem obstacle_draw_eq_some_iff {m : Machine} {x y : Register} {rows : Fin 16} {f : Fault} :
    (draw x y rows).obstacle m = some f ↔
      rows.val ≠ 0 ∧ (memorySize : Int) < m.index + rows.val ∧
        f = .outOfRange .sprite (m.index + rows.val - 1) := by
  simp only [obstacle, Option.ite_none_left_eq_some, overrun_eq_some_iff, ne_eq]

theorem obstacle_ret_eq_none_iff {m : Machine} : ret.obstacle m = none ↔ m.depth ≠ 0 := by
  simp only [obstacle, ite_eq_right_iff, reduceCtorEq, imp_false, ne_eq]

theorem obstacle_call_eq_none_iff {m : Machine} {target : Address} :
    (call target).obstacle m = none ↔ m.depth ≠ stackSize := by
  simp only [obstacle, ite_eq_right_iff, reduceCtorEq, imp_false, ne_eq]

/-! ## Success -/

theorem run_ret {m : Machine} (h0 : 0 < m.depth) (h : m.depth ≤ stackSize) :
    ∃ i : Fin stackSize, (i.val : Int) = m.depth - 1 ∧
      ret.run m = ⟨{ m with depth := m.depth - 1, pc := (m.stack.get i).toNat }, none⟩ := by
  obtain ⟨i, hi, hp⟩ := Machine.pop_of_held h0 h
  refine ⟨i, hi, ?_⟩
  simp only [run, hp]
  rfl

theorem run_call {m : Machine} (target : Address) (h0 : 0 ≤ m.depth) (h : m.depth < stackSize)
    (hpc : 0 ≤ m.pc ∧ m.pc < 65536) :
    ∃ i : Fin stackSize, (i.val : Int) = m.depth ∧
      (call target).run m = ⟨{ m with
        stack := m.stack.set i.val (UInt16.ofNat m.pc.toNat) i.isLt
        depth := m.depth + 1
        pc := target.val }, none⟩ := by
  obtain ⟨i, hi, hp⟩ := Machine.push_of_room h0 h hpc
  refine ⟨i, hi, ?_⟩
  simp only [run, hp]
  rfl

theorem run_draw_of_ok {m : Machine} {x y : Register} {rows : Fin 16} {display : Screen}
    {flag : Bool} (hd : m.display.draw m.memory rows.val m.index (m.value x) (m.value y) =
      .ok (display, flag)) :
    (draw x y rows).run m = ⟨({ m with display } : Machine).setFlag flag, none⟩ := by
  simp only [run, hd]
  rfl

/-- A sprite without an obstacle can be drawn. -/
theorem draw_of_clear {m : Machine} (h : m.InRange) {x y : Register} {rows : Fin 16}
    (ho : (draw x y rows).obstacle m = none) :
    ∃ display flag, m.display.draw m.memory rows.val m.index (m.value x) (m.value y) =
      .ok (display, flag) := by
  by_cases hr : rows.val = 0
  · rw [hr]
    exact ⟨m.display, false, m.display.draw_no_rows m.memory m.index (m.value x) (m.value y)⟩
  · have hfits : m.index + rows.val ≤ memorySize := by
      rw [obstacle, if_neg hr] at ho
      exact overrun_eq_none_iff.1 ho
    exact ⟨_, _, m.display.draw_of_fits m.memory (by decide) (by decide) (by omega) h.index.1
      hfits (Byte.fits_of_isValue (h.registers x)) (Byte.fits_of_isValue (h.registers y))⟩

/-- The three decimal digits of a register go to memory. -/
theorem run_decimal {m : Machine} (h : m.InRange) (x : Register)
    (ho : (decimal x).obstacle m = none) :
    (decimal x).run m = ⟨{ m with
      memory := m.memory.poke m.index.toNat
        ((decimalDigits (m.value x)).map fun z => UInt8.ofNat z.toNat) }, none⟩ := by
  have hw := m.memory.writeBlock_of_fits (decimalDigits (m.value x)) h.index.1
    (overrun_eq_none_iff.1 ho) fun z => isValue_decimalDigits (h.registers x)
  simp only [run, hw]
  rfl

/-- Registers that hold bytes go to memory, and the index passes them. -/
theorem run_store_of_fits {m : Machine} {last : Register} (h0 : 0 ≤ m.index)
    (h : m.index + (last.val + 1) ≤ memorySize) (hv : ∀ x ≤ last, Byte.IsValue (m.value x)) :
    (store last).run m = ⟨{ m with
      memory := m.memory.poke m.index.toNat
        ((m.firstRegisters (last.val + 1)).map fun z => UInt8.ofNat z.toNat)
      index := m.index + (last.val + 1) }, none⟩ := by
  have hl : (m.firstRegisters (last.val + 1)).length = last.val + 1 := m.length_firstRegisters last
  have hw := m.memory.writeBlock_of_fits (m.firstRegisters (last.val + 1)) h0
    (by rw [hl]; exact h) ?_
  · simp only [run, hw]
    rfl
  · intro z hz
    obtain ⟨x, hx, rfl⟩ := m.exists_of_mem_firstRegisters hz
    exact hv x (Nat.le_of_lt_succ hx)

theorem run_store {m : Machine} (h : m.InRange) (last : Register)
    (ho : (store last).obstacle m = none) :
    (store last).run m = ⟨{ m with
      memory := m.memory.poke m.index.toNat
        ((m.firstRegisters (last.val + 1)).map fun z => UInt8.ofNat z.toNat)
      index := m.index + (last.val + 1) }, none⟩ :=
  run_store_of_fits h.index.1 (overrun_eq_none_iff.1 ho) fun x _ => h.registers x

/-- Registers come from memory, and the index passes them. -/
theorem run_restore_of_fits {m : Machine} {last : Register} (h0 : 0 ≤ m.index)
    (h : m.index + (last.val + 1) ≤ memorySize) :
    (restore last).run m = ⟨{ m.setFirstRegisters
        (m.memory.slice m.index.toNat (m.index + (last.val + 1)).toNat) with
      index := m.index + (last.val + 1) }, none⟩ := by
  have hr := m.memory.readBlock_of_fits h0 (by omega) h
  simp only [run, hr]
  rfl

theorem run_restore {m : Machine} (h : m.InRange) (last : Register)
    (ho : (restore last).obstacle m = none) :
    (restore last).run m = ⟨{ m.setFirstRegisters
        (m.memory.slice m.index.toNat (m.index + (last.val + 1)).toNat) with
      index := m.index + (last.val + 1) }, none⟩ :=
  run_restore_of_fits h.index.1 (overrun_eq_none_iff.1 ho)

/-! ## Failure and success -/

/-- An instruction with an obstacle changes nothing and ends with the fault. -/
theorem run_of_obstacle {m : Machine} (h : m.InRange) {i : Instruction} {f : Fault}
    (ho : i.obstacle m = some f) : i.run m = ⟨m, some (.fault f)⟩ := by
  -- in each of the six the check stands before the first change
  cases i with
  | ret =>
      obtain ⟨hd, rfl⟩ := obstacle_ret_eq_some_iff.1 ho
      simp only [run, Machine.pop_of_empty hd]
  | call target =>
      obtain ⟨hd, rfl⟩ := obstacle_call_eq_some_iff.1 ho
      simp only [run, Machine.push_of_full hd]
      rfl
  | draw x y rows =>
      obtain ⟨hr, hover, rfl⟩ := obstacle_draw_eq_some_iff.1 ho
      have hd := m.display.draw_of_overrun m.memory (m.value x) (m.value y) (by omega) hover
      simp only [run, hd]
      rfl
  | decimal x =>
      obtain ⟨hover, rfl⟩ := overrun_eq_some_iff.1 ho
      have hw := m.memory.writeBlock_of_overrun (decimalDigits (m.value x)) h.index.1 hover
      simp only [run, hw]
      rfl
  | store last =>
      obtain ⟨hover, rfl⟩ := overrun_eq_some_iff.1 ho
      -- the fault names the last address of the block, hence its length is needed
      have hl : ((m.firstRegisters (last.val + 1)).length : Int) = last.val + 1 := by
        rw [m.length_firstRegisters last]
        rfl
      have hw := m.memory.writeBlock_of_overrun (m.firstRegisters (last.val + 1)) h.index.1
        (by rw [hl]; exact hover)
      simp only [run, hw, hl]
      rfl
  | restore last =>
      obtain ⟨hover, rfl⟩ := overrun_eq_some_iff.1 ho
      have hr := m.memory.readBlock_of_overrun h.index.1 hover
      simp only [run, hr]
      rfl
  | _ => simp only [obstacle, reduceCtorEq] at ho

/-- An instruction without an obstacle comes to its end. -/
theorem failure_run_of_clear {m : Machine} (h : m.InRange) {i : Instruction}
    (ho : i.obstacle m = none) : (i.run m).failure = none := by
  cases i with
  | ret =>
      have hd := obstacle_ret_eq_none_iff.1 ho
      obtain ⟨i, -, hr⟩ := run_ret (m := m) (by have := h.depth; omega) h.depth.2
      rw [hr]
  | call target =>
      have hd := obstacle_call_eq_none_iff.1 ho
      have hdepth := h.depth
      have hpc := h.pc
      obtain ⟨i, -, hr⟩ := run_call (m := m) target hdepth.1 (by omega) (by omega)
      rw [hr]
  | draw x y rows =>
      obtain ⟨display, flag, hd⟩ := draw_of_clear h ho
      rw [run_draw_of_ok hd]
  | decimal x => rw [run_decimal h x ho]
  | store last => rw [run_store h last ho]
  | restore last => rw [run_restore h last ho]
  | alu operation x y =>
      rw [run]
      split <;> rfl
  | _ => rfl

/-! ## Range -/

/-- A condition skips one instruction at most. -/
theorem inRange_skipIf {m : Machine} (h : m.InRange) (hpc : m.pc ≤ memorySize)
    (condition : Bool) : (m.skipIf condition).InRange := by
  cases condition with
  | false => exact h
  | true =>
      have h0 := h.pc.1
      have hsize : memorySize = 4096 := rfl
      exact h.setPc ⟨by omega, by omega⟩

/-- An instruction keeps a machine that has passed it in range. A call needs to know where the
machine is, because the stack takes over the program counter. -/
theorem inRange_run {m : Machine} (h : m.InRange) (hpc : 2 ≤ m.pc ∧ m.pc ≤ memorySize)
    (i : Instruction) : (i.run m).machine.InRange := by
  have hsize : memorySize = 4096 := rfl
  cases ho : i.obstacle m with
  | some f =>
      rw [run_of_obstacle h ho]
      exact h
  | none =>
      -- an instruction that runs sets registers to bytes and counters to small numbers
      cases i with
      | sys target => exact h
      | clear => exact h.setDisplay _
      | ret =>
          have hdepth := h.depth
          have hd := obstacle_ret_eq_none_iff.1 ho
          obtain ⟨i, hi, hr⟩ := run_ret (m := m) (by omega) h.depth.2
          rw [hr]
          exact h.popped hi
      | jump target =>
          have ht := target.isLt
          exact h.setPc ⟨by omega, by omega⟩
      | call target =>
          have hdepth := h.depth
          have hd := obstacle_call_eq_none_iff.1 ho
          obtain ⟨i, hi, hr⟩ := run_call (m := m) target hdepth.1 (by omega) (by omega)
          rw [hr]
          exact h.pushed hpc hi target
      | skipIfEqual x k => exact inRange_skipIf h hpc.2 _
      | skipUnlessEqual x k => exact inRange_skipIf h hpc.2 _
      | skipIfSame x y => exact inRange_skipIf h hpc.2 _
      | skipUnlessSame x y => exact inRange_skipIf h hpc.2 _
      | load x k => exact h.setV x (Byte.isValue_toNat k)
      | addConstant x k => exact h.setV x (Byte.isValue_lowByte _)
      | alu operation x y =>
          have hresult := operation.isValue_apply (h.registers x) (h.registers y)
          rw [run]
          split
          next result happly =>
            rw [happly] at hresult
            exact h.setV x hresult
          next result flag happly =>
            rw [happly] at hresult
            exact (h.setFlag flag).setV x hresult
      | shiftRight x =>
          obtain ⟨h0, h1⟩ := h.registers x
          exact (h.setFlag _).setV x ⟨by omega, by omega⟩
      | shiftLeft x => exact (h.setFlag _).setV x (Byte.isValue_lowByte _)
      | setIndex target =>
          have ht := target.isLt
          exact h.setIndex ⟨by omega, by omega⟩
      -- the largest address and the largest byte give the bound of the program counter
      | jumpOffset target =>
          have ht := target.isLt
          obtain ⟨h0, h1⟩ := h.registers ⟨0, by decide⟩
          exact h.setPc ⟨by omega, by omega⟩
      | random x mask =>
          exact { h.setV x (Byte.isValue_toNat (m.random.next &&& mask)) with }
      | draw x y rows =>
          obtain ⟨display, flag, hd⟩ := draw_of_clear h ho
          rw [run_draw_of_ok hd]
          exact (h.setDisplay display).setFlag flag
      | skipIfHeld x => exact inRange_skipIf h hpc.2 _
      | skipUnlessHeld x => exact inRange_skipIf h hpc.2 _
      | readDelay x => exact h.setV x h.delay
      | awaitKey x => exact h.setKeypad _ _
      | setDelay x => exact { h with delay := h.registers x }
      | setSound x => exact { h with sound := h.registers x }
      -- the index wraps here, and nowhere else
      | advanceIndex x =>
          refine (h.setFlag _).setIndex ⟨?_, ?_⟩
          · exact Int.emod_nonneg _ (by omega)
          · have hlt := Int.emod_lt_of_pos (m.index + m.value x) (b := 65536) (by omega)
            omega
      | glyph x =>
          have hv : m.value x % 16 * (glyphSize : Int) = m.value x % 16 * 5 := rfl
          exact h.setIndex ⟨by omega, by omega⟩
      | decimal x =>
          rw [run_decimal h x ho]
          exact h.setMemory _
      | store last =>
          have hfits := overrun_eq_none_iff.1 ho
          have hindex := h.index
          rw [run_store h last ho]
          exact (h.setMemory _).setIndex ⟨by omega, by omega⟩
      | restore last =>
          have hfits := overrun_eq_none_iff.1 ho
          have hindex := h.index
          rw [run_restore h last ho]
          exact (h.setFirstRegisters _).setIndex ⟨by omega, by omega⟩

end Instruction

end Chip8
