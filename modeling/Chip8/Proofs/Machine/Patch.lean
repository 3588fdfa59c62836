import Chip8.Machine.Step

/-!
# What an instruction can change

An instruction changes a few components of a machine and leaves the others alone.
`Instruction.patch` names the components: it takes them from one machine and all others from
another. Whatever an instruction leaves is the machine that it began with, patched in this way
(`Instruction.run_eq_patch`). This holds of every machine, and also of an instruction that fails;
so that a component stays as it was is read off the patch, without the instruction's rules.
-/

set_option autoImplicit false

namespace Chip8

/-- The machine `m` with the components that an instruction can change taken from `n`. -/
def Instruction.patch (m n : Machine) : Instruction → Machine
  | clear => { m with display := n.display }
  | ret => { m with pc := n.pc, depth := n.depth }
  | call _ => { m with pc := n.pc, stack := n.stack, depth := n.depth }
  | setIndex _ | glyph _ => { m with index := n.index }
  | random _ _ => { m with v := n.v, random := n.random }
  | draw _ _ _ => { m with v := n.v, display := n.display }
  | awaitKey _ => { m with keypad := n.keypad, awaiting := n.awaiting }
  | setDelay _ => { m with delay := n.delay }
  | setSound _ => { m with sound := n.sound }
  | advanceIndex _ | restore _ => { m with v := n.v, index := n.index }
  | decimal _ => { m with memory := n.memory }
  | store _ => { m with memory := n.memory, index := n.index }
  | load _ _ | addConstant _ _ | alu _ _ _ | shiftRight _ | shiftLeft _ | readDelay _ =>
    { m with v := n.v }
  | sys _ | jump _ | jumpOffset _ | skipIfEqual _ _ | skipUnlessEqual _ _ | skipIfSame _ _
  | skipUnlessSame _ _ | skipIfHeld _ | skipUnlessHeld _ => { m with pc := n.pc }

namespace Machine

theorem skipIf_eq (m : Machine) (condition : Bool) :
    m.skipIf condition = { m with pc := (m.skipIf condition).pc } := by
  cases condition with
  | false => rfl
  | true => rfl

/-- A word is fetched by moving the program counter. -/
theorem eq_of_fetch {m fetched : Machine} {w : Word} (h : m.fetch = .ok (fetched, w)) :
    fetched = { m with pc := m.pc + 2 } := by
  unfold fetch at h
  by_cases hpc : m.pc < 0 ∨ (memorySize : Int) - 1 < m.pc + 1
  · rw [if_pos hpc] at h
    cases h
  · rw [if_neg hpc] at h
    cases h
    rfl

/-- A return address is taken off by counting the depth down. -/
theorem pop_eq (m : Machine) : ∃ depth, m.pop.1 = { m with depth } := by
  by_cases hd : m.depth = 0
  · exact ⟨m.depth, by rw [pop, if_pos hd]⟩
  · exact ⟨m.depth - 1, by rw [pop, if_neg hd]⟩

/-- A return address goes to the stack, and is counted. -/
theorem eq_of_push {m pushed : Machine} {address : Int} (h : m.push address = .ok pushed) :
    ∃ stack depth, pushed = { m with stack, depth } := by
  -- a full stack, a depth without a slot and an address that is no word are refused
  by_cases hfull : (stackSize : Int) ≤ m.depth
  · rw [push, if_pos hfull] at h
    cases h
  rw [push, if_neg hfull] at h
  cases hs : slot m.depth with
  | error reason =>
      rw [hs] at h
      cases h
  | ok i =>
      rw [hs] at h
      by_cases ha : 0 ≤ address ∧ address < 65536
      · cases (if_pos ha).symm.trans h
        exact ⟨_, _, rfl⟩
      · cases (if_neg ha).symm.trans h

end Machine

namespace Instruction

open Machine

/-- A machine patched with itself is the same machine. -/
theorem patch_self (i : Instruction) (m : Machine) : i.patch m m = m := by
  cases i <;> rfl

/-- An instruction that asks for something, and changes nothing if it is refused it. -/
theorem attempt_eq_patch {β : Type} (i : Instruction) {m : Machine} {asked : Except Failure β}
    {use : β → Machine} (h : ∀ found, asked = .ok found → use found = i.patch m (use found)) :
    (m.attempt (asked >>= fun found => pure (use found))).machine =
      i.patch m (m.attempt (asked >>= fun found => pure (use found))).machine := by
  cases asked with
  | error reason => exact (i.patch_self m).symm
  | ok found => exact h found rfl

/-- Whatever an instruction leaves, it has changed nothing but its own components. -/
theorem run_eq_patch (i : Instruction) (m : Machine) :
    (i.run m).machine = i.patch m (i.run m).machine := by
  cases i with
  | ret =>
      obtain ⟨depth, hpop⟩ := m.pop_eq
      simp only [run]
      generalize m.pop = popped at hpop ⊢
      obtain ⟨left, found⟩ := popped
      obtain rfl : left = { m with depth } := hpop
      cases found with
      | error reason => rfl
      | ok address => rfl
  | call target =>
      refine attempt_eq_patch (call target) fun pushed hp => ?_
      obtain ⟨stack, depth, rfl⟩ := eq_of_push hp
      rfl
  -- these four ask for a block of memory, or for a sprite
  | draw x y rows => exact attempt_eq_patch (draw x y rows) fun _ _ => rfl
  | decimal x => exact attempt_eq_patch (decimal x) fun _ _ => rfl
  | store last => exact attempt_eq_patch (store last) fun _ _ => rfl
  | restore last => exact attempt_eq_patch (restore last) fun _ _ => rfl
  | alu operation x y =>
      simp only [run]
      cases operation.apply (m.value x) (m.value y) with
      | mk result flag => cases flag <;> rfl
  | skipIfEqual x k | skipUnlessEqual x k | skipIfSame x y | skipUnlessSame x y | skipIfHeld x
  | skipUnlessHeld x => exact skipIf_eq m _
  | _ => rfl

end Instruction

end Chip8
