import Chip8.Proofs.Machine.Patch

/-!
# Random bytes

The source of random bytes is touched by one instruction only, and this instruction cannot fail. So
a step that completes no instruction has drawn nothing (`Machine.random_step_of_not_completed`).
This holds of every machine, whatever has been put into its registers from outside.
-/

set_option autoImplicit false

namespace Chip8

open Machine

/-- An instruction that fails has drawn nothing. -/
theorem Instruction.random_run_of_failure {i : Instruction} {m : Machine}
    (h : (i.run m).failure ≠ none) : (i.run m).machine.random = m.random := by
  rw [run_eq_patch]
  cases i with
  | random x mask => exact absurd rfl h
  | _ => rfl

namespace Machine

theorem random_execute_of_not_completed {m : Machine} {w : Word} {i : Instruction}
    (h : (m.execute w i).result ≠ .ok (some w)) : (m.execute w i).machine.random = m.random := by
  have hrun : (i.run m).failure ≠ none → (i.run m).machine.random = m.random :=
    Instruction.random_run_of_failure
  unfold execute at h ⊢
  generalize i.run m = effect at hrun h ⊢
  rcases effect with ⟨left, _ | reason⟩
  · exact absurd rfl h
  · exact hrun nofun

variable [Tracing]

theorem random_cycle_of_not_completed {m : Machine} (h : ∀ w, m.cycle.result ≠ .ok (some w)) :
    m.cycle.machine.random = m.random := by
  unfold cycle at h ⊢
  cases hf : m.fetch with
  | error reason => rfl
  | ok found =>
      obtain ⟨fetched, w⟩ := found
      have hrandom : fetched.random = m.random := by rw [eq_of_fetch hf]
      rw [hf] at h
      dsimp only at h ⊢
      cases hi : Instruction.decode? w with
      | none =>
          rw [hi] at h
          exact absurd rfl (h w)
      | some i =>
          rw [hi] at h
          exact (random_execute_of_not_completed (h w)).trans hrandom

/-- A step that completes no instruction has drawn nothing. -/
theorem random_step_of_not_completed {m : Machine} (h : ∀ w, m.step.result ≠ .ok (some w)) :
    m.step.machine.random = m.random := by
  unfold step at h ⊢
  cases hx : m.awaiting with
  | none =>
      rw [hx] at h
      exact random_cycle_of_not_completed h
  | some x =>
      rw [hx] at h
      dsimp only at h ⊢
      generalize m.keypad.poll = polled at h ⊢
      rcases polled with ⟨keypad, _ | k⟩
      · rfl
      · -- the delivery of the key touches a register and the keypad only
        exact random_cycle_of_not_completed h

end Machine

end Chip8
