import Chip8.Proofs.Instruction.Decode
import Chip8.Proofs.Keypad.History
import Chip8.Proofs.Machine.History
import Mathlib.Data.List.Induction

/-!
# Waiting for a key

An instruction that waits for a key empties the queue of presses. From then on steps, ticks of the
timers and key events may come in any order. `Machine.after_of_waiting` says what they leave: the
timers run, the queue holds the keys that went down since, and all else stands still as long as no
step finds a press. `Machine.step_during_wait` says what the next step does: nothing, or it takes
the first of these keys to the waiting register and goes through one cycle.
-/

set_option autoImplicit false

namespace Chip8

/-- The operations that can come while a program waits for a key. -/
def Operation.duringWait : Operation → Bool
  | step | tick => true
  | o => o.isKeyEvent

namespace Machine

theorem answered?_of_waiting {m : Machine} {x : Register} (hx : m.awaiting = some x)
    (hp : m.keypad.presses = []) : m.answered? = none := by
  simp only [answered?, hx, hp]

theorem answered?_of_pressed {m : Machine} {x : Register} {k : Key} {rest : List Key}
    (hx : m.awaiting = some x) (hp : m.keypad.presses = k :: rest) :
    m.answered? = some { m.setV x k.val with
      keypad := { m.keypad with presses := rest }, awaiting := none } := by
  simp only [answered?, hx, hp]

section Waiting

variable [Tracing]

/-- A step that has executed an instruction went through the cycle of that instruction. -/
theorem cycle_of_step {m : Machine} {w : Word} (hs : m.step.result = .ok (some w)) :
    ∃ d, m.answered? = some d ∧ d.cycle.result = .ok (some w) ∧
      m.step.machine = d.cycle.machine := by
  cases hd : m.answered? with
  | none =>
      rw [step_of_unanswered hd] at hs
      cases hs
  | some d =>
      rw [step_of_answered hd] at hs ⊢
      exact ⟨d, rfl, hs, rfl⟩

/-- A step that has executed a word leaves what the instruction of that word makes of the machine
whose wait is over. -/
theorem run_of_step {m : Machine} (h : m.InRange) {w : Word} {i : Instruction}
    (hs : m.step.result = .ok (some w)) (hw : Instruction.Spells w i) :
    ∃ d, m.answered? = some d ∧ m.step.machine = (i.run d.passed).machine := by
  obtain ⟨d, hd, hresult, hmachine⟩ := cycle_of_step hs
  refine ⟨d, hd, ?_⟩
  have hc := cycle_mem (h.answered hd)
  rw [hmachine]
  generalize d.cycle = s at hc hresult ⊢
  cases hc with
  | noWord hpc => cases hresult
  | unknown hpc hnone =>
      cases hresult
      rw [Instruction.decode?_of_spells hw] at hnone
      cases hnone
  | obstructed hpc hi ho => cases hresult
  | completed hpc hi ho =>
      cases hresult
      rw [Instruction.decode?_of_spells hw] at hi
      cases hi
      rfl

/-- After an instruction that waits for a key the machine waits, and its queue is empty. -/
theorem waiting_of_step {m : Machine} (h : m.InRange) {w : Word} {x : Register}
    (hs : m.step.result = .ok (some w)) (hw : Instruction.Spells w (.awaitKey x)) :
    m.step.machine.awaiting = some x ∧ m.step.machine.keypad.presses = [] := by
  obtain ⟨d, -, hmachine⟩ := run_of_step h hs hw
  rw [hmachine]
  exact ⟨rfl, rfl⟩

/-! ## The time of a wait -/

omit [Tracing] in
theorem machine_onKey (m : Machine) (z : Int) (act : Keypad → Key → Keypad)
    (note : Key → Entry) :
    (m.onKey z act note).machine = { m with keypad := (m.onKey z act note).machine.keypad } := by
  unfold onKey
  cases Key.ofInt? z with
  | none => rfl
  | some k => rfl

/-- Key events change the keypad only. -/
theorem perform_keyEvent (m : Machine) {o : Operation} (ho : o.isKeyEvent = true) :
    (m.perform o).machine = { m with keypad := (m.perform o).machine.keypad } := by
  cases o with
  | press z => exact machine_onKey m z _ _
  | release z => exact machine_onKey m z _ _
  | releaseAll => rfl
  | _ => simp only [Operation.isKeyEvent, Bool.false_eq_true] at ho

/-- The machine after a number of ticks of its timers, with another keypad. -/
def ticked (start : Machine) (count : Nat) (keypad : Keypad) : Machine :=
  { start with
    delay := max 0 (start.delay - count)
    sound := max 0 (start.sound - count)
    keypad }

omit [Tracing] in
theorem ticked_zero {start : Machine} (hdelay : 0 ≤ start.delay) (hsound : 0 ≤ start.sound) :
    start.ticked 0 start.keypad = start := by
  have hzero : ∀ z : Int, 0 ≤ z → max 0 (z - (0 : Nat)) = z := by
    intro z hz
    omega
  rw [ticked, hzero _ hdelay, hzero _ hsound]

omit [Tracing] in
theorem tick_ticked (start : Machine) (count : Nat) (keypad : Keypad) :
    (start.ticked count keypad).tick = start.ticked (count + 1) keypad := by
  have hdown : ∀ z : Int, countDown (max 0 (z - count)) = max 0 (z - (count + 1 : Nat)) := by
    intro z
    unfold countDown
    omega
  rw [tick, ticked, ticked, hdown, hdown]

/-- What a wait leaves, if no step of it has found a press. -/
structure Waited (start : Machine) (ops : List Operation) (now : Machine) : Prop where
  machine : now = start.ticked (ops.count .tick) now.keypad
  down : now.keypad.down = keysAfter start.keypad.down ops
  presses : now.keypad.presses = lowered start.keypad.down ops

namespace Waited

variable {start now : Machine} {ops : List Operation}

omit [Tracing] in
theorem awaiting (h : start.Waited ops now) : now.awaiting = start.awaiting := by
  rw [h.machine]
  rfl

omit [Tracing] in
theorem pc (h : start.Waited ops now) : now.pc = start.pc := by
  rw [h.machine]
  rfl

/-- A step that finds no press is not noticed. -/
theorem step (h : start.Waited ops now) {x : Register} (hx : start.awaiting = some x)
    (hnone : lowered start.keypad.down ops = []) :
    start.Waited (ops ++ [Operation.step]) (now.perform .step).machine := by
  have hd := answered?_of_waiting (h.awaiting.trans hx) (h.presses.trans hnone)
  have hstep : (now.perform .step).machine = now := by
    show now.step.machine = now
    rw [step_of_unanswered hd]
  have hcount : (ops ++ [Operation.step]).count .tick = ops.count .tick := by
    rw [List.count_append]
    rfl
  rw [hstep]
  refine ⟨?_, ?_, ?_⟩
  · rw [hcount]
    exact h.machine
  · rw [keysAfter_concat]
    exact h.down
  · rw [lowered_concat]
    exact h.presses.trans (List.append_nil _).symm

theorem tick (h : start.Waited ops now) :
    start.Waited (ops ++ [Operation.tick]) (now.perform .tick).machine := by
  have hcount : (ops ++ [Operation.tick]).count .tick = ops.count .tick + 1 := by
    rw [List.count_append]
    rfl
  refine ⟨?_, ?_, ?_⟩
  · rw [hcount, ← tick_ticked]
    exact congrArg Machine.tick h.machine
  · rw [keysAfter_concat]
    exact h.down
  · rw [lowered_concat]
    exact h.presses.trans (List.append_nil _).symm

/-- Key events go to the keypad, and to nothing else. -/
theorem keyEvent (h : start.Waited ops now) {o : Operation} (ho : o.isKeyEvent = true) :
    start.Waited (ops ++ [o]) (now.perform o).machine := by
  obtain ⟨hdown, hpresses⟩ := now.keypad_perform ho
  have hcount : (ops ++ [o]).count .tick = ops.count .tick := by
    have hne : o ≠ .tick := by
      rintro rfl
      cases ho
    rw [List.count_append, List.count_singleton, if_neg (by simpa using hne), Nat.add_zero]
  refine ⟨?_, ?_, ?_⟩
  · rw [hcount, perform_keyEvent now ho]
    exact congrArg (fun m => { m with keypad := (now.perform o).machine.keypad }) h.machine
  · rw [keysAfter_concat, ← h.down]
    exact hdown
  · rw [lowered_concat, ← h.down, ← h.presses]
    exact hpresses

end Waited

/-- A machine that has begun to wait goes on waiting until a step finds a press. -/
theorem after_of_waiting {start : Machine} {x : Register} (hx : start.awaiting = some x)
    (hp : start.keypad.presses = []) (hdelay : 0 ≤ start.delay) (hsound : 0 ≤ start.sound)
    {ops : List Operation} (ho : ∀ o ∈ ops, o.duringWait = true)
    (hwait : ∀ before later, ops = before ++ .step :: later →
      lowered start.keypad.down before = []) :
    start.Waited ops (start.after ops) := by
  -- the induction is on the last operation: what comes before it is itself such a wait
  induction ops using List.reverseRecOn with
  | nil => exact ⟨(ticked_zero hdelay hsound).symm, rfl, hp⟩
  | append_singleton ops o ih =>
      have hbefore := ih (fun p hmem => ho p (List.mem_append_left [o] hmem)) fun before later h =>
        hwait before (later ++ [o]) (by rw [h, List.append_assoc, List.cons_append])
      have hlast := ho o (List.mem_append_right ops (List.mem_singleton_self o))
      rw [after_concat]
      cases o with
      | step => exact hbefore.step hx (hwait ops [] rfl)
      | tick => exact hbefore.tick
      | _ => exact hbefore.keyEvent hlast

/-! ## The end of a wait -/

omit [Tracing] in
theorem isOrdinary_of_duringWait {o : Operation} (ho : o.duringWait = true) :
    o.isOrdinary = true := by
  cases o with
  | step | tick | press _ | release _ | releaseAll => rfl
  | _ => cases ho

/-- A program waits for a key, and steps, ticks and key events follow in any order; none of the
steps comes after a key has gone down. Then the timers have run, the queue holds the keys that went
down since the wait began or since all keys were let go, and nothing else has changed. The next
step does nothing if there is no such key. If there is one, the first of them goes to the register
and leaves the queue, whatever became of it later, and the step goes through one cycle at the
program counter of the wait. A key that has been down all the time is none of them. -/
theorem step_during_wait {m : Machine} (h : m.Reachable) {w : Word} {x : Register}
    (hs : m.step.result = .ok (some w)) (hw : Instruction.Spells w (.awaitKey x))
    {ops : List Operation} (ho : ∀ o ∈ ops, o.duringWait = true)
    (hwait : ∀ before later, ops = before ++ .step :: later →
      lowered m.step.machine.keypad.down before = []) :
    let start := m.step.machine
    let now := start.after ops
    let pressed := lowered start.keypad.down ops
    now = start.ticked (ops.count .tick) now.keypad ∧
      now.keypad.down = keysAfter start.keypad.down ops ∧
      now.keypad.presses = pressed ∧
      (pressed = [] → now.step = ⟨now, [], .ok none⟩) ∧
      (∀ k rest, pressed = k :: rest →
        let delivered := { now.setV x k.val with
          keypad := { now.keypad with presses := rest }, awaiting := none }
        delivered.pc = start.pc ∧ delivered.Cycle delivered.cycle ∧
          now.step = ⟨delivered.cycle.machine, .keyDelivered k x :: delivered.cycle.entries,
            delivered.cycle.result⟩) ∧
      ∀ k, start.keypad.down k = true → (∀ o ∈ ops, o ≠ .release k.val ∧ o ≠ .releaseAll) →
        k ∉ pressed := by
  intro start now pressed
  have hstart : start.Reachable := h.perform (o := .step) rfl
  obtain ⟨hx, hp⟩ := waiting_of_step h.inRange hs hw
  have hwaited : start.Waited ops now :=
    after_of_waiting hx hp hstart.inRange.delay.1 hstart.inRange.sound.1 ho hwait
  have hnow : now.InRange :=
    (hstart.after fun o hmem => isOrdinary_of_duringWait (ho o hmem)).inRange
  have hnowx : now.awaiting = some x := hwaited.awaiting.trans hx
  refine ⟨hwaited.machine, hwaited.down, hwaited.presses, ?_, ?_, ?_⟩
  · intro hnone
    exact step_of_unanswered (answered?_of_waiting hnowx (hwaited.presses.trans hnone))
  · intro k rest hcons delivered
    have hpresses : now.keypad.presses = k :: rest := hwaited.presses.trans hcons
    have hd : now.answered? = some delivered := answered?_of_pressed hnowx hpresses
    refine ⟨hwaited.pc, cycle_mem (hnow.answered hd), ?_⟩
    rw [step_of_answered hd, deliveries, hnowx, hpresses]
    rfl
  · intro k hdown hkept
    exact not_mem_lowered hdown hkept

end Waiting

open Tracing.Off in
/-- Key `3` is held and its press is old when the wait begins. During the wait it repeats, and keys
`5` and `6` go down, of which `5` does not stay: the next step takes `5`. -/
theorem step_during_wait_quick_press :
    let m := (fresh .idle ⟨fun _ => 0, 0⟩).after [.init [0xF1, 0x0A, 0x12, 0x00], .press 3]
    let ops := [.step, .tick, .press 3, .press 5, .release 5, .press 6]
    let now := m.step.machine.after ops
    let delivered := { now.setV 1 5 with
      keypad := { now.keypad with presses := [6] }, awaiting := none }
    m.Reachable ∧ m.step.result = .ok (some 0xF10A) ∧
      lowered m.step.machine.keypad.down ops = [5, 6] ∧ now.keypad.presses = [5, 6] ∧
      now.step = ⟨delivered.cycle.machine, .keyDelivered 5 1 :: delivered.cycle.entries,
        delivered.cycle.result⟩ := by
  intro m ops now delivered
  have h : m.Reachable := (Reachable.fresh _ _).after (by decide)
  have hs : m.step.result = .ok (some 0xF10A) := by decide +kernel
  have hpressed : lowered m.step.machine.keypad.down ops = [5, 6] := by decide +kernel
  -- the only step of the wait comes first
  have hfirst : ∀ before later, ops = before ++ .step :: later →
      lowered m.step.machine.keypad.down before = [] := by
    intro before later hops
    cases before with
    | nil => rfl
    | cons o rest =>
        have htail : [.tick, .press 3, .press 5, .release 5, .press 6] = rest ++ .step :: later :=
          (List.cons.inj hops).2
        have hmem : Operation.step ∈ rest ++ .step :: later :=
          List.mem_append_right rest List.mem_cons_self
        rw [← htail] at hmem
        exact absurd hmem (by decide)
  obtain ⟨-, -, hpresses, -, hdelivered, -⟩ :=
    step_during_wait h hs (x := 1) ⟨by decide, by decide, by decide⟩ (by decide) hfirst
  obtain ⟨-, -, hstep⟩ := hdelivered 5 [6] hpressed
  exact ⟨h, hs, hpressed, hpresses.trans hpressed, hstep⟩

end Machine

end Chip8
