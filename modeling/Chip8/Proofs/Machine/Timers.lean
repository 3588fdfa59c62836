import Chip8.Proofs.Machine.KeyWait
import Chip8.Proofs.Machine.Patch

/-!
# The timers of a machine

A program loads a timer from a register, and ticks count it down to zero. Nothing else touches it
but a reset: no other instruction, no instruction that fails, no poll for a key, no key event and
no program that is loaded. So a history tells what a timer shows: the value of its last load less
the ticks since then, and no less than zero (`Timer.readings_after_fresh`). `Timer` stands for
either of the two timers, so that everything is said of both at once.
-/

set_option autoImplicit false

namespace Chip8

/-- The two timers of a machine. -/
inductive Timer where
  | delay
  | sound
  deriving DecidableEq, Repr

namespace Timer

/-- What a timer shows. -/
def reading : Timer → Machine → Int
  | delay, m => m.delay
  | sound, m => m.sound

/-- The instruction that loads a timer from a register. -/
def load : Timer → Register → Instruction
  | delay => .setDelay
  | sound => .setSound

/-- The register that an instruction loads a timer from, if it is the timer's load. -/
def source? : Timer → Instruction → Option Register
  | delay, .setDelay x => some x
  | sound, .setSound x => some x
  | _, _ => none

@[simp] theorem source?_eq_some_iff {t : Timer} {i : Instruction} {x : Register} :
    t.source? i = some x ↔ i = t.load x := by
  cases t <;> cases i <;> simp [source?, load]

/-! ## Instructions -/

/-- An instruction loads a timer or leaves it as it is. -/
theorem reading_run (t : Timer) (m : Machine) (i : Instruction) :
    t.reading (i.run m).machine = ((t.source? i).map m.value).getD (t.reading m) := by
  cases i with
  | setDelay x | setSound x => cases t <;> rfl
  | _ =>
      rw [Instruction.run_eq_patch]
      cases t <;> rfl

/-- A load leaves the registers as they are. -/
theorem value_run_load (t : Timer) (m : Machine) (x y : Register) :
    ((t.load x).run m).machine.value y = m.value y := by
  cases t <;> rfl

/-! ## Steps -/

/-- The value that a step loads into a timer, if it executed a load. The register still holds it
when the step is over. -/
def loadedBy? (t : Timer) (s : Step) : Option Int :=
  match s.result with
  | .ok (some w) => ((Instruction.decode? w).bind t.source?).map s.machine.value
  | _ => none

/-- A step loads a timer exactly if it executes a word that spells the load. -/
theorem loadedBy?_eq_some_iff {t : Timer} {s : Step} {a : Int} :
    t.loadedBy? s = some a ↔
      ∃ w x, s.result = .ok (some w) ∧ Instruction.Spells w (t.load x) ∧
        s.machine.value x = a := by
  unfold loadedBy?
  constructor
  · intro h
    split at h
    next w hw =>
      obtain ⟨x, hx, hvalue⟩ := Option.map_eq_some_iff.1 h
      obtain ⟨i, hi, hsource⟩ := Option.bind_eq_some_iff.1 hx
      rw [source?_eq_some_iff] at hsource
      subst hsource
      exact ⟨w, x, hw, Instruction.spells_of_decode? hi, hvalue⟩
    next => cases h
  · rintro ⟨w, x, hw, hspells, rfl⟩
    have hsource : t.source? (t.load x) = some x := source?_eq_some_iff.2 rfl
    simp [hw, Instruction.decode?_of_spells hspells, hsource]

section Readings

variable [Tracing]

/-- A cycle loads a timer or leaves it as it is, whether it comes to its end or not. -/
theorem reading_cycle (t : Timer) {m : Machine} (h : m.InRange) :
    t.reading m.cycle.machine = (t.loadedBy? m.cycle).getD (t.reading m) := by
  have hc := Machine.cycle_mem h
  have hpassed : t.reading m.passed = t.reading m := by cases t <;> rfl
  generalize m.cycle = s at hc ⊢
  cases hc with
  | noWord hpc => rfl
  | unknown hpc hw => simp [loadedBy?, hw, hpassed]
  | obstructed hpc hw ho => exact hpassed
  | @completed hpc i hw ho =>
      rw [reading_run, hpassed]
      -- the register is read before the instruction in one account and after it in the other
      cases hsource : t.source? i with
      | none => simp [loadedBy?, hw, hsource]
      | some x =>
          obtain rfl := source?_eq_some_iff.1 hsource
          simp [loadedBy?, hw, hsource, value_run_load]

omit [Tracing] in
/-- The key that ends a wait goes to a register, not to a timer. -/
theorem reading_answered (t : Timer) {m d : Machine} (h : m.answered? = some d) :
    t.reading d = t.reading m := by
  rcases Machine.answered?_eq_some h with ⟨-, rfl⟩ | ⟨x, k, rest, -, -, rfl⟩
  · rfl
  · cases t <;> rfl

/-- A step loads a timer or leaves it as it is, and a step that polls for a key does the latter. -/
theorem reading_step (t : Timer) {m : Machine} (h : m.InRange) :
    t.reading m.step.machine = (t.loadedBy? m.step).getD (t.reading m) := by
  cases hd : m.answered? with
  | none =>
      rw [Machine.step_of_unanswered hd]
      rfl
  | some d =>
      rw [Machine.step_of_answered hd, ← reading_answered t hd]
      exact reading_cycle t (h.answered hd)

/-- What a step loads is a byte. -/
theorem isValue_of_loaded {t : Timer} {m : Machine} (h : m.InRange) {a : Int}
    (ha : t.loadedBy? m.step = some a) : Byte.IsValue a := by
  obtain ⟨w, x, -, -, rfl⟩ := loadedBy?_eq_some_iff.1 ha
  exact (Machine.inRange_step h).registers x

/-! ## Histories -/

/-- What a history says of a timer: the value of its last load since the last reset, which is zero
if there was none, and the number of ticks since then. -/
structure Account where
  value : Int
  ticks : Nat
  deriving DecidableEq, Repr

/-- The account of a timer that has just been cleared. -/
def Account.cleared : Account :=
  ⟨0, 0⟩

/-- The account after one more operation on a machine. -/
def Account.next (t : Timer) (m : Machine) (a : Account) : Operation → Account
  | .reset => .cleared
  | .tick => { a with ticks := a.ticks + 1 }
  | .step =>
    match t.loadedBy? m.step with
    | some value => ⟨value, 0⟩
    | none => a
  | _ => a

/-- The account of a timer after a list of operations on a machine. -/
def account (t : Timer) (m : Machine) (a : Account) : List Operation → Account
  | [] => a
  | o :: rest => t.account (m.perform o).machine (.next t m a o) rest

/-- A timer shows what its account says. -/
def Agrees (t : Timer) (m : Machine) (a : Account) : Prop :=
  t.reading m = max 0 (a.value - a.ticks)

omit [Tracing] in
theorem reading_onKey (t : Timer) (m : Machine) (key : Int) (act : Keypad → Key → Keypad)
    (note : Key → Entry) : t.reading (m.onKey key act note).machine = t.reading m := by
  rw [Machine.machine_onKey]
  cases t <;> rfl

theorem reading_init (t : Timer) (m : Machine) (program : List Int) :
    t.reading (m.perform (.init program)).machine = t.reading m := by
  show t.reading (m.loaded program.length (m.init program)).machine = t.reading m
  rcases Machine.init_cases program with ⟨reason, hi⟩ | ⟨bytes, hi⟩
  · rw [hi]
    rfl
  · rw [hi]
    cases t <;> rfl

omit [Tracing] in
theorem reading_tick (t : Timer) (m : Machine) :
    t.reading m.tick = Machine.countDown (t.reading m) := by
  cases t <;> rfl

/-- An ordinary operation keeps a timer and its account in agreement. -/
theorem Agrees.perform {t : Timer} {m : Machine} {a : Account} (h : t.Agrees m a)
    (hm : m.InRange) {o : Operation} (ho : o.isOrdinary = true) :
    t.Agrees (m.perform o).machine (.next t m a o) := by
  unfold Agrees at h ⊢
  cases o with
  | init program => exact (reading_init t m program).trans h
  | reset => cases t <;> rfl
  | step =>
      show t.reading m.step.machine = _
      rw [reading_step t hm, Account.next]
      cases hl : t.loadedBy? m.step with
      | none => exact h
      | some value =>
          have hbyte := isValue_of_loaded hm hl
          show value = max 0 (value - (0 : Nat))
          unfold Byte.IsValue at hbyte
          omega
  | tick =>
      -- a timer that has come to zero stays there, however many ticks follow
      show t.reading m.tick = max 0 (a.value - (a.ticks + 1 : Nat))
      rw [reading_tick, h, Machine.countDown]
      omega
  | press key => exact (reading_onKey t m key _ _).trans h
  | release key => exact (reading_onKey t m key _ _).trans h
  | releaseAll | flush | poll | takeFrame | snapshot =>
      refine Eq.trans ?_ h
      cases t <;> rfl
  | _ => simp only [Operation.isOrdinary, Bool.false_eq_true] at ho

/-- Agreement lasts over a whole history. -/
theorem Agrees.after {t : Timer} {m : Machine} {a : Account} (h : t.Agrees m a)
    (hm : m.InRange) {ops : List Operation} (ho : ∀ o ∈ ops, o.isOrdinary = true) :
    t.Agrees (m.after ops) (t.account m a ops) := by
  induction ops generalizing m a with
  | nil => exact h
  | cons o rest ih =>
      have hfirst := ho o List.mem_cons_self
      apply ih (h.perform hm hfirst) (Machine.inRange_perform hm hfirst)
      intro p hp
      exact ho p (List.mem_cons_of_mem o hp)

/-- From a fresh machine on, whatever is done to it, each of the two timers shows the value of its
last load since the last reset less the ticks since that load, or zero where this is negative. A
tick answers whether the sound timer is still running after it, and an instruction that reads the
delay timer stores what the timer shows. -/
theorem readings_after_fresh (keypad : Keypad) (random : RandomSource) {ops : List Operation}
    (ho : ∀ o ∈ ops, o.isOrdinary = true) :
    let start := Machine.fresh keypad random
    let now := start.after ops
    let delay := Timer.delay.account start .cleared ops
    let sound := Timer.sound.account start .cleared ops
    now.delay = max 0 (delay.value - delay.ticks) ∧
      now.sound = max 0 (sound.value - sound.ticks) ∧
      (∃ running, (now.perform .tick).result = .ok (.flag running) ∧
        (running = true ↔ 0 < (now.perform .tick).machine.sound)) ∧
      ∀ w x, now.step.result = .ok (some w) → Instruction.Spells w (.readDelay x) →
        now.step.machine.value x = max 0 (delay.value - delay.ticks) := by
  intro start now delay sound
  have hstart : start.InRange := Machine.inRange_fresh keypad random
  have hnow : now.InRange := hstart.after ho
  have hcleared : ∀ t : Timer, t.Agrees start .cleared := by
    intro t
    cases t <;> rfl
  have hdelay : Timer.delay.Agrees now delay := (hcleared .delay).after hstart ho
  refine ⟨hdelay, (hcleared .sound).after hstart ho, ⟨_, rfl, decide_eq_true_iff⟩, ?_⟩
  intro w x hs hw
  obtain ⟨d, hd, hmachine⟩ := Machine.run_of_step hnow hs hw
  have hvalue : ((Instruction.readDelay x).run d.passed).machine.value x = d.delay :=
    (Machine.value_setV ..).trans (if_pos rfl)
  rw [hmachine, hvalue]
  exact (reading_answered .delay hd).trans hdelay

end Readings

open Tracing.Off in
/-- Both timers are loaded with five, the delay timer again with nine after a tick, and a reset of
an earlier run has cleared what it had loaded. -/
theorem readings_after_fresh_loaded_twice :
    let ops : List Operation :=
      [.init [0x61, 0x07, 0xF1, 0x15], .step, .step, .reset, .press 4,
        .init [0x61, 0x05, 0xF1, 0x15, 0xF1, 0x18, 0x61, 0x09, 0xF1, 0x15, 0xF2, 0x07],
        .step, .step, .step, .tick, .step, .step, .tick, .tick]
    let now := (Machine.fresh .idle ⟨fun _ => 0, 0⟩).after ops
    (∀ o ∈ ops, o.isOrdinary = true) ∧
      Timer.delay.account (Machine.fresh .idle ⟨fun _ => 0, 0⟩) .cleared ops = ⟨9, 2⟩ ∧
      Timer.sound.account (Machine.fresh .idle ⟨fun _ => 0, 0⟩) .cleared ops = ⟨5, 3⟩ ∧
      now.delay = 7 ∧ now.sound = 2 ∧ now.step.machine.value 2 = 7 := by
  intro ops now
  have ho : ∀ o ∈ ops, o.isOrdinary = true := by decide
  have hdelay : Timer.delay.account (Machine.fresh .idle ⟨fun _ => 0, 0⟩) .cleared ops = ⟨9, 2⟩ :=
    by decide +kernel
  have hsound : Timer.sound.account (Machine.fresh .idle ⟨fun _ => 0, 0⟩) .cleared ops = ⟨5, 3⟩ :=
    by decide +kernel
  have hs : now.step.result = .ok (some 0xF207) := by decide +kernel
  obtain ⟨hd, hst, -, hread⟩ := readings_after_fresh .idle ⟨fun _ => 0, 0⟩ ho
  rw [hdelay] at hd
  rw [hsound] at hst
  rw [hdelay] at hread
  exact ⟨ho, hdelay, hsound, hd, hst, hread 0xF207 2 hs ⟨by decide, by decide, by decide⟩⟩

end Timer

end Chip8
