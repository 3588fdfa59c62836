import Chip8.Engine.Control

/-!
# Driving the machine

Direct operations on the engine's machine, ticks of its timers, and runs of instructions. A fault
ends a run of instructions: it is kept, told to the outside, and answered as the policy says. A
misfit breaks a run of instructions off.
-/

set_option autoImplicit false

namespace Chip8.Engine

variable {α : Type} [Quantity α] [Tracing]

/-- Takes over what an operation has left of the machine. If it drew the random byte on which the
policy asks for a stop, the stop is carried out. -/
def absorb (e : Engine α) (caller : Caller) (before after : Machine) (entries : List Entry) :
    Engine α :=
  let e := { e with machine := some after }.noteAll entries
  match e.policy.stopOnRandom with
  | none => e
  | some n => if before.random.drawn < n ∧ n ≤ after.random.drawn then e.stop caller else e

/-- What an instruction does when there is no machine: only one that touches no machine works. -/
def executeWithout (e : Engine α) (w : Word) : Engine α × Except Refusal Reply :=
  match Instruction.decode? w with
  | none => (e, .error .noInstruction)
  | some (.sys target) => (e.note (.sysIgnored target), .ok .done)
  | some _ => (e, .error .noMachine)

/-- Carries an operation on the machine out. -/
def operate (e : Engine α) (caller : Caller) (operation : Operation) :
    Engine α × Except Refusal Reply :=
  match e.machine with
  | none =>
    match operation with
    | .execute w => e.executeWithout w
    | _ => (e, .error .noMachine)
  | some m =>
    let p := m.perform operation
    (e.absorb caller m p.machine p.entries, p.result)

/-- One tick of the timers; the buzzer follows the sound timer, and a refresh is due. -/
def tickTimers (e : Engine α) (caller : Caller) : Engine α × Except Refusal Unit :=
  match e.machine with
  | none => (e, .error .noMachine)
  | some m =>
    let e := { e with machine := some m.tick }.setSound m.tick.buzzing
    let e := { e with refreshes := e.refreshes + 1 }.signal .refresh
    (if e.policy.stopOnRefresh = some e.refreshes then e.stop caller else e, .ok ())

/-- What the policy asks for after a fault. -/
def answerFault (e : Engine α) (caller : Caller) : Engine α × Except Refusal Unit :=
  match e.policy.onFault with
  | .ignore => (e, .ok ())
  | .stop => (e.stop caller, .ok ())
  | .restart program =>
    match e.reset with
    | (e, .error reason) => (e, .error reason)
    | (e, .ok ()) =>
      match e.init program with
      | (e, .error reason) => (e, .error reason)
      | (e, .ok ()) => (e.start caller, .ok ())

/-- Ends a run of instructions with a fault of the machine `m`. -/
def fail (e : Engine α) (caller : Caller) (m : Machine) (reason : Fault) :
    Engine α × Except Refusal Unit :=
  let e := { e with fault := some reason }.note (.faulted reason m.dump)
  ({ e with stopRequested := true }.signal (.fault reason)).answerFault caller

/-- How a run of instructions ended: the engine, the number of instructions that ran, and whether
a misfit or the refusal of an answer to a fault broke it off. -/
structure Ran (α : Type) where
  engine : Engine α
  executed : Nat
  result : Except Refusal Unit

/-- Executes up to `count` instructions on top of `executed`, and ends early on a stop, a fault, a
misfit or a wait for a key. -/
def runSteps (caller : Caller) : Nat → Engine α → Nat → Ran α
  | 0, e, executed => ⟨e, executed, .ok ()⟩
  | count + 1, e, executed =>
    if e.stopping then ⟨e, executed, .ok ()⟩
    else
      match e.machine with
      | none => ⟨e, executed, .error .noMachine⟩
      | some m =>
        let s := m.step
        let e := e.absorb caller m s.machine s.entries
        match s.result with
        | .error (.fault reason) =>
          let (e, result) := e.fail caller s.machine reason
          ⟨e, executed, result⟩
        | .error (.misfit reason) => ⟨e, executed, .error (.failure (.misfit reason))⟩
        | .ok none => ⟨e, executed, .ok ()⟩
        | .ok (some _) => runSteps caller count e (executed + 1)

/-- Executes up to `count` instructions and tells how many ran. The buzzer follows the sound
timer, which an instruction may have set. -/
def runCycles (e : Engine α) (caller : Caller) (count : Int) : Engine α × Except Refusal Nat :=
  match e.machine with
  | none => (e, .error .noMachine)
  | some _ =>
    let ran := runSteps caller count.toNat e 0
    match ran.result with
    | .error reason => (ran.engine, .error reason)
    | .ok () =>
      let e := { ran.engine with cycles := ran.engine.cycles + ran.executed }
      (e.setSound (e.machine.any Machine.buzzing), .ok ran.executed)

/-- Executes the instructions that a slice of time is worth. A slice that was cut short leaves
nothing to catch up. -/
def cpuTick (e : Engine α) (caller : Caller) (dt : α) : Engine α × Except Refusal Unit :=
  let (budget, due) := Pace.slice e.rate e.timerRate e.budget dt
  let e := { e with budget }
  match due with
  | .error reason => (e, .error (.arithmetic reason))
  | .ok count =>
    match e.runCycles caller count with
    | (e, .error reason) => (e, .error reason)
    | (e, .ok executed) =>
      (if (executed : Int) < count then { e with budget := Quantity.zero } else e, .ok ())

end Chip8.Engine
