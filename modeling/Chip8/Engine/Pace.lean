import Chip8.Number.Quantity

/-!
# Pace

How many instructions a slice of time is worth. The engine keeps an account of instructions that
are due: a slice of `dt` seconds adds `dt * rate` to it, what lies above the ceiling is dropped,
and the whole part is taken out and executed, so that a fraction is carried to the next slice. The
ceiling is what a few periods of the timer clock are worth, which bounds what a late slice can
catch up.
-/

set_option autoImplicit false

namespace Chip8.Pace

variable {α : Type} [Quantity α]

open Quantity

/-- The most periods of the timer clock that one slice may catch up. -/
def slicePeriods : Int := 4

/-- The largest account: what `slicePeriods` periods are worth. -/
def ceiling (rate timerRate : α) : Except ArithmeticError α := do
  mul (← div rate timerRate) (ofInt slicePeriods)

/-- The account after a slice has been added. -/
def credit (rate budget dt : α) : Except ArithmeticError α := do
  add budget (← mul dt rate)

/-- The account without what lies above the ceiling. -/
def capped (budget limit : α) : α :=
  if exceeds budget limit then limit else budget

/-- Takes the whole part out of an account. -/
def withdraw (budget : α) : Except ArithmeticError (α × Int) := do
  let count ← whole budget
  return (← sub budget (ofInt count), count)

/-- The account after a slice of time, and the number of instructions to execute for it. If a
computation fails, the account keeps what it held at that point. -/
def slice (rate timerRate budget dt : α) : α × Except ArithmeticError Int :=
  match credit rate budget dt with
  | .error reason => (budget, .error reason)
  | .ok raised =>
    match ceiling rate timerRate with
    | .error reason => (raised, .error reason)
    | .ok limit =>
      let due := capped raised limit
      match withdraw due with
      | .error reason => (due, .error reason)
      | .ok (rest, count) => (rest, .ok count)

end Chip8.Pace
