import Chip8.Fault
import Chip8.Frame
import Chip8.Keypad
import Chip8.LoadError
import Chip8.Number.Quantity

/-!
# Refusals

Why an operation on a machine, an engine or a window was not carried out.
-/

set_option autoImplicit false

namespace Chip8

/-- Why an operation was not carried out. -/
inductive Refusal where
  | failure (reason : Failure)
  | load (reason : LoadError)
  | key (reason : NoSuchKey)
  | arithmetic (reason : ArithmeticError)
  | frame (reason : FrameError)
  /-- A rate is zero or negative. -/
  | rates
  /-- The word stands for no instruction. -/
  | noInstruction
  /-- The engine's machine has been taken down. -/
  | noMachine
  /-- There is no window. -/
  | noWindow
  /-- The window has not played a tone yet. -/
  | noTone
  deriving DecidableEq, Repr

end Chip8
