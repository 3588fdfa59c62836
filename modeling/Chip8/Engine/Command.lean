import Chip8.Engine.Run

/-!
# Commands to an engine

Everything that is done to an engine from outside, as data, so that a history is a list of
commands. `Engine.perform` carries a command out, up to the point where pending runs are played;
`Engine.settle` does the rest. An error answers a command that was refused.
-/

set_option autoImplicit false

namespace Chip8

/-- Something to do with an engine. -/
inductive Command (α : Type) where
  | init (program : List Int)
  | reset
  | loadFile (path : String)
  | runFile (path : String)
  | start
  | stop
  | destroy
  | tickTimers
  | runCycles (count : Int)
  | cpuTick (dt : α)
  | operate (operation : Operation)

namespace Engine

variable {α : Type} [Quantity α] [Tracing]

/-- The reply to a command that answers nothing. -/
def silently (outcome : Engine α × Except Refusal Unit) : Engine α × Except Refusal Reply :=
  (outcome.1, outcome.2.map fun () => .done)

/-- Carries a command out, with program files from a tree. -/
def perform (e : Engine α) (files : Node) : Command α → Engine α × Except Refusal Reply
  | .init program => silently (e.init program)
  | .reset => silently e.reset
  | .loadFile path => silently (e.loadFile files path)
  | .runFile path => silently (e.runFile files path)
  | .start => (e.start .outside, .ok .done)
  | .stop => (e.stop .outside, .ok .done)
  | .destroy => (e.destroy, .ok .done)
  | .tickTimers => silently (e.tickTimers .outside)
  | .runCycles count =>
    let (e, ran) := e.runCycles .outside count
    (e, ran.map fun n => .number n)
  | .cpuTick dt => silently (e.cpuTick .outside dt)
  | .operate operation => e.operate .outside operation

end Engine

end Chip8
