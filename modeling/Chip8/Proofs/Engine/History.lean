import Chip8.Proofs.Engine.Moves

/-!
# Histories of an engine

What happens to an engine, one occurrence after the other: a command is given, with the program
files that are there at that time, or a live run makes one more tick. After each occurrence the
runs that it has left pending are played.
-/

set_option autoImplicit false

namespace Chip8

/-- Something that happens to an engine. -/
inductive Occurrence (α : Type) where
  | command (files : Node) (c : Command α)
  | tick (dt : α)

/-- Whether an occurrence does not reach into the machine. -/
def Occurrence.isOrdinary {α : Type} : Occurrence α → Bool
  | .command _ c => c.isOrdinary
  | .tick _ => true

namespace Engine

variable {α : Type} [Quantity α] [Tracing]

/-- The engine after an occurrence, before pending runs are played. -/
def occur (e : Engine α) : Occurrence α → Engine α
  | .command files c => (e.perform files c).1
  | .tick dt => e.advance dt

/-- The engine after an occurrence. -/
def next (e : Engine α) (o : Occurrence α) : Engine α :=
  (e.occur o).settle

/-- The engine after a history. -/
def after (e : Engine α) (history : List (Occurrence α)) : Engine α :=
  history.foldl next e

@[simp] theorem after_nil (e : Engine α) : e.after [] = e := rfl

@[simp] theorem after_cons (e : Engine α) (o : Occurrence α) (rest : List (Occurrence α)) :
    e.after (o :: rest) = (e.next o).after rest := rfl

theorem after_append (e : Engine α) (first rest : List (Occurrence α)) :
    e.after (first ++ rest) = (e.after first).after rest :=
  List.foldl_append

omit [Tracing] in
/-- A new engine has a fresh machine and has done nothing yet. -/
theorem eq_of_create {rate timerRate : α} {random : RandomSource} {policy : Policy}
    {schedule : List (List α)} {new : Engine α}
    (h : create rate timerRate random policy schedule = .ok new) :
    new.machine = some (.fresh .idle random) ∧ new.control = {
      timerRate, policy, schedule
      phase := .absent
      stopRequested := false
      generation := 0
      clocks := []
      cycles := 0
      refreshes := 0 } := by
  unfold create at h
  by_cases hrates : (Quantity.atMostZero rate || Quantity.atMostZero timerRate) = true
  · rw [if_pos hrates] at h
    cases h
  · rw [if_neg hrates] at h
    cases h
    exact ⟨rfl, rfl⟩

end Engine

end Chip8
