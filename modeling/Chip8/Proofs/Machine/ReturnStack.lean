import Chip8.Proofs.Machine.History

/-!
# The return stack as a list

The slots of the return stack that are in use hold a list of which the last value comes off first
(`Machine.Holds`). What a push or a pop makes of the list is told by the list alone
(`Operation.heldAfter`), and so is what it answers: one lemma for every way in which a call can
end, then an induction over the calls (`Machine.Holds.after`). `Machine.stack_after_calls` puts
this together.
-/

set_option autoImplicit false

namespace Chip8

/-- The value of a word. -/
def Word.value (w : Word) : Int :=
  w.toNat

/-- Integers that a word can hold. -/
def Word.IsValue (z : Int) : Prop :=
  0 ≤ z ∧ z ≤ 65535

instance : DecidablePred Word.IsValue :=
  fun _ => inferInstanceAs (Decidable (_ ∧ _))

namespace Operation

/-- The operations that a return stack has itself. -/
def isStackCall : Operation → Bool
  | push _ | pop => true
  | _ => false

/-- The values that a bounded list holds after a call, the last first. A value that is no word is
not taken, and neither is one that comes when the list is full. -/
def heldAfter (held : List Int) : Operation → List Int
  | push z => if held.length < stackSize ∧ Word.IsValue z then z :: held else held
  | pop => held.tail
  | _ => held

end Operation

/-- The values that a list of calls has put on an empty stack and not taken off, the last first. -/
def heldAfter (ops : List Operation) : List Int :=
  ops.foldl Operation.heldAfter []

namespace Machine

/-- The slots in use hold the values of a list, the last one in the highest slot. -/
structure Holds (m : Machine) (held : List Int) : Prop where
  depth : m.depth = held.length
  bound : held.length ≤ stackSize
  slots : (m.stack.toList.take held.length).map Word.value = held.reverse

theorem holds_nil {m : Machine} (h : m.depth = 0) : m.Holds [] where
  depth := h
  bound := Nat.zero_le stackSize
  slots := rfl

section Calls

variable [Tracing] {m : Machine} {held : List Int}

/-! ## The ways in which a call ends -/

theorem Holds.push_of_full (h : m.Holds held) (hfull : held.length = stackSize) (z : Int) :
    m.perform (.push z) = m.refused (.failure (.fault (.stackOverflow (m.pc - 2)))) := by
  have hdepth : m.depth = stackSize := by rw [h.depth, hfull]
  show m.change (m.push z) = _
  rw [Machine.push_of_full hdepth]
  rfl

theorem Holds.push_of_misfit (h : m.Holds held) (hroom : held.length < stackSize) {z : Int}
    (hz : ¬ Word.IsValue z) :
    m.perform (.push z) = m.refused (.failure (.misfit (.notAWord z))) := by
  have hdepth := h.depth
  obtain ⟨i, -, hslot⟩ := slot_of_lt (p := m.depth) (by omega) (by omega)
  have hword : ¬ (0 ≤ z ∧ z < 65536) := fun hword => hz ⟨hword.1, by omega⟩
  have hpush : m.push z = .error (.misfit (.notAWord z)) := by
    rw [push, if_neg (by omega), hslot]
    exact if_neg hword
  show m.change (m.push z) = _
  rw [hpush]
  rfl

/-- A word goes to the slot behind those in use, which leaves the slots before it as they are. -/
theorem Holds.push_of_room (h : m.Holds held) (hroom : held.length < stackSize) {z : Int}
    (hz : Word.IsValue z) :
    ∃ stack, m.perform (.push z) = { m with stack, depth := m.depth + 1 }.replied .done ∧
      { m with stack, depth := m.depth + 1 }.Holds (z :: held) := by
  have hdepth := h.depth
  obtain ⟨hz0, hz1⟩ := hz
  obtain ⟨i, hi, hpush⟩ := Machine.push_of_room (m := m) (by omega) (by omega)
    (show 0 ≤ z ∧ z < 65536 by omega)
  refine ⟨m.stack.set i.val (UInt16.ofNat z.toNat) i.isLt, ?_, ?_, hroom, ?_⟩
  · show m.change (m.push z) = _
    rw [hpush]
    rfl
  · show m.depth + 1 = ((held.length + 1 : Nat) : Int)
    omega
  · obtain hlast : i.val = held.length := by omega
    have hvalue : Word.value (UInt16.ofNat z.toNat) = z := by
      rw [Word.value, UInt16.toNat_ofNat_of_lt' (show z.toNat < 65536 by omega),
        Int.toNat_of_nonneg hz0]
    have hin : held.length < m.stack.toList.length := by rwa [Vector.length_toList]
    -- the slots in use are now those from before, which the store does not reach, and the new one
    show ((m.stack.set i.val _ i.isLt).toList.take (held.length + 1)).map Word.value = _
    rw [Vector.toList_set, hlast, List.take_add_one, List.take_set_of_le (Nat.le_refl _),
      List.getElem?_set_self hin, List.map_append, h.slots, List.reverse_cons]
    exact congrArg (fun v => held.reverse ++ [v]) hvalue

theorem Holds.pop_of_nil (h : m.Holds []) :
    m.perform .pop = m.refused (.failure (.fault (.stackUnderflow (m.pc - 2)))) := by
  show m.pop.1.observe m.pop.2 _ = _
  rw [pop_of_empty h.depth]
  rfl

/-- The value in the highest slot in use is taken off, and stays in the slot. -/
theorem Holds.pop_of_cons {v : Int} {rest : List Int} (h : m.Holds (v :: rest)) :
    m.perform .pop = { m with depth := m.depth - 1 }.replied (.number v) ∧
      { m with depth := m.depth - 1 }.Holds rest := by
  have hdepth : m.depth = rest.length + 1 := h.depth
  have hbound : rest.length + 1 ≤ stackSize := h.bound
  have hsize : (stackSize : Int) = 16 := rfl
  obtain ⟨i, hi, hpop⟩ := pop_of_held (m := m) (by omega) (by omega)
  obtain hlast : i.val = rest.length := by omega
  -- the slots in use are those of the rest, and the one that is read
  have hslots : (m.stack.toList.take rest.length).map Word.value ++ [Word.value (m.stack.get i)] =
      rest.reverse ++ [v] := by
    have hslot : m.stack.toList[rest.length]? = some (m.stack.get i) := by
      rw [← hlast, Vector.getElem?_toList]
      exact Vector.getElem?_eq_getElem i.isLt
    rw [← List.reverse_cons, ← h.slots, List.length_cons, List.take_add_one, hslot, List.map_append]
    rfl
  obtain ⟨hrest, hv⟩ := List.append_inj' hslots rfl
  refine ⟨?_, ?_, Nat.le_of_succ_le hbound, hrest⟩
  · show m.pop.1.observe m.pop.2 _ = _
    rw [hpop]
    exact congrArg (fun z => replied _ (.number z)) (List.singleton_inj.1 hv)
  · show m.depth - 1 = _
    omega

/-! ## Calls and lists of calls -/

/-- A push ends in one of three ways. -/
theorem Holds.push_cases (h : m.Holds held) (z : Int) :
    (held.length = stackSize ∧
      m.perform (.push z) = m.refused (.failure (.fault (.stackOverflow (m.pc - 2))))) ∨
    (held.length < stackSize ∧ ¬ Word.IsValue z ∧
      m.perform (.push z) = m.refused (.failure (.misfit (.notAWord z)))) ∨
    (held.length < stackSize ∧ Word.IsValue z ∧ ∃ stack,
      m.perform (.push z) = { m with stack, depth := m.depth + 1 }.replied .done ∧
        { m with stack, depth := m.depth + 1 }.Holds (z :: held)) := by
  by_cases hroom : held.length < stackSize
  · by_cases hz : Word.IsValue z
    · exact Or.inr (Or.inr ⟨hroom, hz, h.push_of_room hroom hz⟩)
    · exact Or.inr (Or.inl ⟨hroom, hz, h.push_of_misfit hroom hz⟩)
  · have hfull : held.length = stackSize := Nat.le_antisymm h.bound (Nat.not_lt.1 hroom)
    exact Or.inl ⟨hfull, h.push_of_full hfull z⟩

/-- What a call does to the slots in use is what it does to the list, and it does nothing else. If
it is refused, it does nothing at all. -/
theorem Holds.perform (h : m.Holds held) {o : Operation} (ho : o.isStackCall = true) :
    (m.perform o).machine.Holds (o.heldAfter held) ∧
      (∃ stack depth, (m.perform o).machine = { m with stack, depth }) ∧
      ∀ reason, (m.perform o).result = .error reason → (m.perform o).machine = m := by
  cases o with
  | push z =>
      have hkept (hnot : ¬ (held.length < stackSize ∧ Word.IsValue z)) :
          (Operation.push z).heldAfter held = held := if_neg hnot
      rcases h.push_cases z with ⟨hfull, hp⟩ | ⟨-, hz, hp⟩ | ⟨hroom, hz, stack, hp, hheld⟩
      · rw [hp, hkept fun htaken => absurd htaken.1 (by omega)]
        exact ⟨h, ⟨m.stack, m.depth, rfl⟩, fun _ _ => rfl⟩
      · rw [hp, hkept fun htaken => hz htaken.2]
        exact ⟨h, ⟨m.stack, m.depth, rfl⟩, fun _ _ => rfl⟩
      · have htaken : (Operation.push z).heldAfter held = z :: held := if_pos ⟨hroom, hz⟩
        rw [hp, htaken]
        exact ⟨hheld, ⟨stack, _, rfl⟩, nofun⟩
  | pop =>
      cases held with
      | nil =>
          rw [h.pop_of_nil]
          exact ⟨h, ⟨m.stack, m.depth, rfl⟩, fun _ _ => rfl⟩
      | cons v rest =>
          obtain ⟨hp, hheld⟩ := h.pop_of_cons
          rw [hp]
          exact ⟨hheld, ⟨m.stack, _, rfl⟩, nofun⟩
  | _ => cases ho

theorem Holds.after (h : m.Holds held) {ops : List Operation}
    (ho : ∀ o ∈ ops, o.isStackCall = true) :
    (m.after ops).Holds (ops.foldl Operation.heldAfter held) ∧
      ∃ stack depth, m.after ops = { m with stack, depth } := by
  -- a call leaves the stack with the list that the rest of the calls begin with
  induction ops generalizing m held with
  | nil => exact ⟨h, m.stack, m.depth, rfl⟩
  | cons o rest ih =>
      rw [List.forall_mem_cons] at ho
      obtain ⟨hheld, ⟨stack, depth, hone⟩, -⟩ := h.perform ho.1
      obtain ⟨hlast, stack', depth', hall⟩ := ih hheld ho.2
      refine ⟨hlast, stack', depth', ?_⟩
      rw [after_cons, hall, hone]

/-- What a push answers, told by the list. -/
theorem Holds.result_push_iff (h : m.Holds held) (z : Int) :
    ((m.perform (.push z)).result = .error (.failure (.fault (.stackOverflow (m.pc - 2)))) ↔
      held.length = stackSize) ∧
    ((m.perform (.push z)).result = .error (.failure (.misfit (.notAWord z))) ↔
      held.length < stackSize ∧ ¬ Word.IsValue z) ∧
    ((m.perform (.push z)).result = .ok .done ↔ held.length < stackSize ∧ Word.IsValue z) := by
  rcases h.push_cases z with ⟨hfull, hp⟩ | ⟨hroom, hz, hp⟩ | ⟨hroom, hz, stack, hp, -⟩
  · rw [hp]
    have hnot {p : Prop} : ¬ (held.length < stackSize ∧ p) := fun h => absurd h.1 (by omega)
    exact ⟨iff_of_true rfl hfull, iff_of_false nofun hnot, iff_of_false nofun hnot⟩
  · rw [hp]
    have hnot : held.length ≠ stackSize := Nat.ne_of_lt hroom
    exact ⟨iff_of_false nofun hnot, iff_of_true rfl ⟨hroom, hz⟩,
      iff_of_false nofun fun h => hz h.2⟩
  · rw [hp]
    have hnot : held.length ≠ stackSize := Nat.ne_of_lt hroom
    exact ⟨iff_of_false nofun hnot, iff_of_false nofun fun h => h.2 hz,
      iff_of_true rfl ⟨hroom, hz⟩⟩

/-- What a pop answers, told by the list. -/
theorem Holds.result_pop_iff (h : m.Holds held) :
    ((m.perform .pop).result = .error (.failure (.fault (.stackUnderflow (m.pc - 2)))) ↔
      held = []) ∧
    ∀ v, (m.perform .pop).result = .ok (.number v) ↔ held.head? = some v := by
  cases held with
  | nil =>
      rw [h.pop_of_nil]
      exact ⟨iff_of_true rfl rfl, fun v => iff_of_false nofun nofun⟩
  | cons last rest =>
      rw [h.pop_of_cons.1]
      refine ⟨iff_of_false nofun nofun, fun v => ?_⟩
      show Except.ok (Reply.number last) = .ok (.number v) ↔ some last = some v
      rw [Except.ok.injEq, Reply.number.injEq, Option.some.injEq]

/-- What a return stack that was empty is after any pushes and pops, and what the next call
answers. Its slots in use are the values that were pushed and not popped, sixteen at most, and no
other component of the machine has changed. The next push is refused if there are sixteen, or else
if its value is no word; the next pop is refused if there are none, and answers with the value that
was pushed last. A call that is refused changes nothing. -/
theorem stack_after_calls (hm : m.depth = 0) {ops : List Operation}
    (hops : ∀ o ∈ ops, o.isStackCall = true) :
    let now := m.after ops
    let values := heldAfter ops
    (now.depth = values.length ∧ values.length ≤ 16 ∧
      (now.stack.toList.take values.length).map Word.value = values.reverse) ∧
    (∃ stack depth, now = { m with stack, depth }) ∧
    (∀ z,
      ((now.perform (.push z)).result = .error (.failure (.fault (.stackOverflow (m.pc - 2)))) ↔
        values.length = 16) ∧
      ((now.perform (.push z)).result = .error (.failure (.misfit (.notAWord z))) ↔
        values.length < 16 ∧ ¬ (0 ≤ z ∧ z ≤ 65535)) ∧
      ((now.perform (.push z)).result = .ok .done ↔ values.length < 16 ∧ 0 ≤ z ∧ z ≤ 65535)) ∧
    (((now.perform .pop).result = .error (.failure (.fault (.stackUnderflow (m.pc - 2)))) ↔
        values = []) ∧
      ∀ v, (now.perform .pop).result = .ok (.number v) ↔ values.head? = some v) ∧
    ∀ o : Operation, o.isStackCall = true → ∀ reason,
      (now.perform o).result = .error reason → (now.perform o).machine = now := by
  intro now values
  obtain ⟨hheld, hframe⟩ := (holds_nil hm).after hops
  have hpc : now.pc = m.pc := by
    obtain ⟨stack, depth, hnow⟩ := hframe
    show (m.after ops).pc = m.pc
    rw [hnow]
  refine ⟨⟨hheld.depth, hheld.bound, hheld.slots⟩, hframe, ?_, ?_, fun o ho => ?_⟩
  · rw [← hpc]
    exact hheld.result_push_iff
  · rw [← hpc]
    exact hheld.result_pop_iff
  · exact (hheld.perform ho).2.2

end Calls

open Tracing.Off in
/-- Eighteen values are pushed, of which one is no word and one finds the stack full. The pop that
follows answers with the sixteenth that was taken, and its slot is used again. -/
theorem stack_after_calls_full :
    let m := fresh .idle ⟨fun _ => 0, 0⟩
    let filled := (List.range 16).map fun i : Nat => Operation.push i
    let ops := .pop :: .push 65536 :: filled ++ [.push 99]
    let reused := ops ++ [.pop, .push 65535]
    (m.after ops).depth = 16 ∧
      ((m.after ops).perform .pop).result = .ok (.number 15) ∧
      ((m.after ops).perform (.push (-1))).result =
        .error (.failure (.fault (.stackOverflow 510))) ∧
      ((m.after reused).perform .pop).result = .ok (.number 65535) := by
  intro m filled ops reused
  have hops : ∀ o ∈ ops, o.isStackCall = true := by decide
  have hreused : ∀ o ∈ reused, o.isStackCall = true := by decide
  obtain ⟨hslots, -, hpush, hpop, -⟩ := stack_after_calls (m := m) rfl hops
  obtain ⟨-, -, -, hpop', -⟩ := stack_after_calls (m := m) rfl hreused
  refine ⟨hslots.1.trans (by decide), ?_, ?_, ?_⟩
  · exact (hpop.2 15).2 (by decide)
  · exact (hpush (-1)).1.2 (by decide)
  · exact (hpop'.2 65535).2 (by decide)

end Machine

end Chip8
