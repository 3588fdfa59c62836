import Chip8.Proofs.Machine.KeyWait
import Chip8.Proofs.Machine.Patch

/-!
# Calls and returns

A call puts the address behind it in the first slot of the stack that is not in use, and a return
goes to the address in the last slot that is. `Machine.Turn` lists what a step can do to the stack:
it calls, it returns, or it leaves stack and depth alone (`Machine.turn_step`). While the stack is
deeper than it was at a call, nothing can reach the slot of that call or the slots below it
(`Machine.Framed`); so the return that ends the call finds its address again, whatever the routine
has called in between (`Machine.calls_match_returns`).
-/

set_option autoImplicit false

namespace Chip8

/-- The step has carried a call out. -/
def Step.Calls (s : Step) : Prop :=
  ∃ w target, s.result = .ok (some w) ∧ Instruction.Spells w (.call target)

/-- The step has carried a return out. -/
def Step.Returns (s : Step) : Prop :=
  ∃ w, s.result = .ok (some w) ∧ Instruction.Spells w .ret

namespace Instruction

/-- Calls and returns are the only instructions that touch the stack or its depth. -/
theorem stack_run {i : Instruction} (hcall : ∀ target, i ≠ .call target) (hret : i ≠ .ret)
    (m : Machine) : (i.run m).machine.stack = m.stack ∧ (i.run m).machine.depth = m.depth := by
  rw [run_eq_patch]
  cases i with
  | call target => exact absurd rfl (hcall target)
  | ret => exact absurd rfl hret
  | _ => exact ⟨rfl, rfl⟩

end Instruction

namespace Machine

/-! ## What a step does to the stack -/

/-- The ways in which a step can treat the stack. -/
inductive Turn (m : Machine) (s : Step) : Prop where
  | call (hs : s.Calls) (hret : ¬ s.Returns) (hroom : m.depth < stackSize)
      (hdepth : s.machine.depth = m.depth + 1)
      (hslot : ∀ i : Fin stackSize, (i.val : Int) = m.depth →
        ((s.machine.stack.get i).toNat : Int) = m.pc + 2)
      (hothers : ∀ i : Fin stackSize, (i.val : Int) ≠ m.depth →
        s.machine.stack.get i = m.stack.get i)
  | ret (hs : s.Returns) (hcall : ¬ s.Calls) (hdepth : s.machine.depth = m.depth - 1)
      (hpc : ∀ i : Fin stackSize, (i.val : Int) = m.depth - 1 →
        s.machine.pc = (m.stack.get i).toNat)
      (hstack : s.machine.stack = m.stack)
  | level (hcall : ¬ s.Calls) (hret : ¬ s.Returns) (hdepth : s.machine.depth = m.depth)
      (hstack : s.machine.stack = m.stack)

/-- A step that ends with an instruction calls or returns exactly if this is its instruction. -/
theorem calls_iff_of_result {s : Step} {w : Word} {i : Instruction}
    (hs : s.result = .ok (some w)) (hw : Instruction.decode? w = some i) :
    (s.Calls ↔ ∃ target, i = .call target) ∧ (s.Returns ↔ i = .ret) := by
  have hinstruction : ∀ w' i', s.result = .ok (some w') → Instruction.Spells w' i' → i = i' := by
    intro w' i' hs' hspells
    rw [hs] at hs'
    cases hs'
    exact Option.some.inj (hw.symm.trans (Instruction.decode?_of_spells hspells))
  have hi := Instruction.spells_of_decode? hw
  constructor
  · constructor
    · rintro ⟨w', target, hs', hspells⟩
      exact ⟨target, hinstruction w' _ hs' hspells⟩
    · rintro ⟨target, rfl⟩
      exact ⟨w, target, hs, hi⟩
  · constructor
    · rintro ⟨w', hs', hspells⟩
      exact hinstruction w' _ hs' hspells
    · rintro rfl
      exact ⟨w, hs, hi⟩

/-- A step without an instruction neither calls nor returns. -/
theorem level_of_result {s : Step} (hs : ∀ w i, s.result = .ok (some w) →
    Instruction.decode? w ≠ some i) : ¬ s.Calls ∧ ¬ s.Returns := by
  constructor
  · rintro ⟨w, target, hw, hspells⟩
    exact hs w _ hw (Instruction.decode?_of_spells hspells)
  · rintro ⟨w, hw, hspells⟩
    exact hs w _ hw (Instruction.decode?_of_spells hspells)

/-- An instruction that comes to its end calls, returns or leaves the stack alone. -/
theorem turn_of_completed {m : Machine} (h : m.InRange) (hpc : m.pc < 0xFFF) {i : Instruction}
    (hw : Instruction.decode? m.word = some i) (ho : i.obstacle m.passed = none) {s : Step}
    (hs : s.result = .ok (some m.word)) (hm : s.machine = (i.run m.passed).machine) :
    m.Turn s := by
  have hdepth : 0 ≤ m.passed.depth ∧ m.passed.depth ≤ stackSize := h.depth
  have h0 := h.pc.1
  obtain ⟨hcalls, hreturns⟩ := calls_iff_of_result hs hw
  by_cases hret : i = .ret
  · subst hret
    have hheld := Instruction.obstacle_ret_eq_none_iff.1 ho
    obtain ⟨i, hi, hr⟩ := Instruction.run_ret (m := m.passed) (by omega) hdepth.2
    rw [hr] at hm
    refine .ret (hreturns.2 rfl) (fun hc => nomatch hcalls.1 hc) ?_ ?_ ?_
    · rw [hm]
      rfl
    · intro j hj
      obtain rfl : j = i := Fin.ext (Int.ofNat_inj.1 (hj.trans hi.symm))
      rw [hm]
      rfl
    · rw [hm]
      rfl
  by_cases hcall : ∃ target, i = .call target
  · obtain ⟨target, rfl⟩ := hcall
    have hroom := Instruction.obstacle_call_eq_none_iff.1 ho
    have hlt : m.passed.depth < stackSize := by omega
    have hbehind : 0 ≤ m.passed.pc ∧ m.passed.pc < 65536 := by
      rw [passed_pc]
      omega
    obtain ⟨i, hi, hr⟩ := Instruction.run_call target hdepth.1 hlt hbehind
    rw [hr] at hm
    refine .call (hcalls.2 ⟨target, rfl⟩) (fun hc => nomatch hreturns.1 hc) hlt ?_ ?_ ?_
    · rw [hm]
      rfl
    · intro j hj
      obtain rfl : j = i := Fin.ext (Int.ofNat_inj.1 (hj.trans hi.symm))
      have hword : (UInt16.ofNat m.passed.pc.toNat).toNat = m.passed.pc.toNat :=
        UInt16.toNat_ofNat_of_lt' (show m.passed.pc.toNat < 65536 by omega)
      have hget : s.machine.stack.get j = UInt16.ofNat m.passed.pc.toNat := by
        rw [hm]
        exact Vector.getElem_set_self j.isLt
      rw [hget, hword, ← passed_pc]
      exact Int.toNat_of_nonneg hbehind.1
    · intro j hj
      have hne : i.val ≠ j.val := by
        intro heq
        exact hj (heq ▸ hi)
      rw [hm]
      exact Vector.getElem_set_ne i.isLt j.isLt hne
  · have hkept := Instruction.stack_run (fun target h => hcall ⟨target, h⟩) hret m.passed
    rw [← hm] at hkept
    exact .level (mt hcalls.1 hcall) (mt hreturns.1 hret) hkept.2 hkept.1

variable [Tracing]

theorem turn_cycle {m : Machine} (h : m.InRange) : m.Turn m.cycle := by
  have hc := cycle_mem h
  generalize hs : m.cycle = s at hc
  cases hc with
  | noWord hpc =>
      obtain ⟨hcall, hret⟩ := level_of_result (s := ⟨m, [], .error _⟩) nofun
      exact .level hcall hret rfl rfl
  | unknown hpc hw =>
      obtain ⟨hcall, hret⟩ := level_of_result
        (s := ⟨m.passed, [.executing m.pc m.word, .unknownWord m.pc m.word], .ok (some m.word)⟩)
        (by rintro w i ⟨⟩ hi; rw [hw] at hi; cases hi)
      exact .level hcall hret rfl rfl
  | obstructed hpc hw ho =>
      obtain ⟨hcall, hret⟩ := level_of_result (s := ⟨m.passed, _, .error _⟩) nofun
      exact .level hcall hret rfl rfl
  | completed hpc hw ho => exact turn_of_completed h hpc hw ho rfl rfl

omit [Tracing] in
/-- The end of a key wait is not seen by the stack. -/
theorem Turn.of_answered {m d : Machine} (hd : m.answered? = some d) {s : Step} (h : d.Turn s)
    (entries : List Entry) : m.Turn ⟨s.machine, entries, s.result⟩ := by
  obtain ⟨-, hpc, -, hdepth⟩ := answered?_counters hd
  have hstack : d.stack = m.stack := by
    rcases answered?_eq_some hd with ⟨-, rfl⟩ | ⟨x, k, rest, -, -, rfl⟩
    · rfl
    · rfl
  cases h with
  | call hs hret hroom hafter hslot hothers =>
      rw [hdepth] at hroom hafter hslot hothers
      rw [hpc] at hslot
      rw [hstack] at hothers
      exact .call hs hret hroom hafter hslot hothers
  | ret hs hcall hafter hslot hsame =>
      rw [hdepth] at hafter hslot
      rw [hstack] at hslot hsame
      exact .ret hs hcall hafter hslot hsame
  | level hcall hret hafter hsame =>
      exact .level hcall hret (hafter.trans hdepth) (hsame.trans hstack)

/-- A step of a machine in range calls, returns or leaves the stack alone. -/
theorem turn_step {m : Machine} (h : m.InRange) : m.Turn m.step := by
  cases hd : m.answered? with
  | none =>
      obtain ⟨hcall, hret⟩ := level_of_result (s := ⟨m, [], .ok none⟩) nofun
      rw [step_of_unanswered hd]
      exact .level hcall hret rfl rfl
  | some d =>
      rw [step_of_answered hd]
      exact (turn_cycle (h.answered hd)).of_answered hd _

/-- A step that comes to a call makes it exactly if there is room on the stack. -/
theorem step_calls_iff {m : Machine} (h : m.InRange) (hready : m.Ready) (hpc : m.pc < 0xFFF)
    {target : Address} (hw : Instruction.Spells m.word (.call target)) :
    m.step.Calls ↔ m.depth < stackSize := by
  constructor
  · intro hs
    cases turn_step h with
    | call _ _ hroom => exact hroom
    | ret _ hcall => exact absurd hs hcall
    | level hcall => exact absurd hs hcall
  · intro hroom
    obtain ⟨d, hd⟩ := ready_iff.1 hready
    obtain ⟨hmemory, hdpc, -, hdepth⟩ := answered?_counters hd
    have hword : d.word = m.word := by
      rw [word, word, hmemory, hdpc]
    rw [← hword] at hw
    have hclear : (Instruction.call target).obstacle d.passed = none :=
      Instruction.obstacle_call_eq_none_iff.2 (by show d.depth ≠ stackSize; omega)
    have hcycle := cycle_of_clear (h.answered hd) (hdpc ▸ hpc) (Instruction.decode?_of_spells hw)
      hclear
    rw [step_of_answered hd, hcycle]
    exact ⟨d.word, target, rfl, hw⟩

end Machine

/-! ## What can come between a call and its return -/

/-- The operations that go on with a program: all that are part of running one, but not loading
and resetting. -/
def Operation.continues : Operation → Bool
  | init _ | reset => false
  | o => o.isOrdinary

theorem Operation.isOrdinary_of_continues {o : Operation} (ho : o.continues = true) :
    o.isOrdinary = true := by
  cases o with
  | init program => cases ho
  | reset => cases ho
  | _ => exact ho

namespace Machine

section Calls

variable [Tracing]

/-- Only steps touch the stack. -/
theorem stack_perform {m : Machine} {o : Operation} (ho : o.continues = true)
    (hstep : o ≠ .step) :
    (m.perform o).machine.stack = m.stack ∧ (m.perform o).machine.depth = m.depth := by
  cases o with
  | step => exact absurd rfl hstep
  | tick | releaseAll | flush | poll | takeFrame | snapshot => exact ⟨rfl, rfl⟩
  | press key =>
      rw [perform_keyEvent m rfl]
      exact ⟨rfl, rfl⟩
  | release key =>
      rw [perform_keyEvent m rfl]
      exact ⟨rfl, rfl⟩
  | _ => cases ho

/-- What an operation does to the depth of the stack: a step that carries out a call counts it up,
a step that carries out a return counts it down, and nothing else changes it. -/
inductive Counts (m : Machine) (o : Operation) : Prop where
  | up (ho : o = .step) (hs : m.step.Calls)
      (hdepth : (m.perform o).machine.depth = m.depth + 1)
  | down (ho : o = .step) (hs : m.step.Returns)
      (hdepth : (m.perform o).machine.depth = m.depth - 1)
  | level (hs : o = .step → ¬ m.step.Calls ∧ ¬ m.step.Returns)
      (hdepth : (m.perform o).machine.depth = m.depth)

theorem counts_of_continues {m : Machine} (h : m.InRange) {o : Operation}
    (ho : o.continues = true) : m.Counts o := by
  by_cases hstep : o = .step
  · subst hstep
    cases turn_step h with
    | call hs _ _ hdepth => exact .up rfl hs hdepth
    | ret hs _ hdepth => exact .down rfl hs hdepth
    | level hcall hret hdepth => exact .level (fun _ => ⟨hcall, hret⟩) hdepth
  · exact .level (fun h => absurd h hstep) (stack_perform ho hstep).2

/-! ## A call that has not ended -/

/-- The stack of a machine still holds what a call found there and has put there: the slots in use
before, and in the next one the address behind the call. -/
structure Framed (caller now : Machine) : Prop where
  below : ∀ i : Fin stackSize, (i.val : Int) < caller.depth →
    now.stack.get i = caller.stack.get i
  home : ∀ i : Fin stackSize, (i.val : Int) = caller.depth →
    ((now.stack.get i).toNat : Int) = caller.pc + 2

theorem framed_of_calls {m : Machine} (h : m.InRange) (hs : m.step.Calls) :
    m.depth < stackSize ∧ m.step.machine.depth = m.depth + 1 ∧ m.Framed m.step.machine := by
  cases turn_step h with
  | call _ _ hroom hdepth hslot hothers =>
      exact ⟨hroom, hdepth, fun i hi => hothers i (by omega), hslot⟩
  | ret _ hcall => exact absurd hs hcall
  | level hcall => exact absurd hs hcall

namespace Framed

variable {caller now : Machine}

omit [Tracing] in
theorem of_stack_eq (h : caller.Framed now) {m : Machine} (hstack : m.stack = now.stack) :
    caller.Framed m := by
  constructor
  · intro i hi
    rw [hstack]
    exact h.below i hi
  · intro i hi
    rw [hstack]
    exact h.home i hi

/-- While the stack is deeper than at the call, no operation touches what the call has left. -/
theorem perform (h : caller.Framed now) (hnow : now.InRange) (hdeep : caller.depth < now.depth)
    {o : Operation} (ho : o.continues = true) : caller.Framed (now.perform o).machine := by
  by_cases hstep : o = .step
  · subst hstep
    cases turn_step hnow with
    | call _ _ _ _ _ hothers =>
        constructor
        · intro i hi
          exact (hothers i (by omega)).trans (h.below i hi)
        · intro i hi
          rw [← h.home i hi]
          exact congrArg (fun w : Word => (w.toNat : Int)) (hothers i (by omega))
    | ret _ _ _ _ hstack => exact h.of_stack_eq hstack
    | level _ _ _ hstack => exact h.of_stack_eq hstack
  · exact h.of_stack_eq (stack_perform ho hstep).1

/-- What brings the stack back to the depth of the call is a return to the address behind it. -/
theorem returns (h : caller.Framed now) (hnow : now.InRange) (h0 : 0 ≤ caller.depth)
    (hdeep : caller.depth < now.depth) {o : Operation} (ho : o.continues = true)
    (hback : (now.perform o).machine.depth ≤ caller.depth) :
    o = .step ∧ now.step.Returns ∧ now.step.machine.depth = caller.depth ∧
      now.step.machine.pc = caller.pc + 2 := by
  have hmost := hnow.depth.2
  by_cases hstep : o = .step
  · subst hstep
    change now.step.machine.depth ≤ caller.depth at hback
    cases turn_step hnow with
    | call _ _ _ hdepth => omega
    | ret hs _ hdepth hpc =>
        -- the slot that the return takes is the slot of the call
        obtain ⟨i, hi⟩ : ∃ i : Fin stackSize, (i.val : Int) = caller.depth :=
          ⟨⟨caller.depth.toNat, by omega⟩, Int.toNat_of_nonneg h0⟩
        refine ⟨rfl, hs, by omega, ?_⟩
        rw [hpc i (by omega)]
        exact h.home i hi
    | level _ _ hdepth => omega
  · have hsame := (stack_perform (m := now) ho hstep).2
    omega

end Framed

/-! ## Runs -/

/-- Before each operation of a run the stack is deeper than a bound. -/
def Deeper (bound : Int) : Machine → List Operation → Prop
  | _, [] => True
  | m, o :: rest => bound < m.depth ∧ Deeper bound (m.perform o).machine rest

instance decidableDeeper (bound : Int) :
    (m : Machine) → (ops : List Operation) → Decidable (m.Deeper bound ops)
  | _, [] => .isTrue trivial
  | m, o :: rest =>
    have := decidableDeeper bound (m.perform o).machine rest
    inferInstanceAs (Decidable (bound < m.depth ∧ Deeper bound (m.perform o).machine rest))

theorem deeper_concat {bound : Int} {m : Machine} {ops : List Operation} {o : Operation} :
    Deeper bound m (ops ++ [o]) ↔ Deeper bound m ops ∧ bound < (m.after ops).depth := by
  induction ops generalizing m with
  | nil => exact ⟨fun h => ⟨trivial, h.1⟩, fun h => ⟨h.2, trivial⟩⟩
  | cons p rest ih =>
      rw [List.cons_append, Deeper, Deeper, ih, and_assoc]
      rfl

theorem Framed.after {caller now : Machine} (h : caller.Framed now) (hnow : now.InRange)
    {ops : List Operation} (ho : ∀ o ∈ ops, o.continues = true)
    (hdeep : now.Deeper caller.depth ops) : caller.Framed (now.after ops) := by
  induction ops generalizing now with
  | nil => exact h
  | cons o rest ih =>
      have hfirst := ho o List.mem_cons_self
      have hmore := fun p hp => ho p (List.mem_cons_of_mem o hp)
      have hrange := inRange_perform hnow (Operation.isOrdinary_of_continues hfirst)
      exact ih (h.perform hnow hdeep.1 hfirst) hrange hmore hdeep.2

/-- A step comes to a call while there is room on the stack, and steps, ticks and key events follow
in any order, whether they fail or not. The call is made, and from then on the depth of the stack
goes up with each call that is carried out, down with each return, and changes with nothing else.
As long as the stack is deeper than before the call, the slots that were in use then keep what is
in them; and what brings it back to that depth is a return, which goes behind the call. -/
theorem calls_match_returns {m : Machine} (h : m.Reachable) (hready : m.Ready)
    (hpc : m.pc < 0xFFF) {target : Address} (hw : Instruction.Spells m.word (.call target))
    (hroom : m.depth < stackSize) {ops : List Operation}
    (ho : ∀ o ∈ ops, o.continues = true) :
    let start := m.step.machine
    let last := start.after ops
    m.step.Calls ∧ start.depth = m.depth + 1 ∧
      (∀ before o later, ops = before ++ o :: later → (start.after before).Counts o) ∧
      (start.Deeper m.depth ops →
        (∀ i : Fin stackSize, (i.val : Int) < m.depth →
          last.stack.get i = m.stack.get i) ∧
        (last.depth ≤ m.depth → ∃ before, ops = before ++ [.step] ∧
          (start.after before).step.Returns ∧ last.depth = m.depth ∧
            last.pc = m.pc + 2)) := by
  intro start last
  have hrange : ∀ before, (∀ o ∈ before, o.continues = true) → (start.after before).InRange :=
    fun before hbefore => ((h.perform (o := .step) rfl).after fun o hmem =>
      Operation.isOrdinary_of_continues (hbefore o hmem)).inRange
  have hs := (step_calls_iff h.inRange hready hpc hw).2 hroom
  obtain ⟨-, hdepth, hframed⟩ := framed_of_calls h.inRange hs
  refine ⟨hs, hdepth, ?_, ?_⟩
  · rintro before o later rfl
    have hbefore := hrange before fun p hp => ho p (List.mem_append_left _ hp)
    exact counts_of_continues hbefore (ho o (List.mem_append_right before List.mem_cons_self))
  · intro hdeep
    refine ⟨(hframed.after (hrange [] nofun) ho hdeep).below, fun hback => ?_⟩
    -- the run is not empty, since the call has left the stack deeper
    rcases List.eq_nil_or_concat ops with rfl | ⟨before, o, hops⟩
    · change m.step.machine.depth ≤ m.depth at hback
      omega
    · rw [List.concat_eq_append] at hops
      subst hops
      have hmore := fun p hp => ho p (List.mem_append_left [o] hp)
      have hbefore := hrange before hmore
      obtain ⟨hinside, hlast⟩ := deeper_concat.1 hdeep
      have hlastAfter : last = ((start.after before).perform o).machine := after_concat _ _ _
      rw [hlastAfter] at hback ⊢
      have hkept := hframed.after (hrange [] nofun) hmore hinside
      obtain ⟨rfl, hreturns, hsame, hbehind⟩ := hkept.returns hbefore h.inRange.depth.1 hlast
        (ho o (List.mem_append_right before (List.mem_singleton_self o))) hback
      exact ⟨before, rfl, hreturns, hsame, hbehind⟩

end Calls

open Tracing.Off in
/-- The routine sets the index to the last byte, fails to draw a sprite of two rows there, and
calls another routine; a tick and a press come in between. -/
theorem calls_match_returns_nested :
    let m := (fresh .idle ⟨fun _ => 0, 0⟩).after [.init
      [0x22, 0x04, 0x12, 0x02, 0xAF, 0xFF, 0xD0, 0x02, 0x22, 0x0C, 0x00, 0xEE, 0x00, 0xEE]]
    let ops := [.step, .step, .tick, .step, .press 3, .step, .step]
    let last := m.step.machine.after ops
    m.Reachable ∧ m.Ready ∧ m.pc = 0x200 ∧ m.word = 0x2204 ∧ m.depth = 0 ∧
      m.step.machine.Deeper m.depth ops ∧ last.depth = m.depth ∧ last.pc = 0x202 := by
  intro m ops last
  have h : m.Reachable := (Reachable.fresh _ _).after (by decide)
  have hready : m.Ready := Or.inl rfl
  have hword : m.word = 0x2204 := by decide +kernel
  have hcall : Instruction.Spells m.word (.call 0x204) := hword ▸ ⟨by decide, by decide⟩
  have ho : ∀ o ∈ ops, o.continues = true := by decide
  have hdeep : m.step.machine.Deeper m.depth ops := by decide +kernel
  have hback : last.depth ≤ m.depth := by decide +kernel
  obtain ⟨-, -, -, hrun⟩ := calls_match_returns h hready (by decide) hcall (by decide) ho
  obtain ⟨before, -, -, hsame, hbehind⟩ := (hrun hdeep).2 hback
  exact ⟨h, hready, rfl, hword, rfl, hdeep, hsame, hbehind⟩

end Machine

end Chip8
