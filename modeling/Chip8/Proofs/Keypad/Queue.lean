import Chip8.Proofs.Keypad.History
import Chip8.Proofs.Machine.History
import Mathlib.Data.List.Induction

/-!
# The queue of a keypad

What a keypad says about the past. A key is down if it was pressed after it was last let go
(`keysAfter_eq`). A poll gives the oldest press away, so the presses that polls have answered with
and those that still wait are together the keys that went down, in their order
(`Machine.delivered_append_presses`).
-/

set_option autoImplicit false

namespace Chip8

namespace Operation

/-- The operations that a keypad has itself. -/
def isKeypadCall : Operation → Bool
  | press _ | release _ | releaseAll | flush | poll => true
  | _ => false

/-- Whether an operation puts a key into a position. -/
def concerns (k : Key) : Operation → Bool
  | press z | release z => z == k.val
  | releaseAll => true
  | _ => false

/-- An operation that concerns a key leaves it down exactly if it presses the key. -/
theorem keysAfter_of_concerns {k : Key} {o : Operation} (ho : o.concerns k = true)
    (down : Key → Bool) : o.keysAfter down k = decide (o = .press k.val) := by
  cases o with
  | press z =>
      have hz : z = k.val := beq_iff_eq.1 ho
      simp [keysAfter, hz]
  | release z =>
      have hz : z = k.val := beq_iff_eq.1 ho
      simp [keysAfter, hz]
  | releaseAll => rfl
  | _ => simp only [concerns, Bool.false_eq_true] at ho

/-- Any other operation leaves the key where it is. -/
theorem keysAfter_of_not_concerns {k : Key} {o : Operation} (ho : o.concerns k = false)
    (down : Key → Bool) : o.keysAfter down k = down k := by
  cases o with
  | press z =>
      have hz : (z == (k.val : Int)) = false := ho
      simp [keysAfter, hz]
  | release z =>
      have hz : (z == (k.val : Int)) = false := ho
      simp [keysAfter, bne, hz]
  | releaseAll => simp only [concerns, Bool.true_eq_false] at ho
  | _ => rfl

end Operation

/-- A key is where the last operation that concerns it has put it. -/
theorem keysAfter_eq (down : Key → Bool) (ops : List Operation) (k : Key) :
    keysAfter down ops k =
      ((ops.filter (Operation.concerns k)).getLast?.map fun o => decide (o = .press k.val)).getD
        (down k) := by
  -- from the end, for the last operation that concerns the key hides those before it
  induction ops using List.reverseRecOn with
  | nil => rfl
  | append_singleton before o ih =>
      rw [keysAfter_concat, List.filter_append]
      cases ho : o.concerns k with
      | true =>
          rw [Operation.keysAfter_of_concerns ho, List.filter_cons_of_pos ho, List.filter_nil,
            List.getLast?_concat]
          rfl
      | false =>
          have hnot : ¬ o.concerns k = true := Bool.not_eq_true _ ▸ ho
          rw [Operation.keysAfter_of_not_concerns ho, ih, List.filter_cons_of_neg hnot,
            List.filter_nil, List.append_nil]

theorem Keypad.isPressed_val (p : Keypad) (k : Key) : p.isPressed k.val = p.down k := by
  rw [isPressed, Key.ofInt?_eq_some_iff.2 rfl]
  rfl

namespace Machine

section Calls

variable [Tracing]

/-- The key that an operation answers with. -/
def answer? (m : Machine) (o : Operation) : Option Key :=
  match (m.perform o).result with
  | .ok (.key k) => k
  | _ => none

/-- The keys that a list of operations answers with since presses were last discarded; `got` are
those from before. -/
def delivered (m : Machine) (got : List Key) : List Operation → List Key
  | [] => got
  | o :: rest =>
    (m.perform o).machine.delivered ((if o.discards then [] else got) ++ (m.answer? o).toList) rest

/-! ## One call -/

theorem answer?_poll (m : Machine) : m.answer? .poll = m.keypad.presses.head? := by
  show m.keypad.poll.2 = _
  unfold Keypad.poll
  cases m.keypad.presses with
  | nil => rfl
  | cons k rest => rfl

theorem answer?_of_keyEvent (m : Machine) {o : Operation} (ho : o.isKeyEvent = true) :
    m.answer? o = none := by
  cases o with
  | press z | release z =>
      simp only [answer?, perform, onKey]
      cases Key.ofInt? z <;> rfl
  | releaseAll => rfl
  | _ => simp only [Operation.isKeyEvent, Bool.false_eq_true] at ho

/-- A call leaves the keys where the operation puts them. What it takes from the queue is its
answer, and what it adds is the key that goes down. -/
theorem keypad_call (m : Machine) {o : Operation} (ho : o.isKeypadCall = true) :
    (m.perform o).machine.keypad.down = o.keysAfter m.keypad.down ∧
      (m.answer? o).toList ++ (m.perform o).machine.keypad.presses =
        (if o.discards then [] else m.keypad.presses) ++
          (o.lowered? m.keypad.down).toList := by
  -- key events answer nothing, and what they do to the keypad is known
  by_cases hevent : o.isKeyEvent = true
  · obtain ⟨hdown, hpresses⟩ := keypad_perform m hevent
    rw [answer?_of_keyEvent m hevent]
    exact ⟨hdown, hpresses⟩
  cases o with
  | press z | release z | releaseAll => exact absurd rfl hevent
  | flush => exact ⟨rfl, rfl⟩
  | poll =>
      rw [answer?_poll]
      show (m.keypad.poll.1).down = _ ∧ _ ++ (m.keypad.poll.1).presses = _ ++ []
      unfold Keypad.poll
      cases hp : m.keypad.presses with
      | nil =>
          refine ⟨rfl, ?_⟩
          rw [hp]
          rfl
      | cons k rest => exact ⟨rfl, (List.append_nil _).symm⟩
  | _ => simp only [Operation.isKeypadCall, Bool.false_eq_true] at ho

/-! ## Lists of calls -/

theorem down_after (m : Machine) {ops : List Operation}
    (ho : ∀ o ∈ ops, o.isKeypadCall = true) :
    (m.after ops).keypad.down = keysAfter m.keypad.down ops := by
  induction ops generalizing m with
  | nil => rfl
  | cons o rest ih =>
      rw [List.forall_mem_cons] at ho
      rw [after_cons, ih _ ho.2, (keypad_call m ho.1).1]
      rfl

/-- No press is lost, and none comes twice or out of order: the answers of the polls and the queue
that is left are the old answers, the old queue and the keys that have gone down. -/
theorem delivered_append_presses (m : Machine) (got : List Key) {ops : List Operation}
    (ho : ∀ o ∈ ops, o.isKeypadCall = true) :
    m.delivered got ops ++ (m.after ops).keypad.presses =
      (if ops.any Operation.discards then [] else got ++ m.keypad.presses) ++
        lowered m.keypad.down ops := by
  induction ops generalizing m got with
  | nil => exact (List.append_nil _).symm
  | cons o rest ih =>
      rw [List.forall_mem_cons] at ho
      obtain ⟨hdown, hqueue⟩ := keypad_call m ho.1
      -- what the first call answers and what it adds goes into the old answers and the old queue
      rw [delivered, after_cons, ih _ _ ho.2, hdown, lowered, List.any_cons]
      -- a later discard hides this call altogether
      cases rest.any Operation.discards with
      | true => simp only [Bool.or_true, if_true, List.nil_append]
      | false =>
          rw [List.append_assoc _ (m.answer? o).toList, hqueue]
          cases o.discards <;> simp

/-- A key is held exactly if the last operation that concerns it was its press. -/
theorem isPressed_after {m : Machine} (hm : m.keypad = .idle) {ops : List Operation}
    (ho : ∀ o ∈ ops, o.isKeypadCall = true) (k : Key) :
    (m.after ops).keypad.isPressed k.val = true ↔
      (ops.filter (Operation.concerns k)).getLast? = some (.press k.val) := by
  rw [Keypad.isPressed_val, down_after m ho, keysAfter_eq, hm, Keypad.down_idle]
  cases (ops.filter (Operation.concerns k)).getLast? with
  | none => simp
  | some o => simp

/-- What a keypad that was idle says after any calls. It shows a key as held exactly if the last
call that concerns the key was its press. The keys that polls have answered with since presses were
last discarded, followed by the queue, are the keys that went down since, and the next poll answers
with the first of the queue. A number that is no key is refused, and is not held. -/
theorem keypad_after {m : Machine} (hm : m.keypad = .idle) {ops : List Operation}
    (ho : ∀ o ∈ ops, o.isKeypadCall = true) :
    let now := m.after ops
    (∀ k : Key,
      now.keypad.held.toList[k.val]? = some (now.keypad.isPressed k.val) ∧
      (now.keypad.isPressed k.val = true ↔
        (ops.filter (Operation.concerns k)).getLast? = some (.press k.val))) ∧
    m.delivered [] ops ++ now.keypad.presses = lowered (fun _ => false) ops ∧
    (now.perform .poll).result = .ok (.key now.keypad.presses.head?) ∧
    ∀ z : Int, ¬ (0 ≤ z ∧ z ≤ 15) →
      now.perform (.press z) = now.refused (.key ⟨z⟩) ∧
      now.perform (.release z) = now.refused (.key ⟨z⟩) ∧
      now.keypad.isPressed z = false := by
  intro now
  refine ⟨fun k => ⟨?_, isPressed_after hm ho k⟩, ?_, ?_, fun z hz => ?_⟩
  · rw [Keypad.isPressed_val, Vector.getElem?_toList]
    exact Vector.getElem?_eq_getElem k.isLt
  · have hdown : m.keypad.down = fun _ => false := by
      rw [hm]
      exact funext Keypad.down_idle
    have hpresses : m.keypad.presses = [] := by
      rw [hm]
      rfl
    rw [delivered_append_presses m [] ho, hdown, hpresses, List.append_nil, ite_self,
      List.nil_append]
  · exact congrArg (fun k => Except.ok (Reply.key k)) (answer?_poll now)
  · have hnone : Key.ofInt? z = none := dif_neg (by omega)
    refine ⟨onKey_of_missing now hnone _ _, onKey_of_missing now hnone _ _, ?_⟩
    rw [Keypad.isPressed, hnone]

end Calls

open Tracing.Off in
/-- Key `3` repeats, is polled, and goes down again before the queue is emptied. Then key `7` goes
down twice, of which one poll takes the first; a key `16` does not exist. -/
theorem keypad_after_repeats :
    let m := fresh .idle ⟨fun _ => 0, 0⟩
    let ops := [.press 3, .press 3, .poll, .release 3, .press 3, .flush, .press 7, .release 7,
      .press 16, .press 7, .release 3, .poll]
    m.delivered [] ops = [7] ∧ (m.after ops).keypad.presses = [7] ∧
      lowered (fun _ => false) ops = [7, 7] ∧
      m.delivered [] ops ++ (m.after ops).keypad.presses = lowered (fun _ => false) ops ∧
      (m.after ops).keypad.isPressed 7 = true ∧
      (m.after ops).keypad.isPressed 16 = false := by
  intro m ops
  have hcalls : ∀ o ∈ ops, o.isKeypadCall = true := by decide
  obtain ⟨hheld, hqueue, -, hmissing⟩ := keypad_after (m := m) rfl hcalls
  refine ⟨by decide +kernel, by decide +kernel, by decide +kernel, hqueue, ?_, ?_⟩
  · exact (hheld 7).2.2 (by decide)
  · exact (hmissing 16 (by decide)).2.2

end Machine

end Chip8
