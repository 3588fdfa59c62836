import Chip8.Machine.Operation

/-!
# Keys that go down

Which keys go from up to down during a list of operations, told from the operations and from the
keys that are down at the start, and not from any queue. `Operation.keysAfter` follows the keys
themselves, `lowered` lists those that go down. Pressing, letting go and letting go of everything
keep a keypad in step with both (`Machine.keypad_perform`).
-/

set_option autoImplicit false

namespace Chip8

theorem Key.ofInt?_eq_some_iff {z : Int} {k : Key} : Key.ofInt? z = some k ↔ z = k.val := by
  unfold Key.ofInt?
  constructor
  · intro h
    split at h
    next hz =>
      cases h
      exact (Int.toNat_of_nonneg hz.1).symm
    next => cases h
  · rintro rfl
    have hlt := k.isLt
    rw [dif_pos ⟨by omega, by omega⟩]
    exact congrArg some (Fin.ext (Int.toNat_natCast k.val))

namespace Operation

/-- Which keys are down after an operation, given which were before it. -/
def keysAfter (down : Key → Bool) : Operation → Key → Bool
  | press z, k => down k || z == k.val
  | release z, k => down k && z != k.val
  | releaseAll, _ => false
  | _, k => down k

/-- The key that an operation brings from up to down. -/
def lowered? (down : Key → Bool) : Operation → Option Key
  | press z => (Key.ofInt? z).filter fun k => !down k
  | _ => none

/-- Whether an operation discards the presses that came before it. -/
def discards : Operation → Bool
  | releaseAll | flush => true
  | _ => false

end Operation

/-- Which keys are down after a list of operations. -/
def keysAfter (down : Key → Bool) (ops : List Operation) : Key → Bool :=
  ops.foldl Operation.keysAfter down

/-- The keys that go from up to down during a list of operations, the oldest first, since presses
were last discarded. -/
def lowered (down : Key → Bool) : List Operation → List Key
  | [] => []
  | o :: rest =>
    let later := lowered (o.keysAfter down) rest
    if rest.any Operation.discards then later else (o.lowered? down).toList ++ later

theorem keysAfter_concat (down : Key → Bool) (ops : List Operation) (o : Operation) :
    keysAfter down (ops ++ [o]) = o.keysAfter (keysAfter down ops) := by
  rw [keysAfter, List.foldl_append]
  rfl

/-- The last operation adds the key that it brings down, or discards everything. -/
theorem lowered_concat (down : Key → Bool) (ops : List Operation) (o : Operation) :
    lowered down (ops ++ [o]) =
      (if o.discards then [] else lowered down ops) ++
        (o.lowered? (keysAfter down ops)).toList := by
  induction ops generalizing down with
  | nil => simp [lowered, keysAfter]
  | cons first rest ih =>
      have hkeys : keysAfter down (first :: rest) = keysAfter (first.keysAfter down) rest := rfl
      rw [List.cons_append, lowered, ih, hkeys, lowered, List.any_append, List.any_cons]
      -- an earlier discard hides the first key, and so does the last operation's own
      cases o.discards <;> cases rest.any Operation.discards <;> simp

/-- A key that is down from the start and is not let go never goes down. -/
theorem not_mem_lowered {down : Key → Bool} {ops : List Operation} {k : Key}
    (hdown : down k = true) (hkept : ∀ o ∈ ops, o ≠ .release k.val ∧ o ≠ .releaseAll) :
    k ∉ lowered down ops := by
  induction ops generalizing down with
  | nil => exact List.not_mem_nil
  | cons o rest ih =>
      obtain ⟨hrelease, hall⟩ := hkept o List.mem_cons_self
      have hstill : o.keysAfter down k = true := by
        cases o with
        | press z => simp [Operation.keysAfter, hdown]
        | release z =>
            have hz : z ≠ k.val := fun h => hrelease (h ▸ rfl)
            simp [Operation.keysAfter, hdown, hz]
        | releaseAll => exact absurd rfl hall
        | _ => exact hdown
      have hfirst : k ∉ (o.lowered? down).toList := by
        cases o with
        | press z => simp [Operation.lowered?, hdown]
        | _ => exact List.not_mem_nil
      have hlater := ih hstill fun p hp => hkept p (List.mem_cons_of_mem o hp)
      rw [lowered]
      split
      next => exact hlater
      next => exact fun hmem => (List.mem_append.1 hmem).elim hfirst hlater

/-! ## The keypad of a machine -/

namespace Keypad

theorem down_press (p : Keypad) (k j : Key) :
    (p.press k).down j = (p.down j || decide (k = j)) := by
  unfold press
  cases hk : p.held[k] with
  | true =>
      by_cases hkj : k = j
      · subst hkj
        simpa [down] using hk
      · simp [hkj]
  | false => simp [down_set, Bool.or_comm]

theorem presses_press (p : Keypad) (k : Key) :
    (p.press k).presses = p.presses ++ if p.down k then [] else [k] := by
  unfold press down
  cases p.held[k] with
  | true => simp
  | false => simp

theorem down_release (p : Keypad) (k j : Key) :
    (p.release k).down j = (p.down j && !decide (k = j)) := by
  rw [release, down_set]
  by_cases hkj : k = j
  · simp [hkj]
  · simp [hkj]

theorem down_idle (k : Key) : idle.down k = false :=
  Vector.getElem_replicate ..

end Keypad

/-- The operations by which a front end works the keys. -/
def Operation.isKeyEvent : Operation → Bool
  | press _ | release _ | releaseAll => true
  | _ => false

theorem Key.beq_val (k j : Key) : ((k.val : Int) == j.val) = decide (k = j) := by
  rw [Bool.eq_iff_iff, beq_iff_eq, decide_eq_true_iff, Int.ofNat_inj, Fin.ext_iff]

/-- A number that no key has is none of the keys. -/
theorem Key.beq_val_of_ofInt?_eq_none {z : Int} (hz : Key.ofInt? z = none) (k : Key) :
    (z == (k.val : Int)) = false := by
  refine beq_false_of_ne fun h => ?_
  rw [Key.ofInt?_eq_some_iff.2 h] at hz
  cases hz

namespace Machine

theorem onKey_of_key (m : Machine) (k : Key) (act : Keypad → Key → Keypad) (note : Key → Entry) :
    m.onKey k.val act note = ⟨{ m with keypad := act m.keypad k }, [note k], .ok .done⟩ := by
  rw [onKey, Key.ofInt?_eq_some_iff.2 rfl]

theorem onKey_of_missing (m : Machine) {z : Int} (hz : Key.ofInt? z = none)
    (act : Keypad → Key → Keypad) (note : Key → Entry) :
    m.onKey z act note = m.refused (.key ⟨z⟩) := by
  rw [onKey, hz]

variable [Tracing]

/-- A machine's keypad follows the keys, and its queue takes the keys that go down. -/
theorem keypad_perform (m : Machine) {o : Operation} (ho : o.isKeyEvent = true) :
    (m.perform o).machine.keypad.down = o.keysAfter m.keypad.down ∧
      (m.perform o).machine.keypad.presses =
        (if o.discards then [] else m.keypad.presses) ++ (o.lowered? m.keypad.down).toList := by
  cases o with
  | press z =>
      change (m.onKey z .press .keyDown).machine.keypad.down = _ ∧
        (m.onKey z .press .keyDown).machine.keypad.presses = _
      cases hz : Key.ofInt? z with
      | none =>
          rw [onKey_of_missing m hz]
          refine ⟨funext fun j => ?_, ?_⟩
          · simp [Operation.keysAfter, Key.beq_val_of_ofInt?_eq_none hz, refused]
          · simp [Operation.lowered?, Operation.discards, hz, refused]
      | some k =>
          obtain rfl := Key.ofInt?_eq_some_iff.1 hz
          rw [onKey_of_key]
          refine ⟨funext fun j => ?_, (m.keypad.presses_press k).trans ?_⟩
          · simp only [Operation.keysAfter, Key.beq_val]
            exact m.keypad.down_press k j
          · cases hdown : m.keypad.down k with
            | true => simp [Operation.lowered?, Operation.discards, hz, hdown, Option.filter]
            | false => simp [Operation.lowered?, Operation.discards, hz, hdown, Option.filter]
  | release z =>
      change (m.onKey z .release .keyUp).machine.keypad.down = _ ∧
        (m.onKey z .release .keyUp).machine.keypad.presses = _
      cases hz : Key.ofInt? z with
      | none =>
          rw [onKey_of_missing m hz]
          refine ⟨funext fun j => ?_, (List.append_nil _).symm⟩
          simp [Operation.keysAfter, bne, Key.beq_val_of_ofInt?_eq_none hz, refused]
      | some k =>
          obtain rfl := Key.ofInt?_eq_some_iff.1 hz
          rw [onKey_of_key]
          refine ⟨funext fun j => ?_, (List.append_nil _).symm⟩
          simp only [Operation.keysAfter, bne, Key.beq_val]
          exact m.keypad.down_release k j
  | releaseAll => exact ⟨funext Keypad.down_idle, rfl⟩
  | _ => simp only [Operation.isKeyEvent, Bool.false_eq_true] at ho

end Machine

end Chip8
