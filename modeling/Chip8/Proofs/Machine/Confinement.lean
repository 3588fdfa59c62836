import Chip8.Proofs.Instruction.Table
import Chip8.Proofs.Machine.Arithmetic
import Chip8.Proofs.Machine.Footprint
import Chip8.Proofs.Machine.Patch

/-!
# What a word lets a step change

A machine is divided into its parts: the bytes of memory, the registers, the display, and so on.
`Word.Touches` says, by the fields of a word and the index, which parts the word may change.
Whatever a step fetches, it changes the program counter and the parts that the word touches, and no
others; a word that dispatches to nothing changes the program counter only
(`Machine.step_confined`). Together with the program counter the parts are all there is of a
machine (`Machine.eq_of_same`), so nothing is left unsaid.
-/

set_option autoImplicit false

namespace Chip8

/-! ## Parts -/

/-- A part of a machine other than its program counter. -/
inductive Part where
  | byte (a : Nat)
  | register (x : Register)
  | display
  | stack
  | index
  | delay
  | sound
  | awaiting
  | presses
  | held
  | random
  deriving DecidableEq, Repr

/-- A part is the same in two machines. The stack is all its slots and its depth. -/
def Part.Same (m n : Machine) : Part → Prop
  | byte a => n.memory.byte a = m.memory.byte a
  | register x => n.value x = m.value x
  | display => n.display = m.display
  | stack => n.stack = m.stack ∧ n.depth = m.depth
  | index => n.index = m.index
  | delay => n.delay = m.delay
  | sound => n.sound = m.sound
  | awaiting => n.awaiting = m.awaiting
  | presses => n.keypad.presses = m.keypad.presses
  | held => n.keypad.held = m.keypad.held
  | random => n.random = m.random

/-- Machines with the same parts differ in their program counters at most. -/
theorem Machine.eq_of_same {m n : Machine} (h : ∀ p : Part, p.Same m n) :
    n = { m with pc := n.pc } := by
  have hmemory : n.memory = m.memory := Memory.ext_byte fun a _ => h (.byte a)
  have hv : n.v = m.v := Vector.ext fun x hx => h (.register ⟨x, hx⟩)
  have hdisplay : n.display = m.display := h .display
  have hstack : n.stack = m.stack ∧ n.depth = m.depth := h .stack
  have hindex : n.index = m.index := h .index
  have hdelay : n.delay = m.delay := h .delay
  have hsound : n.sound = m.sound := h .sound
  have hawaiting : n.awaiting = m.awaiting := h .awaiting
  have hpresses : n.keypad.presses = m.keypad.presses := h .presses
  have hheld : n.keypad.held = m.keypad.held := h .held
  have hrandom : n.random = m.random := h .random
  have hkeypad : n.keypad = m.keypad := by
    show (⟨n.keypad.held, n.keypad.presses⟩ : Keypad) = ⟨m.keypad.held, m.keypad.presses⟩
    rw [hheld, hpresses]
  obtain ⟨hslots, hdepth⟩ := hstack
  cases n with
  | mk memory display keypad random v index pc stack depth delay sound awaiting =>
      subst hmemory hv hdisplay hindex hdelay hsound hawaiting hrandom hkeypad hslots hdepth
      rfl

/-! ## Words -/

namespace Word

/-- The word belongs to the last family and ends in a given byte. -/
def Misc (w : Word) (k : Byte) : Prop :=
  w.family.val = 0xF ∧ w.constant = k

/-- The word is for arithmetic on registers: its family is the eighth, and its last nibble is one
of a list. -/
def Arithmetic (w : Word) (nibbles : List Nat) : Prop :=
  w.family.val = 0x8 ∧ w.n.val ∈ nibbles

/-- The register goes by the first operand of a word that computes something for it. -/
def Targets (w : Word) (x : Register) : Prop :=
  x = w.x ∧ (w.family.val = 0x6 ∨ w.family.val = 0x7 ∨ w.family.val = 0xC ∨ w.Misc 0x07 ∨
    w.Arithmetic [0x0, 0x1, 0x2, 0x3, 0x4, 0x5, 0x6, 0x7, 0xE])

/-- The word has a flag to leave. -/
def Flags (w : Word) : Prop :=
  w.Arithmetic [0x4, 0x5, 0x6, 0x7, 0xE] ∨ w.family.val = 0xD ∨ w.Misc 0x1E

/-- The parts that a word may change, where `index` is the index before. -/
def Touches (w : Word) (index : Int) : Part → Prop
  | .byte a =>
    w.Misc 0x33 ∧ index ≤ a ∧ a ≤ index + 2 ∨ w.Misc 0x55 ∧ index ≤ a ∧ a ≤ index + w.x.val
  | .register x => w.Targets x ∨ x = flagRegister ∧ w.Flags ∨ x ≤ w.x ∧ w.Misc 0x65
  | .display => w = 0x00E0 ∨ w.family.val = 0xD
  | .stack => w = 0x00EE ∨ w.family.val = 0x2
  | .index => w.family.val = 0xA ∨ w.Misc 0x1E ∨ w.Misc 0x29 ∨ w.Misc 0x55 ∨ w.Misc 0x65
  | .delay => w.Misc 0x15
  | .sound => w.Misc 0x18
  | .awaiting | .presses => w.Misc 0x0A
  | .held => False
  | .random => w.family.val = 0xC

instance (w : Word) (k : Byte) : Decidable (w.Misc k) :=
  inferInstanceAs (Decidable (_ ∧ _))

instance (w : Word) (nibbles : List Nat) : Decidable (w.Arithmetic nibbles) :=
  inferInstanceAs (Decidable (_ ∧ _))

instance (w : Word) (x : Register) : Decidable (w.Targets x) :=
  inferInstanceAs (Decidable (_ ∧ _))

instance (w : Word) : Decidable w.Flags :=
  inferInstanceAs (Decidable (_ ∨ _))

instance (w : Word) (index : Int) : DecidablePred (w.Touches index)
  | .byte _ | .register _ | .display | .stack | .index => inferInstanceAs (Decidable (_ ∨ _))
  | .delay | .sound | .awaiting | .presses => inferInstanceAs (Decidable (w.Misc _))
  | .held => inferInstanceAs (Decidable False)
  | .random => inferInstanceAs (Decidable (_ = _))

end Word

namespace Alu

variable {n : Fin 16} {operation : Alu}

/-- The last nibbles of the words for operations on two registers. -/
theorem mem_of_ofNibble? (h : ofNibble? n = some operation) :
    n.val ∈ [0x0, 0x1, 0x2, 0x3, 0x4, 0x5, 0x6, 0x7, 0xE] := by
  revert n
  cases operation <;> decide

/-- An operation whose nibble is not that of one with a flag computes none. -/
theorem flag_of_ofNibble? (h : ofNibble? n = some operation)
    (hn : n.val ∉ [0x4, 0x5, 0x6, 0x7, 0xE]) (a b : Int) :
    (operation.computed a b).flag = none := by
  cases operation with
  | copy | or | and | xor => rfl
  | add | subtract | subtractFrom =>
      refine absurd h ?_
      revert n
      decide

end Alu

/-! ## Registers -/

namespace Machine

theorem value_setV_of_ne (m : Machine) {x z : Register} (a : Int) (hz : z ≠ x) :
    (m.setV x a).value z = m.value z := by
  rw [value_setV, if_neg hz.symm]

theorem value_setFlag_of_ne (m : Machine) (flag : Bool) {z : Register} (hz : z ≠ flagRegister) :
    (m.setFlag flag).value z = m.value z :=
  value_setV_of_ne m (flagValue flag) hz

theorem value_setFirstRegisters_of_not_le {bytes : List Byte} {m : Machine} {last x : Register}
    (hlength : bytes.length = last.val + 1) (hx : ¬ x ≤ last) :
    (m.setFirstRegisters bytes).value x = m.value x := by
  have hbehind : bytes.length ≤ x.val := by
    rw [hlength]
    exact Nat.lt_of_not_le hx
  rw [value_setFirstRegisters, List.getElem?_eq_none hbehind]
  rfl

/-- What is computed changes the first register, and the flag register if there is a flag. -/
theorem value_withComputed_of_ne {m : Machine} {x z : Register} {o : Computed} (hx : z ≠ x)
    (hflag : z = flagRegister → o.flag = none) : (m.withComputed x o).value z = m.value z := by
  rw [value_withComputed, if_neg hx]
  by_cases hz : z = flagRegister
  · rw [if_pos hz, hflag hz]
    rfl
  · rw [if_neg hz]

end Machine

namespace Instruction

open Machine

/-- A register that a word does not touch keeps its value when the word's instruction runs. -/
theorem value_of_untouched {m : Machine} (h : m.InRange) {w : Word} {i : Instruction}
    (hi : Spells w i) (ho : i.obstacle m = none) {z : Register}
    (hz : ¬ w.Touches m.index (.register z)) : (i.run m).machine.value z = m.value z := by
  have htarget : ¬ w.Targets z := fun h => hz (.inl h)
  have hflag : z = flagRegister → ¬ w.Flags := fun h hw => hz (.inr (.inl ⟨h, hw⟩))
  have hlast : w.Misc 0x65 → ¬ z ≤ w.x := fun hw h => hz (.inr (.inr ⟨h, hw⟩))
  cases i with
  | load x k =>
      obtain ⟨hf, rfl, -⟩ := hi
      exact value_setV_of_ne m _ fun hx => htarget ⟨hx, .inl hf⟩
  | addConstant x k =>
      obtain ⟨hf, rfl, -⟩ := hi
      exact value_setV_of_ne m _ fun hx => htarget ⟨hx, .inr (.inl hf)⟩
  | random x mask =>
      obtain ⟨hf, rfl, -⟩ := hi
      exact value_setV_of_ne m _ fun hx => htarget ⟨hx, .inr (.inr (.inl hf))⟩
  | readDelay x =>
      obtain ⟨hf, hk, rfl⟩ := hi
      exact value_setV_of_ne m _ fun hx => htarget ⟨hx, .inr (.inr (.inr (.inl ⟨hf, hk⟩)))⟩
  | alu operation x y =>
      obtain ⟨hf, hn, rfl, -⟩ := hi
      rw [run_alu]
      refine value_withComputed_of_ne (fun hx => htarget ⟨hx, ?_⟩) fun hx => ?_
      · exact .inr (.inr (.inr (.inr ⟨hf, Alu.mem_of_ofNibble? hn⟩)))
      · exact Alu.flag_of_ofNibble? hn (fun hmem => hflag hx (.inl ⟨hf, hmem⟩)) _ _
  -- the shifts leave their flag first, and their result over it
  | shiftRight x | shiftLeft x =>
      obtain ⟨hf, hn, rfl⟩ := hi
      have hx : z ≠ w.x := fun hx =>
        htarget ⟨hx, .inr (.inr (.inr (.inr ⟨hf, by rw [hn]; decide⟩)))⟩
      have hF : z ≠ flagRegister := fun hF => hflag hF (.inl ⟨hf, by rw [hn]; decide⟩)
      exact (value_setV_of_ne _ _ hx).trans (value_setFlag_of_ne m _ hF)
  | draw x y rows =>
      have hF : z ≠ flagRegister := fun hF => hflag hF (.inr (.inl hi.1))
      simp only [run]
      generalize m.display.draw m.memory rows.val m.index (m.value x) (m.value y) = drawn
      cases drawn with
      | error reason => rfl
      | ok drawn => exact value_setFlag_of_ne _ _ hF
  | advanceIndex x =>
      obtain ⟨hf, hk, -⟩ := hi
      have hF : z ≠ flagRegister := fun hF => hflag hF (.inr (.inr ⟨hf, hk⟩))
      exact value_setFlag_of_ne m _ hF
  | restore last =>
      obtain ⟨hf, hk, rfl⟩ := hi
      have h0 := h.index.1
      have hfits := overrun_eq_none_iff.1 ho
      have hstop : (m.index + (w.x.val + 1)).toNat = m.index.toNat + (w.x.val + 1) := by omega
      rw [run_restore h w.x ho, hstop]
      exact value_setFirstRegisters_of_not_le (m.memory.length_slice (by omega)) (hlast ⟨hf, hk⟩)
  | _ =>
    rw [run_eq_patch]
    rfl

/-! ## Other parts -/

/-- A part that a word does not touch is the same when the word's instruction has run. The bytes
of memory are left to the footprint of a cycle. -/
theorem same_run_of_untouched {m : Machine} (h : m.InRange) {w : Word} {i : Instruction}
    (hi : Spells w i) (ho : i.obstacle m = none) {p : Part} (hbyte : ∀ a, p ≠ .byte a)
    (hp : ¬ w.Touches m.index p) : p.Same m (i.run m).machine := by
  cases p with
  | byte a => exact absurd rfl (hbyte a)
  | register z => exact value_of_untouched h hi ho hp
  -- of every other part it is known which instructions can change it, and these words touch it
  | display =>
      rw [run_eq_patch]
      cases i with
      | clear => exact absurd (.inl hi) hp
      | draw x y rows => exact absurd (.inr hi.1) hp
      | _ => rfl
  | stack =>
      rw [run_eq_patch]
      cases i with
      | ret => exact absurd (.inl hi) hp
      | call target => exact absurd (.inr hi.1) hp
      | _ => exact ⟨rfl, rfl⟩
  | index =>
      rw [run_eq_patch]
      cases i with
      | setIndex target => exact absurd (.inl hi.1) hp
      | advanceIndex x => exact absurd (.inr (.inl ⟨hi.1, hi.2.1⟩)) hp
      | glyph x => exact absurd (.inr (.inr (.inl ⟨hi.1, hi.2.1⟩))) hp
      | store last => exact absurd (.inr (.inr (.inr (.inl ⟨hi.1, hi.2.1⟩)))) hp
      | restore last => exact absurd (.inr (.inr (.inr (.inr ⟨hi.1, hi.2.1⟩)))) hp
      | _ => rfl
  | delay =>
      rw [run_eq_patch]
      cases i with
      | setDelay x => exact absurd ⟨hi.1, hi.2.1⟩ hp
      | _ => rfl
  | sound =>
      rw [run_eq_patch]
      cases i with
      | setSound x => exact absurd ⟨hi.1, hi.2.1⟩ hp
      | _ => rfl
  | awaiting | presses =>
      rw [run_eq_patch]
      cases i with
      | awaitKey x => exact absurd ⟨hi.1, hi.2.1⟩ hp
      | _ => rfl
  | held =>
      rw [run_eq_patch]
      -- a wait empties the queue of the keypad, and nothing else sees the keypad at all
      cases i <;> rfl
  | random =>
      rw [run_eq_patch]
      cases i with
      | random x mask => exact absurd hi.1 hp
      | _ => rfl

end Instruction

namespace Machine

theorem same_passed (m : Machine) (p : Part) : p.Same m m.passed := by
  cases p with
  | stack => exact ⟨rfl, rfl⟩
  | _ => rfl

/-- The parts of a machine that has passed a word are those of the machine before. -/
theorem same_passed_iff {m n : Machine} {p : Part} : p.Same m.passed n ↔ p.Same m n := by
  cases p <;> exact Iff.rfl

section Steps

variable [Tracing]

/-- A cycle leaves the parts alone that the word at the program counter does not touch. -/
theorem same_cycle_of_untouched {m : Machine} (h : m.InRange) (hpc : m.pc < 0xFFF) {p : Part}
    (hp : ¬ m.word.Touches m.index p) : p.Same m m.cycle.machine := by
  have hc := cycle_mem h
  by_cases hbyte : ∃ a, p = .byte a
  · obtain ⟨a, rfl⟩ := hbyte
    refine memory_cycle_of_not_writes h fun hw => hp ?_
    cases hw with
    | decimal _ hf hk ha => exact .inl ⟨⟨hf, hk⟩, ha⟩
    | registers _ hf hk ha => exact .inr ⟨⟨hf, hk⟩, ha⟩
  · generalize m.cycle = s at hc ⊢
    cases hc with
    | noWord hle => exact absurd hpc (Int.not_lt.2 hle)
    | unknown _ hw => exact same_passed m p
    | obstructed _ hw ho => exact same_passed m p
    | completed _ hw ho =>
        have hi := Instruction.spells_of_decode? hw
        have hrun := Instruction.same_run_of_untouched (h.passed hpc).1 hi ho
          (fun a ha => hbyte ⟨a, ha⟩) hp
        exact same_passed_iff.1 hrun

/-- A cycle draws one random byte if the word asks for it, and none otherwise. -/
theorem random_cycle {m : Machine} (h : m.InRange) (hpc : m.pc < 0xFFF) :
    m.cycle.machine.random =
      if m.word.family.val = 0xC then m.random.advance else m.random := by
  by_cases hf : m.word.family.val = 0xC
  · have hw := Instruction.decode?_of_spells
      (i := .random m.word.x m.word.constant) ⟨hf, rfl, rfl⟩
    rw [if_pos hf, cycle_of_clear h hpc hw rfl]
    rfl
  · rw [if_neg hf]
    exact same_cycle_of_untouched h hpc (p := .random) hf

/-- A word that waits for a key makes its register wait, and empties the queue. -/
theorem waiting_cycle {m : Machine} (h : m.InRange) (hpc : m.pc < 0xFFF)
    (hw : m.word.Misc 0x0A) :
    m.cycle.machine.awaiting = some m.word.x ∧ m.cycle.machine.keypad.presses = [] := by
  have hi := Instruction.decode?_of_spells (i := .awaitKey m.word.x) ⟨hw.1, hw.2, rfl⟩
  rw [cycle_of_clear h hpc hi rfl]
  exact ⟨rfl, rfl⟩

/-! ## Steps -/

/-- A machine comes from another by a cycle that keeps to its word. -/
structure Confined (m after : Machine) : Prop where
  untouched : ∀ p, ¬ m.word.Touches m.index p → p.Same m after
  counter : (∀ p, ¬ m.word.Touches m.index p) → after = { m with pc := after.pc }
  random : after.random = if m.word.family.val = 0xC then m.random.advance else m.random
  waiting : m.word.Misc 0x0A → after.awaiting = some m.word.x ∧ after.keypad.presses = []
  unknown : Instruction.lookup? m.word = none → after = m.passed

theorem confined_cycle {m : Machine} (h : m.InRange) (hpc : m.pc < 0xFFF) :
    m.Confined m.cycle.machine where
  untouched := fun _ hp => same_cycle_of_untouched h hpc hp
  counter := fun hp => eq_of_same fun p => same_cycle_of_untouched h hpc (hp p)
  random := random_cycle h hpc
  waiting := waiting_cycle h hpc
  unknown := by
    intro hw
    rw [Instruction.lookup?_eq_decode?] at hw
    rw [cycle_of_unknown h.pc.1 hpc hw]

/-- A step of a reachable machine that still waits for a key changes nothing. Any other step may
deliver a key first, which is seen by the awaited register, the wait and the queue only. Then it
finds no word and changes nothing more, or it keeps to the word that it fetches. -/
theorem step_confined {m : Machine} (h : m.Reachable) :
    (m.answered? = none → m.step.machine = m) ∧
      ∀ d, m.answered? = some d →
        (m.awaiting = none ∧ d = m ∨
          ∃ x k rest, m.awaiting = some x ∧ m.keypad.presses = k :: rest ∧
            d = { m.setV x k.val with
              keypad := { m.keypad with presses := rest }, awaiting := none }) ∧
        (0xFFF ≤ d.pc → m.step.machine = d) ∧
        (d.pc < 0xFFF → d.Confined m.step.machine) := by
  refine ⟨fun hd => by rw [step_of_unanswered hd], fun d hd => ?_⟩
  have hrange : d.InRange := h.inRange.answered hd
  rw [step_of_answered hd]
  refine ⟨answered?_eq_some hd, fun hpc => ?_, fun hpc => confined_cycle hrange hpc⟩
  rw [cycle_of_le hpc]

end Steps

open Tracing.Off in
/-- A step delivers key `5` to register `1`, and then puts its three digits in memory. The byte
behind them and the stack stay as they were. -/
theorem step_confined_digits :
    let m := (fresh .idle ⟨fun _ => 0, 0⟩).after
      [.init [0xA3, 0x00, 0xF1, 0x0A, 0xF1, 0x33], .step, .step, .press 5]
    let d := { m.setV 1 5 with keypad := { m.keypad with presses := [] }, awaiting := none }
    m.Reachable ∧ m.answered? = some d ∧ d.word = 0xF133 ∧ d.Confined m.step.machine ∧
      m.step.machine.memory.byte 0x303 = d.memory.byte 0x303 ∧
      m.step.machine.memory.byte 0x302 ≠ d.memory.byte 0x302 := by
  intro m d
  have h : m.Reachable := (Reachable.fresh _ _).after (by decide)
  have hx : m.awaiting = some 1 := by decide +kernel
  have hp : m.keypad.presses = [5] := by decide +kernel
  have hd : m.answered? = some d := by
    simp only [answered?, hx, hp]
    rfl
  have hconfined : d.Confined m.step.machine :=
    ((step_confined h).2 d hd).2.2 (by decide +kernel)
  exact ⟨h, hd, by decide +kernel, hconfined,
    hconfined.untouched (.byte 0x303) (by decide +kernel), by decide +kernel⟩

end Machine

end Chip8
