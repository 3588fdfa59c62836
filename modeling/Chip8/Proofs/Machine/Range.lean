import Chip8.Machine.Operation
import Chip8.Proofs.Memory.Block

/-!
# The range of a machine

The registers, the counters, the timers and the depth of the stack are integers. On a machine that
only programs have worked on they stay within narrow bounds: `Machine.InRange` states these bounds
so that every instruction preserves them. The lemmas here say which single changes of a machine
stay in range; a register has to be given the value of a byte, and the arithmetic of the
instructions yields such values.
-/

set_option autoImplicit false

namespace Chip8

/-! ## Arithmetic on bytes -/

namespace Byte

/-- Values of bytes are natural numbers below 256. -/
theorem isValue_iff {z : Int} : IsValue z ↔ ∃ n : Nat, n < 256 ∧ z = n := by
  constructor
  · rintro ⟨h0, h1⟩
    exact ⟨z.toNat, by omega, by omega⟩
  · rintro ⟨n, hn, rfl⟩
    constructor <;> omega

theorem isValue_lowByte (z : Int) : IsValue (lowByte z) := by
  unfold lowByte IsValue
  omega

theorem isValue_zero : IsValue 0 :=
  ⟨Int.le_refl 0, by omega⟩

theorem isValue_flagValue (b : Bool) : IsValue (flagValue b) := by
  cases b with
  | false => exact isValue_zero
  | true => exact ⟨by show (0 : Int) ≤ 1; omega, by show (1 : Int) < 256; omega⟩

theorem isValue_fin (k : Fin 16) : IsValue k.val := by
  have h := k.isLt
  constructor <;> omega

end Byte

/-- An operation on two bytes gives a byte. -/
theorem Alu.isValue_apply (operation : Alu) {a b : Int} (ha : Byte.IsValue a)
    (hb : Byte.IsValue b) : Byte.IsValue (operation.apply a b).1 := by
  obtain ⟨m, hm, rfl⟩ := Byte.isValue_iff.1 ha
  obtain ⟨n, hn, rfl⟩ := Byte.isValue_iff.1 hb
  cases operation with
  | copy => exact hb
  -- on natural numbers the bitwise operations are those of `Nat`
  | or => exact Byte.isValue_iff.2 ⟨m ||| n, Nat.or_lt_two_pow (n := 8) hm hn, rfl⟩
  | and => exact Byte.isValue_iff.2 ⟨m &&& n, Nat.and_lt_two_pow (n := 8) m hn, rfl⟩
  | xor => exact Byte.isValue_iff.2 ⟨m ^^^ n, Nat.xor_lt_two_pow (n := 8) hm hn, rfl⟩
  | add => exact Byte.isValue_lowByte (m + n)
  | subtract => exact Byte.isValue_lowByte (m - n)
  | subtractFrom => exact Byte.isValue_lowByte (n - m)

/-- The decimal digits of a byte are bytes. -/
theorem Instruction.isValue_decimalDigits {a z : Int} (ha : Byte.IsValue a)
    (hz : z ∈ decimalDigits a) : Byte.IsValue z := by
  obtain ⟨h0, h1⟩ := ha
  simp only [decimalDigits, List.mem_cons, List.not_mem_nil, or_false] at hz
  unfold Byte.IsValue
  omega

/-! ## The invariant -/

/-- Return addresses that a call leaves: an instruction lies in front of each of them. -/
def Word.IsReturn (w : Word) : Prop :=
  2 ≤ w.toNat ∧ w.toNat ≤ memorySize

namespace Machine

theorem getElem?_firstRegisters (m : Machine) {count : Nat} {x : Register} (hx : x.val < count) :
    (m.firstRegisters count)[x.val]? = some (m.value x) := by
  rw [firstRegisters, List.getElem?_take_of_lt hx, Vector.getElem?_toList]
  exact Vector.getElem?_eq_getElem x.isLt

theorem exists_of_mem_firstRegisters (m : Machine) {count : Nat} {z : Int}
    (hz : z ∈ m.firstRegisters count) : ∃ x : Register, x.val < count ∧ m.value x = z := by
  obtain ⟨i, hi⟩ := List.mem_iff_getElem?.1 hz
  have hlt : i < count ∧ i < 16 := by
    have hlength := (List.getElem?_eq_some_iff.1 hi).1
    simpa only [firstRegisters, List.length_take, Vector.length_toList, Nat.lt_min] using hlength
  have hx := m.getElem?_firstRegisters (x := ⟨i, hlt.2⟩) hlt.1
  exact ⟨⟨i, hlt.2⟩, hlt.1, Option.some.inj (hx.symm.trans hi)⟩

/-- The bounds that hold while only programs change a machine. The slots of the stack that are not
in use are left out: they hold what was last stored in them, or zero. -/
structure InRange (m : Machine) : Prop where
  registers : ∀ x, Byte.IsValue (m.value x)
  index : 0 ≤ m.index ∧ m.index ≤ 0xFFFF
  pc : 0 ≤ m.pc ∧ m.pc ≤ 0x10FE
  depth : 0 ≤ m.depth ∧ m.depth ≤ stackSize
  stack : ∀ i : Fin stackSize, (i.val : Int) < m.depth → Word.IsReturn (m.stack.get i)
  delay : Byte.IsValue m.delay
  sound : Byte.IsValue m.sound

namespace InRange

variable {m : Machine}

theorem setV (h : m.InRange) (x : Register) {a : Int} (ha : Byte.IsValue a) :
    (m.setV x a).InRange :=
  { h with
    registers := by
      intro y
      rw [value_setV]
      split
      · exact ha
      · exact h.registers y }

theorem setFlag (h : m.InRange) (flag : Bool) : (m.setFlag flag).InRange :=
  h.setV flagRegister (Byte.isValue_flagValue flag)

theorem setFirstRegisters (h : m.InRange) (bytes : List Byte) :
    (m.setFirstRegisters bytes).InRange :=
  { h with
    registers := by
      intro x
      rw [value_setFirstRegisters]
      cases bytes[x.val]? with
      | none => exact h.registers x
      | some b => exact Byte.isValue_toNat b }

theorem setPc (h : m.InRange) {a : Int} (ha : 0 ≤ a ∧ a ≤ 0x10FE) :
    ({ m with pc := a } : Machine).InRange :=
  { h with pc := ha }

theorem setIndex (h : m.InRange) {a : Int} (ha : 0 ≤ a ∧ a ≤ 0xFFFF) :
    ({ m with index := a } : Machine).InRange :=
  { h with index := ha }

theorem setMemory (h : m.InRange) (memory : Memory) :
    ({ m with memory } : Machine).InRange :=
  { h with }

theorem setDisplay (h : m.InRange) (display : Screen) :
    ({ m with display } : Machine).InRange :=
  { h with }

theorem setKeypad (h : m.InRange) (keypad : Keypad) (awaiting : Option Register) :
    ({ m with keypad, awaiting } : Machine).InRange :=
  { h with }

/-- A return goes to a return address, and the others stay in use. -/
theorem popped (h : m.InRange) {i : Fin stackSize} (hi : (i.val : Int) = m.depth - 1) :
    ({ m with depth := m.depth - 1, pc := (m.stack.get i).toNat } : Machine).InRange := by
  have hdepth := h.depth
  have hsize : memorySize = 4096 := rfl
  obtain ⟨h2, hend⟩ := h.stack i (by omega)
  refine { h with pc := ?_, depth := ?_, stack := ?_ }
  · show 0 ≤ ((m.stack.get i).toNat : Int) ∧ ((m.stack.get i).toNat : Int) ≤ 0x10FE
    omega
  · show 0 ≤ m.depth - 1 ∧ m.depth - 1 ≤ stackSize
    omega
  · intro k hk
    change (k.val : Int) < m.depth - 1 at hk
    exact h.stack k (by omega)

/-- A call pushes a return address, if its own instruction lies in memory. -/
theorem pushed (h : m.InRange) (hpc : 2 ≤ m.pc ∧ m.pc ≤ memorySize) {i : Fin stackSize}
    (hi : (i.val : Int) = m.depth) (target : Address) :
    ({ m with
      stack := m.stack.set i.val (UInt16.ofNat m.pc.toNat) i.isLt
      depth := m.depth + 1
      pc := target.val } : Machine).InRange := by
  have hsize : memorySize = 4096 := rfl
  have hstack : stackSize = 16 := rfl
  have hlt := i.isLt
  have ht := target.isLt
  refine { h with pc := ?_, depth := ?_, stack := ?_ }
  · show 0 ≤ (target.val : Int) ∧ (target.val : Int) ≤ 0x10FE
    omega
  · show 0 ≤ m.depth + 1 ∧ m.depth + 1 ≤ stackSize
    omega
  · intro k hk
    change (k.val : Int) < m.depth + 1 at hk
    show Word.IsReturn ((m.stack.set i.val (UInt16.ofNat m.pc.toNat) i.isLt)[k.val])
    rw [Vector.getElem_set]
    -- the new slot holds the program counter, and the older ones are untouched
    by_cases hik : i.val = k.val
    · have hw : (UInt16.ofNat m.pc.toNat).toNat = m.pc.toNat :=
        UInt16.toNat_ofNat_of_lt' (show m.pc.toNat < 65536 by omega)
      rw [if_pos hik, Word.IsReturn, hw]
      omega
    · rw [if_neg hik]
      exact h.stack k (by omega)

theorem tick (h : m.InRange) : m.tick.InRange := by
  have hc : ∀ z, Byte.IsValue z → Byte.IsValue (countDown z) := by
    intro z hz
    unfold countDown Byte.IsValue at *
    split <;> omega
  exact { h with delay := hc _ h.delay, sound := hc _ h.sound }

end InRange

/-- A machine with cleared registers is in range, whatever is in its memory and on its display. -/
theorem inRange_of_cleared {m : Machine} (hv : m.v = Vector.replicate 16 0)
    (hindex : m.index = 0) (hpc : m.pc = programStart) (hdepth : m.depth = 0)
    (hdelay : m.delay = 0) (hsound : m.sound = 0) : m.InRange where
  registers := by
    intro x
    have hx : m.value x = 0 := by
      show m.v[x.val] = 0
      simp only [hv, Vector.getElem_replicate]
    rw [hx]
    exact Byte.isValue_zero
  index := by omega
  pc := by
    rw [hpc]
    exact ⟨by show (0 : Int) ≤ 512; omega, by show (512 : Int) ≤ 4350; omega⟩
  depth := by omega
  stack := by
    intro i hi
    omega
  delay := hdelay ▸ Byte.isValue_zero
  sound := hsound ▸ Byte.isValue_zero

theorem inRange_reset (m : Machine) : m.reset.InRange :=
  inRange_of_cleared rfl rfl rfl rfl rfl rfl

theorem inRange_fresh (keypad : Keypad) (random : RandomSource) :
    (fresh keypad random).InRange :=
  inRange_of_cleared rfl rfl rfl rfl rfl rfl

end Machine

end Chip8
