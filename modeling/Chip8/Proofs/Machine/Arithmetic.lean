import Chip8.Machine.Step
import Chip8.Proofs.Instruction.Decode
import Chip8.Proofs.Memory.Block

/-!
# Arithmetic on registers that may coincide

The words of the eighth family compute with the values that their two registers hold before, and
leave a result in the first register and, most of them, a flag in the flag register. `computed?`
lists both by the last nibble of the word. Either register may be the other one, or the flag
register: what comes out is the same, except that a result in the flag register replaces the flag
(`Machine.execute_arithmetic`).
-/

set_option autoImplicit false

namespace Chip8

/-! ## Results and flags -/

/-- What a word leaves: a result for its first register, and a flag if it has one. -/
structure Computed where
  result : Int
  flag : Option Int
  deriving DecidableEq

/-- What is computed from the values `a` and `b` of two registers, by the last nibble of a word. -/
def computed? (n : Fin 16) (a b : Int) : Option Computed :=
  match n.val with
  | 0x0 => some ⟨b, none⟩
  | 0x1 => some ⟨(a.toNat ||| b.toNat : Nat), none⟩
  | 0x2 => some ⟨(a.toNat &&& b.toNat : Nat), none⟩
  | 0x3 => some ⟨(a.toNat ^^^ b.toNat : Nat), none⟩
  | 0x4 => some ⟨(a + b) % 256, some (if 255 < a + b then 1 else 0)⟩
  | 0x5 => some ⟨(a - b) % 256, some (if b < a then 1 else 0)⟩
  | 0x6 => some ⟨a / 2, some (a % 2)⟩
  | 0x7 => some ⟨(b - a) % 256, some (if a ≤ b then 1 else 0)⟩
  | 0xE => some ⟨2 * a % 256, some (a / 128)⟩
  | _ => none

/-- The machine with a flag and a result in place, the flag first. -/
def Machine.withComputed (m : Machine) (x : Register) (o : Computed) : Machine :=
  match o.flag with
  | none => m.setV x o.result
  | some flag => (m.setV flagRegister flag).setV x o.result

/-- A result replaces the flag where both go to one register, and other registers keep what they
held. -/
theorem Machine.value_withComputed (m : Machine) (x z : Register) (o : Computed) :
    (m.withComputed x o).value z =
      if z = x then o.result
      else if z = flagRegister then o.flag.getD (m.value z) else m.value z := by
  unfold withComputed
  cases o.flag with
  | none => simp [value_setV, eq_comm]
  | some flag => simp [value_setV, eq_comm]

/-- What is computed is kept in the registers. -/
theorem Machine.withComputed_eq (m : Machine) (x : Register) (o : Computed) :
    m.withComputed x o = { m with v := (m.withComputed x o).v } := by
  unfold withComputed
  cases o.flag with
  | none => rfl
  | some flag => rfl

/-! ## Words -/

namespace Word

/-- The word with given nibbles, from the most significant one on. -/
def ofNibbles (f x y n : Fin 16) : Word :=
  UInt16.ofNat (((f.val * 16 + x.val) * 16 + y.val) * 16 + n.val)

variable (f x y n : Fin 16)

theorem toNat_ofNibbles :
    (ofNibbles f x y n).toNat = ((f.val * 16 + x.val) * 16 + y.val) * 16 + n.val := by
  have hf := f.isLt
  have hx := x.isLt
  have hy := y.isLt
  have hn := n.isLt
  exact Nat.mod_eq_of_lt (by omega)

@[simp] theorem family_ofNibbles : (ofNibbles f x y n).family = f := by
  have hf := f.isLt
  apply Fin.ext
  show (ofNibbles f x y n).toNat / 4096 % 16 = f.val
  rw [toNat_ofNibbles]
  omega

@[simp] theorem x_ofNibbles : (ofNibbles f x y n).x = x := by
  have hx := x.isLt
  apply Fin.ext
  show (ofNibbles f x y n).toNat / 256 % 16 = x.val
  rw [toNat_ofNibbles]
  omega

@[simp] theorem y_ofNibbles : (ofNibbles f x y n).y = y := by
  have hy := y.isLt
  apply Fin.ext
  show (ofNibbles f x y n).toNat / 16 % 16 = y.val
  rw [toNat_ofNibbles]
  omega

@[simp] theorem n_ofNibbles : (ofNibbles f x y n).n = n := by
  have hn := n.isLt
  apply Fin.ext
  show (ofNibbles f x y n).toNat % 16 = n.val
  rw [toNat_ofNibbles]
  omega

@[simp] theorem constant_ofNibbles :
    (ofNibbles f x y n).constant = UInt8.ofNat (y.val * 16 + n.val) := by
  apply UInt8.toNat_inj.1
  show (ofNibbles f x y n).toNat % 256 = (y.val * 16 + n.val) % 256
  rw [toNat_ofNibbles]
  omega

end Word

/-! ## Instructions -/

theorem flagValue_decide (p : Prop) [Decidable p] :
    flagValue (decide p) = if p then 1 else 0 := by
  by_cases hp : p
  · rw [if_pos hp, decide_eq_true hp]
    rfl
  · rw [if_neg hp, decide_eq_false hp]
    rfl

/-- What an operation on two registers computes. -/
def Alu.computed (operation : Alu) (a b : Int) : Computed :=
  ⟨(operation.apply a b).1, (operation.apply a b).2.map flagValue⟩

/-- On the values of bytes the operations compute what their nibbles say. -/
theorem Alu.computed?_of_ofNibble? {n : Fin 16} {operation : Alu}
    (h : ofNibble? n = some operation) {a b : Int} (ha : Byte.IsValue a) (hb : Byte.IsValue b) :
    computed? n a b = some (operation.computed a b) := by
  obtain ⟨a, rfl⟩ := Int.eq_ofNat_of_zero_le ha.1
  obtain ⟨b, rfl⟩ := Int.eq_ofNat_of_zero_le hb.1
  unfold ofNibble? at h
  split at h
  case h_8 => cases h
  -- an operation with a flag leaves the number for it
  case h_5 hn | h_6 hn | h_7 hn =>
    cases h
    simp only [computed?, hn, computed, apply, lowByte, Option.map_some, flagValue_decide]
  all_goals
    next hn =>
      cases h
      simp only [computed?, hn]
      rfl

namespace Instruction

open Machine

theorem run_alu (m : Machine) (operation : Alu) (x y : Register) :
    (alu operation x y).run m =
      (m.withComputed x (operation.computed (m.value x) (m.value y))).done := by
  cases operation <;> rfl

theorem run_shiftRight (m : Machine) (x : Register) :
    (shiftRight x).run m = (m.withComputed x ⟨m.value x / 2, some (m.value x % 2)⟩).done := by
  have hflag : flagValue (decide (m.value x % 2 = 1)) = m.value x % 2 := by
    rw [flagValue_decide]
    split <;> omega
  simp only [run, withComputed, setFlag, hflag]

theorem run_shiftLeft {m : Machine} {x : Register} (hx : Byte.IsValue (m.value x)) :
    (shiftLeft x).run m =
      (m.withComputed x ⟨2 * m.value x % 256, some (m.value x / 128)⟩).done := by
  obtain ⟨h0, h1⟩ := hx
  have hflag : flagValue (decide (m.value x / 128 % 2 = 1)) = m.value x / 128 := by
    rw [flagValue_decide]
    split <;> omega
  simp only [run, withComputed, setFlag, hflag, lowByte, Int.mul_comm]

/-- A word of the eighth family with a known last nibble spells an instruction that leaves what
is computed from its registers. -/
theorem exists_spells_of_arithmetic {w : Word} (hf : w.family.val = 0x8)
    (hn : w.n.val ∈ [0x0, 0x1, 0x2, 0x3, 0x4, 0x5, 0x6, 0x7, 0xE]) {m : Machine}
    (hx : Byte.IsValue (m.value w.x)) (hy : Byte.IsValue (m.value w.y)) :
    ∃ i o, Spells w i ∧ i.entries = [] ∧
      computed? w.n (m.value w.x) (m.value w.y) = some o ∧
        i.run m = (m.withComputed w.x o).done := by
  cases ho : Alu.ofNibble? w.n with
  | some operation =>
      exact ⟨alu operation w.x w.y, _, ⟨hf, ho, rfl, rfl⟩, rfl,
        Alu.computed?_of_ofNibble? ho hx hy, run_alu m operation w.x w.y⟩
  | none =>
      -- the two nibbles that are left are those of the shifts
      have hshift : ∀ n : Fin 16, n.val ∈ [0x0, 0x1, 0x2, 0x3, 0x4, 0x5, 0x6, 0x7, 0xE] →
          Alu.ofNibble? n = none → n.val = 0x6 ∨ n.val = 0xE := by decide
      rcases hshift w.n hn ho with h6 | hE
      · exact ⟨shiftRight w.x, _, ⟨hf, h6, rfl⟩, rfl, by simp only [computed?, h6],
          run_shiftRight m w.x⟩
      · exact ⟨shiftLeft w.x, _, ⟨hf, hE, rfl⟩, rfl, by simp only [computed?, hE],
          run_shiftLeft hx⟩

end Instruction

namespace Machine

/-- Arithmetic on two registers of a machine whose registers hold bytes. What is computed from the
values before is left in the registers, whichever of them coincide, and nothing else changes. -/
theorem execute_arithmetic {m : Machine} (hv : ∀ z, Byte.IsValue (m.value z)) (x y : Register)
    {n : Fin 16} (hn : n.val ∈ [0x0, 0x1, 0x2, 0x3, 0x4, 0x5, 0x6, 0x7, 0xE]) :
    let w := Word.ofNibbles 8 x y n
    ∃ o after, computed? n (m.value x) (m.value y) = some o ∧
      m.execute? w = some ⟨after, [], .ok (some w)⟩ ∧
      after = { m with v := after.v } ∧
      ∀ z, after.value z =
        if z = x then o.result
        else if z = flagRegister then o.flag.getD (m.value z) else m.value z := by
  intro w
  have hf : w.family.val = 0x8 := congrArg Fin.val (Word.family_ofNibbles 8 x y n)
  have hnibble : w.n = n := Word.n_ofNibbles 8 x y n
  obtain ⟨i, o, hi, hentries, ho, hrun⟩ :=
    Instruction.exists_spells_of_arithmetic hf (hnibble.symm ▸ hn) (hv w.x) (hv w.y)
  simp only [w, Word.x_ofNibbles, Word.y_ofNibbles, Word.n_ofNibbles] at ho hrun
  refine ⟨o, m.withComputed x o, ho, ?_, m.withComputed_eq x o, fun z => m.value_withComputed x z o⟩
  rw [execute?, Instruction.decode?_of_spells hi, Option.map_some, execute, hrun]
  rw [hentries]
  rfl

/-- A sum goes to the flag register, where it replaces the carry that it leaves. -/
theorem execute_arithmetic_flagRegister :
    let m := ((fresh .idle ⟨fun _ => 0, 0⟩).setV flagRegister 200).setV 1 100
    ∃ after, m.execute? 0x8F14 = some ⟨after, [], .ok (some 0x8F14)⟩ ∧
      after.value flagRegister = 44 ∧ after.value 1 = 100 := by
  intro m
  have hv : ∀ z, 0 ≤ m.value z ∧ m.value z < 256 := by decide +kernel
  obtain ⟨o, after, ho, hexecute, -, hvalue⟩ :=
    execute_arithmetic hv flagRegister 1 (n := 4) (by decide)
  cases ho
  exact ⟨after, hexecute, hvalue flagRegister, hvalue 1⟩

end Machine

end Chip8
