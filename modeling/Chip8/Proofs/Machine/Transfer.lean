import Chip8.Proofs.Machine.Arithmetic
import Chip8.Proofs.Machine.Execution

/-!
# Registers in memory

One word stores the first registers from the index on, and another one restores them from there;
both leave the index behind the block. What was stored comes back, whatever has happened in the
meantime to registers and to bytes outside the block, and storing what was just restored changes no
byte (`Machine.restore_inverts_store`).
-/

set_option autoImplicit false

namespace Chip8

/-! ## Words -/

namespace Instruction

theorem spells_store (x : Register) : Spells (Word.ofNibbles 0xF x 5 5) (store x) :=
  ⟨congrArg Fin.val (Word.family_ofNibbles ..), Word.constant_ofNibbles ..,
    (Word.x_ofNibbles ..).symm⟩

theorem spells_restore (x : Register) : Spells (Word.ofNibbles 0xF x 6 5) (restore x) :=
  ⟨congrArg Fin.val (Word.family_ofNibbles ..), Word.constant_ofNibbles ..,
    (Word.x_ofNibbles ..).symm⟩

end Instruction

namespace Machine

/-- A word is executed by running the instruction that it spells. -/
theorem execute?_of_done {m after : Machine} {w : Word} {i : Instruction}
    (hi : Instruction.Spells w i) (hentries : i.entries = []) (hrun : i.run m = after.done) :
    m.execute? w = some ⟨after, [], .ok (some w)⟩ := by
  rw [execute?, Instruction.decode?_of_spells hi, Option.map_some, execute, hrun]
  exact congrArg (fun entries => some (Step.mk after entries (.ok (some w)))) hentries

/-! ## Blocks of registers -/

/-- The bytes that a store leaves: those of the registers within the block, and the old ones
outside. -/
theorem byte_store {m : Machine} {x : Register} (h0 : 0 ≤ m.index)
    (h : m.index + (x.val + 1) ≤ memorySize) :
    let bytes := (m.firstRegisters (x.val + 1)).map fun z => UInt8.ofNat z.toNat
    (∀ y ≤ x, (m.memory.poke m.index.toNat bytes).byte (m.index.toNat + y.val) =
      UInt8.ofNat (m.value y).toNat) ∧
    ∀ a : Nat, ¬ (m.index ≤ a ∧ a ≤ m.index + x.val) →
      (m.memory.poke m.index.toNat bytes).byte a = m.memory.byte a := by
  intro bytes
  have hlength : bytes.length = x.val + 1 := by
    rw [List.length_map, m.length_firstRegisters x]
  constructor
  · intro y hy
    have hle : y.val ≤ x.val := hy
    have hentry : bytes[y.val]? = some (UInt8.ofNat (m.value y).toNat) := by
      rw [List.getElem?_map, m.getElem?_firstRegisters (Nat.lt_succ_of_le hle)]
      rfl
    rw [Memory.byte_poke, hlength, if_pos (by omega), Nat.add_sub_cancel_left, hentry]
    rfl
  · intro a ha
    rw [Memory.byte_poke, hlength, if_neg (by omega)]

/-- The registers that a restore leaves: the bytes of the block, and behind them the old values. -/
theorem value_restore {m : Machine} {x : Register} (h0 : 0 ≤ m.index)
    (h : m.index + (x.val + 1) ≤ memorySize) (y : Register) :
    (m.setFirstRegisters (m.memory.slice m.index.toNat (m.index + (x.val + 1)).toNat)).value y =
      if y ≤ x then ((m.memory.byte (m.index.toNat + y.val)).toNat : Int) else m.value y := by
  have hstop : (m.index + (x.val + 1)).toNat = m.index.toNat + (x.val + 1) := by omega
  have hin : m.index.toNat + (x.val + 1) ≤ memorySize := by omega
  rw [value_setFirstRegisters, hstop]
  by_cases hy : y ≤ x
  · have hlt : y.val < x.val + 1 := Nat.lt_succ_of_le hy
    rw [if_pos hy, m.memory.getElem?_slice hin hlt]
    rfl
  · have hbehind : (m.memory.slice m.index.toNat (m.index.toNat + (x.val + 1))).length ≤ y.val := by
      rw [m.memory.length_slice hin]
      exact Nat.lt_of_not_le hy
    rw [if_neg hy, List.getElem?_eq_none hbehind]
    rfl

/-- Registers that hold the bytes of the block leave memory as it is. -/
theorem memory_store_of_same {m : Machine} {x : Register} (h0 : 0 ≤ m.index)
    (h : m.index + (x.val + 1) ≤ memorySize)
    (hsame : ∀ y ≤ x, m.value y = (m.memory.byte (m.index.toNat + y.val)).toNat) :
    m.memory.poke m.index.toNat
      ((m.firstRegisters (x.val + 1)).map fun z => UInt8.ofNat z.toNat) = m.memory := by
  obtain ⟨hin, hout⟩ := byte_store h0 h
  refine Memory.ext_byte fun a _ => ?_
  by_cases ha : m.index ≤ a ∧ a ≤ m.index + x.val
  · have hx := x.isLt
    -- the address belongs to a register, whose byte is put there
    obtain ⟨y, hy, rfl⟩ : ∃ y : Register, y ≤ x ∧ m.index.toNat + y.val = a := by
      refine ⟨⟨a - m.index.toNat, by omega⟩, ?_, ?_⟩
      · show a - m.index.toNat ≤ x.val
        omega
      · show m.index.toNat + (a - m.index.toNat) = a
        omega
    rw [hin y hy, hsame y hy]
    exact UInt8.ofNat_toNat
  · exact hout a ha

/-! ## Both ways -/

/-- Storing registers and restoring them. A store of registers that hold bytes writes the block and
nothing else. As long as the block is not touched, a restore from the same index brings them back,
whatever has become of the machine otherwise, and leaves the other registers as it finds them. A
restore changes registers only, and a store that follows it from the same index changes nothing.
Both move the index by the length of the block. -/
theorem restore_inverts_store {m : Machine} {x : Register} (h0 : 0 ≤ m.index)
    (h : m.index + x.val ≤ 0xFFF) :
    let store := Word.ofNibbles 0xF x 5 5
    let restore := Word.ofNibbles 0xF x 6 5
    ((∀ y ≤ x, Byte.IsValue (m.value y)) →
      ∃ stored, m.execute? store = some ⟨stored, [], .ok (some store)⟩ ∧
        stored = { m with memory := stored.memory, index := m.index + (x.val + 1) } ∧
        (∀ a : Nat, ¬ (m.index ≤ a ∧ a ≤ m.index + x.val) →
          stored.memory.byte a = m.memory.byte a) ∧
        ∀ later : Machine, later.index = m.index →
          (∀ a : Nat, m.index ≤ a → a ≤ m.index + x.val →
            later.memory.byte a = stored.memory.byte a) →
          ∃ back, later.execute? restore = some ⟨back, [], .ok (some restore)⟩ ∧
            ∀ y, back.value y = if y ≤ x then m.value y else later.value y) ∧
    ∃ loaded, m.execute? restore = some ⟨loaded, [], .ok (some restore)⟩ ∧
      loaded = { m with v := loaded.v, index := m.index + (x.val + 1) } ∧
      ({ loaded with index := m.index } : Machine).execute? store =
        some ⟨loaded, [], .ok (some store)⟩ := by
  intro store restore
  have hfits : m.index + (x.val + 1) ≤ memorySize := by
    have hsize : memorySize = 4096 := rfl
    omega
  refine ⟨fun hv => ?_, ?_⟩
  · obtain ⟨hin, hout⟩ := byte_store h0 hfits
    refine ⟨_, execute?_of_done (Instruction.spells_store x) rfl
      (Instruction.run_store_of_fits h0 hfits hv), rfl, hout, ?_⟩
    intro later hindex hblock
    have h0' : 0 ≤ later.index := hindex ▸ h0
    have hfits' : later.index + (x.val + 1) ≤ memorySize := hindex ▸ hfits
    refine ⟨_, execute?_of_done (Instruction.spells_restore x) rfl
      (Instruction.run_restore_of_fits h0' hfits'), fun y => ?_⟩
    refine (value_restore h0' hfits' y).trans ?_
    by_cases hy : y ≤ x
    · have hyx : y.val ≤ x.val := hy
      rw [if_pos hy, if_pos hy, hindex, hblock _ (by omega) (by omega), hin y hy]
      exact Byte.toNat_ofNat_of_isValue (hv y hy)
    · rw [if_neg hy, if_neg hy]
  · refine ⟨_, execute?_of_done (Instruction.spells_restore x) rfl
      (Instruction.run_restore_of_fits h0 hfits), rfl, ?_⟩
    -- the restored machine before the block, and the bytes that its registers hold
    let block := m.memory.slice m.index.toNat (m.index + (x.val + 1)).toNat
    let again : Machine := { m.setFirstRegisters block with index := m.index }
    have hsame : ∀ y ≤ x,
        again.value y = (again.memory.byte (again.index.toNat + y.val)).toNat :=
      fun y hy => (value_restore h0 hfits y).trans (if_pos hy)
    have hrun := Instruction.run_store_of_fits (m := again) h0 hfits fun y hy =>
      hsame y hy ▸ Byte.isValue_toNat _
    rw [memory_store_of_same (m := again) h0 hfits hsame] at hrun
    exact execute?_of_done (Instruction.spells_store x) rfl hrun

/-- Three registers are stored in the last three bytes of memory. Then the registers, the index and
the program counter change, and the bytes in front of the block; a restore brings the three back
and leaves the fourth alone. -/
theorem restore_inverts_store_end :
    let m : Machine := { ((fresh .idle ⟨fun _ => 0, 0⟩).setV 0 7).setV 2 255 with index := 0xFFD }
    let spoilt : Machine → Machine := fun stored =>
      { ((stored.setV 0 1).setV 2 2).setV 3 9 with
        index := 0xFFD, pc := 0x300, memory := stored.memory.poke 0xFFB [0xAA, 0xBB] }
    ∃ stored back, m.execute? 0xF255 = some ⟨stored, [], .ok (some 0xF255)⟩ ∧
      stored.index = 0x1000 ∧
      (spoilt stored).execute? 0xF265 = some ⟨back, [], .ok (some 0xF265)⟩ ∧
      back.value 0 = 7 ∧ back.value 1 = 0 ∧ back.value 2 = 255 ∧ back.value 3 = 9 := by
  intro m spoilt
  have hv : ∀ y : Register, y ≤ 2 → 0 ≤ m.value y ∧ m.value y < 256 := by decide +kernel
  obtain ⟨hstore, -⟩ := restore_inverts_store (m := m) (x := 2) (by decide) (by decide)
  obtain ⟨stored, hexecute, hstored, -, hback⟩ := hstore hv
  obtain ⟨back, hrestore, hvalues⟩ := hback (spoilt stored) rfl fun a ha _ => by
    show (stored.memory.poke 0xFFB [0xAA, 0xBB]).byte a = stored.memory.byte a
    have hbehind : 0xFFD ≤ (a : Int) := ha
    rw [Memory.byte_poke, if_neg (by simp only [List.length_cons, List.length_nil]; omega)]
  refine ⟨stored, back, hexecute, congrArg Machine.index hstored, hrestore, ?_, ?_, ?_, ?_⟩
  · exact hvalues 0
  · exact hvalues 1
  · exact hvalues 2
  · exact (hvalues 3).trans (value_setV _ 3 3 9)

end Machine

end Chip8
