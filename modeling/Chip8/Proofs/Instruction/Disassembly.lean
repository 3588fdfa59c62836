import Chip8.Machine.Operation
import Chip8.Proofs.Instruction.Assembly
import Chip8.Proofs.Instruction.Table

/-!
# What the text of a word tells

The text of a word stands for what dispatching does with it. It begins with question marks exactly
if no row of the dispatch table takes the word, and otherwise it holds all that the machine will
see of the word: only two shifts with the same first register share a text without being the same
word (`Word.disassembly_faithful`).
-/

set_option autoImplicit false

namespace Chip8

namespace Word

variable {v w : Word}

/-! ## Words and their fields -/

theorem ext_address (hf : v.family.val = w.family.val) (ha : v.address = w.address) : v = w := by
  have hv := v.toNat_lt
  have hw := w.toNat_lt
  have hlow : v.toNat % 4096 = w.toNat % 4096 := congrArg Fin.val ha
  have hhigh : v.toNat / 4096 % 16 = w.toNat / 4096 % 16 := hf
  rw [← UInt16.toNat_inj]
  omega

theorem ext_constant (hf : v.family.val = w.family.val) (hx : v.x = w.x)
    (hk : v.constant = w.constant) : v = w := by
  have hv := v.toNat_lt
  have hw := w.toNat_lt
  have hlow : v.toNat % 256 = w.toNat % 256 := congrArg UInt8.toNat hk
  have hsecond : v.toNat / 256 % 16 = w.toNat / 256 % 16 := congrArg Fin.val hx
  have hhigh : v.toNat / 4096 % 16 = w.toNat / 4096 % 16 := hf
  rw [← UInt16.toNat_inj]
  omega

theorem ext_nibbles (hf : v.family.val = w.family.val) (hx : v.x = w.x) (hy : v.y = w.y)
    (hn : v.n = w.n) : v = w := by
  have hv := v.toNat_lt
  have hw := w.toNat_lt
  have hlast : v.toNat % 16 = w.toNat % 16 := congrArg Fin.val hn
  have hthird : v.toNat / 16 % 16 = w.toNat / 16 % 16 := congrArg Fin.val hy
  have hsecond : v.toNat / 256 % 16 = w.toNat / 256 % 16 := congrArg Fin.val hx
  have hhigh : v.toNat / 4096 % 16 = w.toNat / 4096 % 16 := hf
  rw [← UInt16.toNat_inj]
  omega

/-- Two words for the same shift: they may differ in the third nibble. -/
structure SameShift (v w : Word) : Prop where
  family : v.family.val = 0x8
  n : v.n.val = 0x6 ∨ v.n.val = 0xE
  same_family : w.family = v.family
  same_x : w.x = v.x
  same_n : w.n = v.n

end Word

/-! ## Words of an instruction -/

theorem Alu.ofNibble?_inj {m n : Fin 16} {operation : Alu} (hm : ofNibble? m = some operation)
    (hn : ofNibble? n = some operation) : m = n := by
  revert m n
  cases operation
  all_goals decide

theorem Instruction.Spells.eq_or_sameShift {v w : Word} {i : Instruction} (hv : Spells v i)
    (hw : Spells w i) : v = w ∨ v.SameShift w := by
  -- but for the shifts, an instruction holds every nibble of its word
  cases i with
  | clear | ret => exact .inl (hv.trans hw.symm)
  | sys a =>
      obtain ⟨hfv, -, -, rfl⟩ := hv
      obtain ⟨hfw, -, -, ha⟩ := hw
      exact .inl (Word.ext_address (hfv.trans hfw.symm) ha)
  | jump a | call a | setIndex a | jumpOffset a =>
      obtain ⟨hfv, rfl⟩ := hv
      obtain ⟨hfw, ha⟩ := hw
      exact .inl (Word.ext_address (hfv.trans hfw.symm) ha)
  | skipIfEqual x k | skipUnlessEqual x k | load x k | addConstant x k | random x k =>
      obtain ⟨hfv, rfl, rfl⟩ := hv
      obtain ⟨hfw, hx, hk⟩ := hw
      exact .inl (Word.ext_constant (hfv.trans hfw.symm) hx hk)
  | skipIfSame x y | skipUnlessSame x y =>
      obtain ⟨hfv, hnv, rfl, rfl⟩ := hv
      obtain ⟨hfw, hnw, hx, hy⟩ := hw
      exact .inl (Word.ext_nibbles (hfv.trans hfw.symm) hx hy (Fin.ext (hnv.trans hnw.symm)))
  | alu operation x y =>
      obtain ⟨hfv, hov, rfl, rfl⟩ := hv
      obtain ⟨hfw, how, hx, hy⟩ := hw
      exact .inl (Word.ext_nibbles (hfv.trans hfw.symm) hx hy (Alu.ofNibble?_inj hov how))
  | shiftRight x =>
      obtain ⟨hfv, hnv, rfl⟩ := hv
      obtain ⟨hfw, hnw, hx⟩ := hw
      have hn : w.n = v.n := Fin.ext (hnw.trans hnv.symm)
      exact .inr ⟨hfv, .inl hnv, Fin.ext (hfw.trans hfv.symm), hx.symm, hn⟩
  | shiftLeft x =>
      obtain ⟨hfv, hnv, rfl⟩ := hv
      obtain ⟨hfw, hnw, hx⟩ := hw
      have hn : w.n = v.n := Fin.ext (hnw.trans hnv.symm)
      exact .inr ⟨hfv, .inr hnv, Fin.ext (hfw.trans hfv.symm), hx.symm, hn⟩
  | draw x y rows =>
      obtain ⟨hfv, rfl, rfl, rfl⟩ := hv
      obtain ⟨hfw, hx, hy, hn⟩ := hw
      exact .inl (Word.ext_nibbles (hfv.trans hfw.symm) hx hy hn)
  | skipIfHeld x | skipUnlessHeld x | readDelay x | awaitKey x | setDelay x | setSound x
  | advanceIndex x | glyph x | decimal x | store x | restore x =>
      obtain ⟨hfv, hkv, rfl⟩ := hv
      obtain ⟨hfw, hkw, hx⟩ := hw
      exact .inl (Word.ext_constant (hfv.trans hfw.symm) hx (hkv.trans hkw.symm))

/-- Words for the same shift stand for one instruction. -/
theorem Word.SameShift.spells {v w : Word} (h : v.SameShift w) :
    ∃ i, Instruction.Spells v i ∧ Instruction.Spells w i := by
  obtain ⟨hfv, hn, hf, hx, hnw⟩ := h
  have hfw : w.family.val = 0x8 := hf ▸ hfv
  rcases hn with hright | hleft
  · exact ⟨.shiftRight v.x, ⟨hfv, hright, rfl⟩, ⟨hfw, hnw ▸ hright, hx.symm⟩⟩
  · exact ⟨.shiftLeft v.x, ⟨hfv, hleft, rfl⟩, ⟨hfw, hnw ▸ hleft, hx.symm⟩⟩

/-! ## Texts -/

/-- The text of an instruction begins with a letter. -/
theorem Instruction.mnemonic_ne_unknown (i : Instruction) (rest : String) :
    i.mnemonic ≠ "???" ++ rest := by
  intro h
  have hchars := congrArg String.toList h
  cases i with
  | alu operation x y =>
      cases operation
      all_goals simp [mnemonic, Alu.name] at hchars
  | _ => simp [mnemonic] at hchars

theorem unknownText_eq (z : Int) : unknownText z = "???" ++ (" " ++ Hex.padded 4 z) := by
  rw [← String.append_assoc]
  rfl

theorem disassemble_word (w : Word) : disassemble w.toNat = w.mnemonic := by
  have hw := w.toNat_lt
  have hword : Word.ofInt w.toNat = w := by
    rw [Word.ofInt, ← UInt16.toNat_inj, UInt16.toNat_ofNat']
    omega
  rw [disassemble, if_pos (by omega), hword]

namespace Word

variable {v w : Word}

theorem mnemonic_of_decode? {i : Instruction} (h : Instruction.decode? w = some i) :
    w.mnemonic = i.mnemonic := by
  rw [mnemonic, h]

theorem mnemonic_of_unknown (h : Instruction.decode? w = none) :
    w.mnemonic = unknownText w.toNat := by
  rw [mnemonic, h]

theorem mnemonic_unknown_iff (w : Word) :
    (∃ rest, w.mnemonic = "???" ++ rest) ↔ Instruction.decode? w = none := by
  constructor
  · rintro ⟨rest, hrest⟩
    cases hw : Instruction.decode? w with
    | none => rfl
    | some i =>
        rw [mnemonic_of_decode? hw] at hrest
        exact absurd hrest (i.mnemonic_ne_unknown rest)
  · intro hw
    exact ⟨_, (mnemonic_of_unknown hw).trans (unknownText_eq _)⟩

/-- What two words with the same text have in common. -/
theorem eq_or_sameShift_of_mnemonic (h : v.mnemonic = w.mnemonic) : v = w ∨ v.SameShift w := by
  cases hv : Instruction.decode? v with
  | none =>
      -- a text with question marks shows the whole word
      obtain ⟨rest, hrest⟩ := (mnemonic_unknown_iff v).2 hv
      have hw := (mnemonic_unknown_iff w).1 ⟨rest, h ▸ hrest⟩
      rw [mnemonic_of_unknown hv, mnemonic_of_unknown hw, unknownText, unknownText] at h
      have hdigits := (String.append_right_inj _).1 h
      exact .inl (UInt16.toNat_inj.1 (Hex.padded_inj (by decide) v.toNat_lt w.toNat_lt hdigits))
  | some i =>
      cases hw : Instruction.decode? w with
      | none =>
          obtain ⟨rest, hrest⟩ := (mnemonic_unknown_iff w).2 hw
          rw [← h, mnemonic_of_decode? hv] at hrest
          exact absurd hrest (i.mnemonic_ne_unknown rest)
      | some j =>
          rw [mnemonic_of_decode? hv, mnemonic_of_decode? hw] at h
          cases Instruction.mnemonic_inj h
          have hspells := Instruction.spells_of_decode? hv
          exact hspells.eq_or_sameShift (Instruction.spells_of_decode? hw)

theorem SameShift.decode? (h : v.SameShift w) :
    ∃ i, Instruction.decode? v = some i ∧ Instruction.decode? w = some i := by
  obtain ⟨i, hv, hw⟩ := h.spells
  exact ⟨i, Instruction.decode?_of_spells hv, Instruction.decode?_of_spells hw⟩

theorem mnemonic_eq_iff : v.mnemonic = w.mnemonic ↔ v = w ∨ v.SameShift w := by
  constructor
  · exact eq_or_sameShift_of_mnemonic
  · rintro (rfl | hshift)
    · rfl
    · obtain ⟨i, hv, hw⟩ := hshift.decode?
      rw [mnemonic_of_decode? hv, mnemonic_of_decode? hw]

theorem decode?_eq_of_mnemonic (h : v.mnemonic = w.mnemonic) :
    Instruction.decode? v = Instruction.decode? w := by
  rcases mnemonic_eq_iff.1 h with rfl | hshift
  · rfl
  · obtain ⟨i, hv, hw⟩ := hshift.decode?
    rw [hv, hw]

section

variable [Tracing]

/-- What dispatching a word does depends on its instruction only. -/
theorem perform_execute_congr (h : Instruction.decode? v = Instruction.decode? w) (m : Machine) :
    m.perform (.execute v) = m.perform (.execute w) := by
  rw [Machine.perform, Machine.perform, Machine.execute?, Machine.execute?, h]
  cases Instruction.decode? w with
  | none => rfl
  | some i =>
      simp only [Option.map_some, Machine.stepped, Machine.execute]
      generalize i.run m = effect
      rcases effect with ⟨left, _ | reason⟩
      · rfl
      · rfl

/-- The text of a word begins with three question marks exactly if no row of the dispatch table
takes the word. Two words have the same text exactly if they are the same, or if they are words for
the same shift, which differ in the third nibble at most. Words with the same text are taken by
rows that read the same instruction, and dispatching them does the same to every machine: the same
machine is left, or there is the same error. -/
theorem disassembly_faithful (v w : Word) :
    ((∃ rest, disassemble v.toNat = "???" ++ rest) ↔ Instruction.lookup? v = none) ∧
    (disassemble v.toNat = disassemble w.toNat ↔ v = w ∨ v.SameShift w) ∧
    (disassemble v.toNat = disassemble w.toNat →
      Instruction.lookup? v = Instruction.lookup? w ∧
        ∀ m : Machine, m.perform (.execute v) = m.perform (.execute w)) := by
  rw [disassemble_word, disassemble_word, Instruction.lookup?_eq_decode?,
    Instruction.lookup?_eq_decode?]
  refine ⟨mnemonic_unknown_iff v, mnemonic_eq_iff, ?_⟩
  intro h
  have hdecode := decode?_eq_of_mnemonic h
  exact ⟨hdecode, perform_execute_congr hdecode⟩

end

open Tracing.Off in
/-- The words of a right shift of `V1` share their text; a word of group `5` with a last nibble
other than zero is shown behind question marks. -/
theorem disassembly_faithful_shift :
    disassemble (0x8126 : Word).toNat = "SHR V1" ∧ disassemble (0x8136 : Word).toNat = "SHR V1" ∧
      (∀ m : Machine, m.perform (.execute 0x8126) = m.perform (.execute 0x8136)) ∧
      disassemble (0x5121 : Word).toNat = "??? 5121" ∧ Instruction.lookup? 0x5121 = none := by
  have hshift : disassemble (0x8126 : Word).toNat = "SHR V1" := by decide +kernel
  have hother : disassemble (0x8136 : Word).toNat = "SHR V1" := by decide +kernel
  have hunknown : disassemble (0x5121 : Word).toNat = "??? 5121" := by decide +kernel
  obtain ⟨-, -, hsame⟩ := disassembly_faithful 0x8126 0x8136
  obtain ⟨hrows, -, -⟩ := disassembly_faithful 0x5121 0x5121
  exact ⟨hshift, hother, (hsame (hshift.trans hother.symm)).2, hunknown,
    hrows.1 ⟨" 5121", hunknown⟩⟩

end Word

end Chip8
