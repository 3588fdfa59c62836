import Chip8.Instruction.Decode

/-!
# The words of an instruction

`Instruction.Spells` lists, instruction by instruction, the words that stand for it, by the fields
of the word. The decoder agrees with this list in both directions
(`Instruction.spells_of_decode?`, `Instruction.decode?_of_spells`), so that statements about words
can be made without it.
-/

set_option autoImplicit false

namespace Chip8

namespace Instruction

/-- The words that stand for an instruction. -/
def Spells (w : Word) : Instruction → Prop
  | sys target => w.family.val = 0x0 ∧ w ≠ 0x00E0 ∧ w ≠ 0x00EE ∧ target = w.address
  | clear => w = 0x00E0
  | ret => w = 0x00EE
  | jump target => w.family.val = 0x1 ∧ target = w.address
  | call target => w.family.val = 0x2 ∧ target = w.address
  | skipIfEqual x k => w.family.val = 0x3 ∧ x = w.x ∧ k = w.constant
  | skipUnlessEqual x k => w.family.val = 0x4 ∧ x = w.x ∧ k = w.constant
  | skipIfSame x y => w.family.val = 0x5 ∧ w.n.val = 0x0 ∧ x = w.x ∧ y = w.y
  | load x k => w.family.val = 0x6 ∧ x = w.x ∧ k = w.constant
  | addConstant x k => w.family.val = 0x7 ∧ x = w.x ∧ k = w.constant
  | alu operation x y =>
    w.family.val = 0x8 ∧ Alu.ofNibble? w.n = some operation ∧ x = w.x ∧ y = w.y
  | shiftRight x => w.family.val = 0x8 ∧ w.n.val = 0x6 ∧ x = w.x
  | shiftLeft x => w.family.val = 0x8 ∧ w.n.val = 0xE ∧ x = w.x
  | skipUnlessSame x y => w.family.val = 0x9 ∧ w.n.val = 0x0 ∧ x = w.x ∧ y = w.y
  | setIndex target => w.family.val = 0xA ∧ target = w.address
  | jumpOffset target => w.family.val = 0xB ∧ target = w.address
  | random x mask => w.family.val = 0xC ∧ x = w.x ∧ mask = w.constant
  | draw x y rows => w.family.val = 0xD ∧ x = w.x ∧ y = w.y ∧ rows = w.n
  | skipIfHeld x => w.family.val = 0xE ∧ w.constant = 0x9E ∧ x = w.x
  | skipUnlessHeld x => w.family.val = 0xE ∧ w.constant = 0xA1 ∧ x = w.x
  | readDelay x => w.family.val = 0xF ∧ w.constant = 0x07 ∧ x = w.x
  | awaitKey x => w.family.val = 0xF ∧ w.constant = 0x0A ∧ x = w.x
  | setDelay x => w.family.val = 0xF ∧ w.constant = 0x15 ∧ x = w.x
  | setSound x => w.family.val = 0xF ∧ w.constant = 0x18 ∧ x = w.x
  | advanceIndex x => w.family.val = 0xF ∧ w.constant = 0x1E ∧ x = w.x
  | glyph x => w.family.val = 0xF ∧ w.constant = 0x29 ∧ x = w.x
  | decimal x => w.family.val = 0xF ∧ w.constant = 0x33 ∧ x = w.x
  | store last => w.family.val = 0xF ∧ w.constant = 0x55 ∧ last = w.x
  | restore last => w.family.val = 0xF ∧ w.constant = 0x65 ∧ last = w.x

/-! ## Groups that look at further bits -/

theorem spells_of_decodeAlu? {w : Word} {i : Instruction} (hf : w.family.val = 0x8)
    (h : decodeAlu? w = some i) : Spells w i := by
  unfold decodeAlu? at h
  split at h
  next hn =>
    cases h
    exact ⟨hf, hn, rfl⟩
  next hn =>
    cases h
    exact ⟨hf, hn, rfl⟩
  next =>
    obtain ⟨operation, ho, rfl⟩ := Option.map_eq_some_iff.1 h
    exact ⟨hf, ho, rfl, rfl⟩

theorem spells_of_decodeMisc? {w : Word} {i : Instruction} (hf : w.family.val = 0xF)
    (h : decodeMisc? w = some i) : Spells w i := by
  unfold decodeMisc? at h
  split at h
  case h_10 => cases h
  all_goals
    next hk =>
      cases h
      exact ⟨hf, UInt8.toNat_inj.1 hk, rfl⟩

/-! ## The decoder -/

theorem spells_of_decode? {w : Word} {i : Instruction} (h : decode? w = some i) :
    Spells w i := by
  unfold decode? at h
  split at h
  next hf =>
    -- two words are taken out of the family before it is read as a system call
    split at h
    next hw =>
      cases h
      exact hw
    next hclear =>
      split at h
      next hw =>
        cases h
        exact hw
      next hret =>
        cases h
        exact ⟨hf, hclear, hret, rfl⟩
  next hf =>
    cases h
    exact ⟨hf, rfl⟩
  next hf =>
    cases h
    exact ⟨hf, rfl⟩
  next hf =>
    cases h
    exact ⟨hf, rfl, rfl⟩
  next hf =>
    cases h
    exact ⟨hf, rfl, rfl⟩
  next hf =>
    split at h
    next hn =>
      cases h
      exact ⟨hf, hn, rfl, rfl⟩
    next => cases h
  next hf =>
    cases h
    exact ⟨hf, rfl, rfl⟩
  next hf =>
    cases h
    exact ⟨hf, rfl, rfl⟩
  next hf => exact spells_of_decodeAlu? hf h
  next hf =>
    split at h
    next hn =>
      cases h
      exact ⟨hf, hn, rfl, rfl⟩
    next => cases h
  next hf =>
    cases h
    exact ⟨hf, rfl⟩
  next hf =>
    cases h
    exact ⟨hf, rfl⟩
  next hf =>
    cases h
    exact ⟨hf, rfl, rfl⟩
  next hf =>
    cases h
    exact ⟨hf, rfl, rfl, rfl⟩
  next hf =>
    split at h
    next hk =>
      cases h
      exact ⟨hf, hk, rfl⟩
    next =>
      split at h
      next hk =>
        cases h
        exact ⟨hf, hk, rfl⟩
      next => cases h
  next hf => exact spells_of_decodeMisc? hf h
  next => cases h

theorem decode?_of_spells {w : Word} {i : Instruction} (h : Spells w i) : decode? w = some i := by
  cases i with
  | sys target =>
      obtain ⟨hf, hclear, hret, rfl⟩ := h
      simp only [decode?, hf, if_neg hclear, if_neg hret]
  | clear =>
      cases h
      rfl
  | ret =>
      cases h
      rfl
  | jump target | call target | setIndex target | jumpOffset target =>
      obtain ⟨hf, rfl⟩ := h
      simp only [decode?, hf]
  | skipIfEqual x k | skipUnlessEqual x k | load x k | addConstant x k | random x k =>
      obtain ⟨hf, rfl, rfl⟩ := h
      simp only [decode?, hf]
  | skipIfSame x y | skipUnlessSame x y =>
      obtain ⟨hf, hn, rfl, rfl⟩ := h
      simp only [decode?, hf, if_pos hn]
  | alu operation x y =>
      obtain ⟨hf, ho, rfl, rfl⟩ := h
      -- the two shifts are matched first, but no operation has their nibbles
      have h6 : w.n.val ≠ 0x6 := by
        intro hn
        simp only [Alu.ofNibble?, hn, reduceCtorEq] at ho
      have hE : w.n.val ≠ 0xE := by
        intro hn
        simp only [Alu.ofNibble?, hn, reduceCtorEq] at ho
      simp only [decode?, hf, decodeAlu?, ho, Option.map_some]
  | shiftRight x | shiftLeft x =>
      obtain ⟨hf, hn, rfl⟩ := h
      simp only [decode?, hf, decodeAlu?, hn]
  | draw x y rows =>
      obtain ⟨hf, rfl, rfl, rfl⟩ := h
      simp only [decode?, hf]
  | skipIfHeld x =>
      obtain ⟨hf, hk, rfl⟩ := h
      simp only [decode?, hf, if_pos hk]
  | skipUnlessHeld x =>
      obtain ⟨hf, hk, rfl⟩ := h
      have hne : w.constant ≠ 0x9E := by
        rw [hk]
        decide
      simp only [decode?, hf, if_neg hne, if_pos hk]
  | readDelay x | awaitKey x | setDelay x | setSound x | advanceIndex x | glyph x | decimal x
  | store last | restore last =>
      obtain ⟨hf, hk, rfl⟩ := h
      simp only [decode?, hf, decodeMisc?, hk]
      rfl

end Instruction

end Chip8
