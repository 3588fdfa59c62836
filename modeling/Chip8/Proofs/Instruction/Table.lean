import Mathlib.Tactic.IntervalCases
import Chip8.Proofs.Instruction.Decode

/-!
# The dispatch table

Dispatching can be written as a table. Every row has a mask and a pattern, and the first row whose
pattern a word shows through the mask tells how the word is read. The table and the decoder divide
the words in the same way (`Instruction.lookup?_eq_decode?`).
-/

set_option autoImplicit false

namespace Chip8

/-! ## Rows -/

/-- A row of the table: a mask, the pattern that a word of the row shows through it, and how such
a word is read. -/
structure Row where
  mask : Word
  pattern : Word
  read : Word → Instruction

namespace Row

/-- Whether a word belongs to a row. -/
def accepts (row : Row) (w : Word) : Bool :=
  w &&& row.mask == row.pattern

/-- A row for a single word. -/
def word (pattern : Word) (i : Instruction) : Row :=
  ⟨0xFFFF, pattern, fun _ => i⟩

/-- A row for the words of a family. -/
def family (f : Nat) (read : Word → Instruction) : Row :=
  ⟨0xF000, UInt16.ofNat (f * 4096), read⟩

/-- A row for the words of a family that end in a nibble. -/
def nibble (f n : Nat) (read : Word → Instruction) : Row :=
  ⟨0xF00F, UInt16.ofNat (f * 4096 + n), read⟩

/-- A row for the words of a family that end in a byte. -/
def byte (f k : Nat) (read : Word → Instruction) : Row :=
  ⟨0xF0FF, UInt16.ofNat (f * 4096 + k), read⟩

/-- What the first of some rows that accepts a word reads. -/
def first? (w : Word) : List Row → Option Instruction
  | [] => none
  | row :: rest => if row.accepts w then some (row.read w) else first? w rest

/-! ## Accepted words -/

/-- What a mask over the first nibble and the `k` lowest bits leaves of a word. -/
theorem toNat_and_mask (w : Word) {k : Nat} (hk : k ≤ 12) :
    w.toNat &&& (0xF000 + (2 ^ k - 1)) = w.toNat / 4096 * 4096 + w.toNat % 2 ^ k := by
  have hw := w.toNat_lt
  have hpow : 2 ^ k ≤ 2 ^ 12 := Nat.pow_le_pow_right (by decide) hk
  have hpos := Nat.two_pow_pos k
  have hhigh : (w.toNat &&& (0xF000 + (2 ^ k - 1))) / 2 ^ 12 = w.toNat / 4096 := by
    have hmask : (0xF000 + (2 ^ k - 1)) / 2 ^ 12 = 2 ^ 4 - 1 := by omega
    rw [Nat.and_div_two_pow, hmask, Nat.and_two_pow_sub_one_eq_mod]
    omega
  have hlow : (w.toNat &&& (0xF000 + (2 ^ k - 1))) % 2 ^ 12 = w.toNat % 2 ^ k := by
    have hmask : (0xF000 + (2 ^ k - 1)) % 2 ^ 12 = 2 ^ k - 1 := by omega
    rw [Nat.and_mod_two_pow, hmask, Nat.and_two_pow_sub_one_eq_mod,
      Nat.mod_mod_of_dvd _ (Nat.pow_dvd_pow 2 hk)]
  omega

theorem accepts_iff (row : Row) (w : Word) :
    row.accepts w = true ↔ w.toNat &&& row.mask.toNat = row.pattern.toNat := by
  rw [accepts, beq_iff_eq, ← UInt16.toNat_inj, UInt16.toNat_and]

theorem accepts_word (pattern : Word) (i : Instruction) (w : Word) :
    (word pattern i).accepts w = true ↔ w = pattern := by
  have hmask : w.toNat &&& 0xFFFF = w.toNat / 4096 * 4096 + w.toNat % 4096 :=
    toNat_and_mask w (k := 12) (by decide)
  rw [accepts_iff, ← UInt16.toNat_inj]
  show w.toNat &&& 0xFFFF = pattern.toNat ↔ w.toNat = pattern.toNat
  omega

theorem accepts_family {f : Nat} (hf : f < 16) (read : Word → Instruction) (w : Word) :
    (family f read).accepts w = true ↔ w.family.val = f := by
  have hmask : w.toNat &&& 0xF000 = w.toNat / 4096 * 4096 + w.toNat % 1 :=
    toNat_and_mask w (k := 0) (by decide)
  have hw := w.toNat_lt
  rw [accepts_iff]
  show w.toNat &&& 0xF000 = f * 4096 % 65536 ↔ w.toNat / 4096 % 16 = f
  omega

theorem accepts_nibble {f n : Nat} (hf : f < 16) (hn : n < 16) (read : Word → Instruction)
    (w : Word) :
    (nibble f n read).accepts w = true ↔ w.family.val = f ∧ w.n.val = n := by
  have hmask : w.toNat &&& 0xF00F = w.toNat / 4096 * 4096 + w.toNat % 16 :=
    toNat_and_mask w (k := 4) (by decide)
  have hw := w.toNat_lt
  rw [accepts_iff]
  show w.toNat &&& 0xF00F = (f * 4096 + n) % 65536 ↔ w.toNat / 4096 % 16 = f ∧ w.toNat % 16 = n
  omega

theorem accepts_byte {f k : Nat} (hf : f < 16) (hk : k < 256) (read : Word → Instruction)
    (w : Word) :
    (byte f k read).accepts w = true ↔ w.family.val = f ∧ w.constant.toNat = k := by
  have hmask : w.toNat &&& 0xF0FF = w.toNat / 4096 * 4096 + w.toNat % 256 :=
    toNat_and_mask w (k := 8) (by decide)
  have hw := w.toNat_lt
  rw [accepts_iff]
  show w.toNat &&& 0xF0FF = (f * 4096 + k) % 65536 ↔
    w.toNat / 4096 % 16 = f ∧ w.toNat % 256 = k
  omega

/-! ## The first row -/

variable {w : Word} {i : Instruction} {read : Word → Instruction} {rest : List Row}

@[simp] theorem first?_nil : first? w [] = none :=
  rfl

@[simp] theorem first?_word {pattern : Word} :
    first? w (word pattern i :: rest) = if w = pattern then some i else first? w rest :=
  ite_congr (propext (accepts_word pattern i w)) (fun _ => rfl) fun _ => rfl

@[simp] theorem first?_family {f : Nat} (hf : f < 16) :
    first? w (family f read :: rest) =
      if w.family.val = f then some (read w) else first? w rest :=
  ite_congr (propext (accepts_family hf read w)) (fun _ => rfl) fun _ => rfl

@[simp] theorem first?_nibble {f n : Nat} (hf : f < 16) (hn : n < 16) :
    first? w (nibble f n read :: rest) =
      if w.family.val = f ∧ w.n.val = n then some (read w) else first? w rest :=
  ite_congr (propext (accepts_nibble hf hn read w)) (fun _ => rfl) fun _ => rfl

@[simp] theorem first?_byte {f k : Nat} (hf : f < 16) (hk : k < 256) :
    first? w (byte f k read :: rest) =
      if w.family.val = f ∧ w.constant.toNat = k then some (read w) else first? w rest :=
  ite_congr (propext (accepts_byte hf hk read w)) (fun _ => rfl) fun _ => rfl

theorem first?_append (rows : List Row) :
    first? w (rows ++ rest) = (first? w rows).or (first? w rest) := by
  induction rows with
  | nil => rfl
  | cons row rows ih =>
      rw [List.cons_append, first?, first?, ih]
      split <;> rfl

end Row

/-! ## The table -/

namespace Instruction

/-- The rows up to family `7`. -/
def lowRows : List Row := [
  .word 0x00E0 .clear,
  .word 0x00EE .ret,
  .family 0x0 fun w => .sys w.address,
  .family 0x1 fun w => .jump w.address,
  .family 0x2 fun w => .call w.address,
  .family 0x3 fun w => .skipIfEqual w.x w.constant,
  .family 0x4 fun w => .skipUnlessEqual w.x w.constant,
  .nibble 0x5 0x0 fun w => .skipIfSame w.x w.y,
  .family 0x6 fun w => .load w.x w.constant,
  .family 0x7 fun w => .addConstant w.x w.constant]

/-- The rows of family `8`. -/
def aluRows : List Row := [
  .nibble 0x8 0x0 fun w => .alu .copy w.x w.y,
  .nibble 0x8 0x1 fun w => .alu .or w.x w.y,
  .nibble 0x8 0x2 fun w => .alu .and w.x w.y,
  .nibble 0x8 0x3 fun w => .alu .xor w.x w.y,
  .nibble 0x8 0x4 fun w => .alu .add w.x w.y,
  .nibble 0x8 0x5 fun w => .alu .subtract w.x w.y,
  .nibble 0x8 0x6 fun w => .shiftRight w.x,
  .nibble 0x8 0x7 fun w => .alu .subtractFrom w.x w.y,
  .nibble 0x8 0xE fun w => .shiftLeft w.x]

/-- The rows of the families `9` to `E`. -/
def highRows : List Row := [
  .nibble 0x9 0x0 fun w => .skipUnlessSame w.x w.y,
  .family 0xA fun w => .setIndex w.address,
  .family 0xB fun w => .jumpOffset w.address,
  .family 0xC fun w => .random w.x w.constant,
  .family 0xD fun w => .draw w.x w.y w.n,
  .byte 0xE 0x9E fun w => .skipIfHeld w.x,
  .byte 0xE 0xA1 fun w => .skipUnlessHeld w.x]

/-- The rows of family `F`. -/
def miscRows : List Row := [
  .byte 0xF 0x07 fun w => .readDelay w.x,
  .byte 0xF 0x0A fun w => .awaitKey w.x,
  .byte 0xF 0x15 fun w => .setDelay w.x,
  .byte 0xF 0x18 fun w => .setSound w.x,
  .byte 0xF 0x1E fun w => .advanceIndex w.x,
  .byte 0xF 0x29 fun w => .glyph w.x,
  .byte 0xF 0x33 fun w => .decimal w.x,
  .byte 0xF 0x55 fun w => .store w.x,
  .byte 0xF 0x65 fun w => .restore w.x]

/-- The rows, in the order in which they are tried. -/
def table : List Row :=
  lowRows ++ aluRows ++ highRows ++ miscRows

example : table.map (fun row => (row.mask, row.pattern)) = [
    (0xFFFF, 0x00E0), (0xFFFF, 0x00EE), (0xF000, 0x0000), (0xF000, 0x1000), (0xF000, 0x2000),
    (0xF000, 0x3000), (0xF000, 0x4000), (0xF00F, 0x5000), (0xF000, 0x6000), (0xF000, 0x7000),
    (0xF00F, 0x8000), (0xF00F, 0x8001), (0xF00F, 0x8002), (0xF00F, 0x8003), (0xF00F, 0x8004),
    (0xF00F, 0x8005), (0xF00F, 0x8006), (0xF00F, 0x8007), (0xF00F, 0x800E), (0xF00F, 0x9000),
    (0xF000, 0xA000), (0xF000, 0xB000), (0xF000, 0xC000), (0xF000, 0xD000), (0xF0FF, 0xE09E),
    (0xF0FF, 0xE0A1), (0xF0FF, 0xF007), (0xF0FF, 0xF00A), (0xF0FF, 0xF015), (0xF0FF, 0xF018),
    (0xF0FF, 0xF01E), (0xF0FF, 0xF029), (0xF0FF, 0xF033), (0xF0FF, 0xF055), (0xF0FF, 0xF065)] :=
  rfl

/-- What the first row for a word reads. -/
def lookup? (w : Word) : Option Instruction :=
  Row.first? w table

theorem first?_aluRows (w : Word) :
    Row.first? w aluRows = if w.family.val = 0x8 then decodeAlu? w else none := by
  by_cases hf : w.family.val = 0x8
  · rw [if_pos hf]
    unfold decodeAlu? Alu.ofNibble?
    generalize hn : w.n.val = n
    -- the shifts are decoded before the other operations, but their rows stand among them
    split
    case h_1 | h_2 => simp [aluRows, hf, hn]
    case h_3 =>
      split
      all_goals simp_all [aluRows]
  · simp [aluRows, hf]

theorem first?_miscRows (w : Word) :
    Row.first? w miscRows = if w.family.val = 0xF then decodeMisc? w else none := by
  by_cases hf : w.family.val = 0xF
  · rw [if_pos hf]
    unfold decodeMisc?
    generalize hk : w.constant.toNat = k
    split
    all_goals simp_all [miscRows]
  · simp [miscRows, hf]

/-- The first row for a word reads it as the decoder does. -/
theorem lookup?_eq_decode? (w : Word) : lookup? w = decode? w := by
  by_cases hclear : w = 0x00E0
  · rw [hclear]
    rfl
  by_cases hret : w = 0x00EE
  · rw [hret]
    rfl
  have hlookup : lookup? w = (((Row.first? w lowRows).or (Row.first? w aluRows)).or
      (Row.first? w highRows)).or (Row.first? w miscRows) := by
    rw [lookup?, table, Row.first?_append, Row.first?_append, Row.first?_append]
  rw [hlookup, first?_aluRows, first?_miscRows]
  have hfamily := w.family.isLt
  -- one family after the other
  generalize hf : w.family.val = f at hfamily
  interval_cases f
  all_goals
    simp [decode?, lowRows, highRows, hclear, hret, hf, ← UInt8.toNat_inj, -Fin.val_eq_zero_iff]

end Instruction

end Chip8
