import Chip8.Instruction.Mnemonic
import Chip8.Proofs.Text.Hex

/-!
# Reading assembler text

The text of an instruction can be read back. A line is divided into its fields: the first one is
the name of the instruction, the others are its operands. What an operand is follows from its form,
for a register has a letter in front of its digit, a constant has two digits and an address has
three. Every instruction is found again in its text (`Assembly.read?_mnemonic`), so no two
instructions have the same one (`Instruction.mnemonic_inj`).
-/

set_option autoImplicit false

namespace Chip8

namespace Assembly

/-! ## Fields -/

/-- The fields of a line: what stands between blanks, without commas. -/
def fields : List Char → List (List Char)
  | [] => [[]]
  | c :: rest =>
    if c = ' ' then [] :: fields rest
    else if c = ',' then fields rest
    else (fields rest).modifyHead (c :: ·)

/-- A text that stays together: it has neither blanks nor commas. -/
def Token (cs : List Char) : Prop :=
  ∀ c ∈ cs, c ≠ ' ' ∧ c ≠ ','

@[simp] theorem fields_token_append {cs : List Char} (hcs : Token cs) (rest : List Char) :
    fields (cs ++ rest) = (fields rest).modifyHead (cs ++ ·) := by
  induction cs with
  | nil => exact (congrFun List.modifyHead_id _).symm
  | cons c cs ih =>
      obtain ⟨hblank, hcomma⟩ := hcs c List.mem_cons_self
      rw [List.cons_append, fields, if_neg hblank, if_neg hcomma,
        ih fun d hd => hcs d (List.mem_cons_of_mem c hd), List.modifyHead_modifyHead]
      rfl

@[simp] theorem fields_token {cs : List Char} (hcs : Token cs) : fields cs = [cs] := by
  have h := fields_token_append hcs []
  rw [List.append_nil] at h
  rw [h, fields, List.modifyHead_cons, List.append_nil]

/-! ## Operands -/

/-- A number below a bound. -/
def bounded? (bound n : Nat) : Option (Fin bound) :=
  if h : n < bound then some ⟨n, h⟩ else none

theorem bounded?_val {bound : Nat} (i : Fin bound) : bounded? bound i.val = some i :=
  dif_pos i.isLt

/-- The register that is named in a field. -/
def register? : List Char → Option Register
  | 'V' :: digits => (Hex.read? 1 digits).bind (bounded? 16)
  | _ => none

/-- The constant that is written in a field. -/
def constant? (field : List Char) : Option Byte :=
  (Hex.read? 2 field).map UInt8.ofNat

/-- The address that is written in a field. -/
def address? (field : List Char) : Option Address :=
  (Hex.read? 3 field).bind (bounded? 4096)

/-- The row count that is written in a field. -/
def rows? (field : List Char) : Option (Fin 16) :=
  (List.finRange 16).find? fun rows => Nat.toDigits 10 rows.val == field

theorem toList_name (x : Register) :
    (Register.name x).toList = 'V' :: Hex.fixedDigits 1 x.val := by
  simp [Register.name, Hex.fixed]

theorem toList_constant (k : Byte) : (Byte.digits k).toList = Hex.fixedDigits 2 k.toNat :=
  String.toList_ofList

theorem toList_address (a : Address) : (Address.digits a).toList = Hex.fixedDigits 3 a.val :=
  String.toList_ofList

@[simp] theorem register?_name (x : Register) : register? (Register.name x).toList = some x := by
  have hx : x.val % 16 ^ 1 = x.val := Nat.mod_eq_of_lt x.isLt
  rw [toList_name, register?, Hex.read?_fixedDigits, hx, Option.bind_some, bounded?_val]

@[simp] theorem constant?_digits (k : Byte) : constant? (Byte.digits k).toList = some k := by
  have hk : k.toNat % 16 ^ 2 = k.toNat := Nat.mod_eq_of_lt k.toNat_lt
  rw [toList_constant, constant?, Hex.read?_fixedDigits, hk, Option.map_some, UInt8.ofNat_toNat]

@[simp] theorem address?_digits (a : Address) : address? (Address.digits a).toList = some a := by
  have ha : a.val % 16 ^ 3 = a.val := Nat.mod_eq_of_lt a.isLt
  rw [toList_address, address?, Hex.read?_fixedDigits, ha, Option.bind_some, bounded?_val]

@[simp] theorem rows?_toDigits (rows : Fin 16) : rows? (Nat.toDigits 10 rows.val) = some rows := by
  revert rows
  decide

theorem digit_ne (d : Fin 16) : Hex.digit d ≠ ' ' ∧ Hex.digit d ≠ ',' ∧ Hex.digit d ≠ 'V' := by
  revert d
  decide

@[simp] theorem register?_of_ne {c : Char} (hc : c ≠ 'V') (cs : List Char) :
    register? (c :: cs) = none := by
  unfold register?
  split
  next hV => exact absurd (List.cons.inj hV).1 hc
  next => rfl

@[simp] theorem register?_digits (k : Byte) : register? (Byte.digits k).toList = none := by
  rw [toList_constant]
  exact register?_of_ne (digit_ne _).2.2 _

theorem token_fixedDigits (w n : Nat) : Token (Hex.fixedDigits w n) := by
  intro c hc
  obtain ⟨d, rfl⟩ := Hex.eq_digit_of_mem_fixedDigits hc
  exact ⟨(digit_ne d).1, (digit_ne d).2.1⟩

@[simp] theorem token_register (x : Register) : Token (Register.name x).toList := by
  rw [toList_name]
  exact List.forall_mem_cons.2 ⟨by decide, token_fixedDigits 1 x.val⟩

@[simp] theorem token_constant (k : Byte) : Token (Byte.digits k).toList :=
  toList_constant k ▸ token_fixedDigits 2 k.toNat

@[simp] theorem token_address (a : Address) : Token (Address.digits a).toList :=
  toList_address a ▸ token_fixedDigits 3 a.val

@[simp] theorem token_rows (rows : Fin 16) : Token (Nat.toDigits 10 rows.val) := by
  intro c hc
  have hdigit := Nat.isDigit_of_mem_toDigits (by decide) (by decide) hc
  constructor
  · rintro rfl
    cases hdigit
  · rintro rfl
    cases hdigit

/-! ## Lines -/

/-- An instruction whose second operand is a register or a constant. -/
def pair? (onRegister : Register → Instruction) (onConstant : Byte → Instruction)
    (b : List Char) : Option Instruction :=
  match register? b with
  | some y => some (onRegister y)
  | none => (constant? b).map onConstant

/-- An operation on two registers. -/
def alu? (operation : Alu) (a b : List Char) : Option Instruction :=
  (register? a).bind fun x => (register? b).map (.alu operation x)

/-- A load into a register. -/
def loadRegister? (x : Register) (b : List Char) : Option Instruction :=
  match pair? (.alu .copy x) (.load x) b with
  | some i => some i
  | none =>
    match String.ofList b with
    | "DT" => some (.readDelay x)
    | "K" => some (.awaitKey x)
    | "[I]" => some (.restore x)
    | _ => none

/-- A load into anything. -/
def load? (a b : List Char) : Option Instruction :=
  match register? a with
  | some x => loadRegister? x b
  | none =>
    match String.ofList a with
    | "I" => (address? b).map .setIndex
    | "DT" => (register? b).map .setDelay
    | "ST" => (register? b).map .setSound
    | "F" => (register? b).map .glyph
    | "B" => (register? b).map .decimal
    | "[I]" => (register? b).map .store
    | _ => none

/-- The instruction with a name and operands. -/
def ofFields? (name : String) (operands : List (List Char)) : Option Instruction :=
  match name, operands with
  | "CLS", [] => some .clear
  | "RET", [] => some .ret
  | "SYS", [a] => (address? a).map .sys
  | "JP", [a] => (address? a).map .jump
  | "JP", [_, b] => (address? b).map .jumpOffset
  | "CALL", [a] => (address? a).map .call
  | "SE", [a, b] => (register? a).bind fun x => pair? (.skipIfSame x) (.skipIfEqual x) b
  | "SNE", [a, b] => (register? a).bind fun x => pair? (.skipUnlessSame x) (.skipUnlessEqual x) b
  | "LD", [a, b] => load? a b
  | "ADD", [a, b] =>
    match register? a with
    | some x => pair? (.alu .add x) (.addConstant x) b
    | none => (register? b).map .advanceIndex
  | "OR", [a, b] => alu? .or a b
  | "AND", [a, b] => alu? .and a b
  | "XOR", [a, b] => alu? .xor a b
  | "SUB", [a, b] => alu? .subtract a b
  | "SUBN", [a, b] => alu? .subtractFrom a b
  | "SHR", [a] => (register? a).map .shiftRight
  | "SHL", [a] => (register? a).map .shiftLeft
  | "RND", [a, b] => (register? a).bind fun x => (constant? b).map (.random x)
  | "DRW", [a, b, c] =>
    (register? a).bind fun x => (register? b).bind fun y => (rows? c).map (.draw x y)
  | "SKP", [a] => (register? a).map .skipIfHeld
  | "SKNP", [a] => (register? a).map .skipUnlessHeld
  | _, _ => none

/-- The instruction that a line stands for. -/
def read? (line : String) : Option Instruction :=
  match fields line.toList with
  | [] => none
  | name :: operands => ofFields? (String.ofList name) operands

/-- An instruction is found again in its text. -/
theorem read?_mnemonic (i : Instruction) : read? i.mnemonic = some i := by
  cases i with
  | clear | ret => rfl
  | sys a | jump a | call a | jumpOffset a =>
      simp [read?, Instruction.mnemonic, fields, ofFields?]
  | setIndex a =>
      simp [read?, Instruction.mnemonic, fields, ofFields?, load?]
  | skipIfEqual x k | skipUnlessEqual x k | addConstant x k | random x k | load x k =>
      simp [read?, Instruction.mnemonic, fields, ofFields?, pair?, load?, loadRegister?]
  | skipIfSame x y | skipUnlessSame x y =>
      simp [read?, Instruction.mnemonic, fields, ofFields?, pair?]
  | alu operation x y =>
      cases operation
      all_goals
        simp [read?, Instruction.mnemonic, Alu.name, fields, ofFields?, alu?, pair?, load?,
          loadRegister?]
  | draw x y rows =>
      simp [read?, Instruction.mnemonic, fields, ofFields?]
  | shiftRight x | shiftLeft x | skipIfHeld x | skipUnlessHeld x =>
      simp [read?, Instruction.mnemonic, fields, ofFields?]
  | readDelay x | awaitKey x | restore x =>
      -- the second operand is a name only because it is no constant
      have hDT : constant? ['D', 'T'] = none := rfl
      have hK : constant? ['K'] = none := rfl
      have hI : constant? ['[', 'I', ']'] = none := rfl
      simp [read?, Instruction.mnemonic, fields, ofFields?, load?, loadRegister?, pair?, hDT, hK,
        hI]
  | setDelay x | setSound x | glyph x | decimal x | store x | advanceIndex x =>
      simp [read?, Instruction.mnemonic, fields, ofFields?, load?]

end Assembly

/-- No two instructions have the same text. -/
theorem Instruction.mnemonic_inj {i j : Instruction} (h : i.mnemonic = j.mnemonic) : i = j :=
  Option.some.inj ((Assembly.read?_mnemonic i).symm.trans (h ▸ Assembly.read?_mnemonic j))

end Chip8
