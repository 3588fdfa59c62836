import Chip8.Text.Hex
import Mathlib

/-!
# Reading hexadecimal text

A numeral of a fixed width can be read back: `Hex.read? w` finds the `w` lowest digits of the
number that they were taken from (`Hex.read?_fixedDigits`). A number with no more digits than that
is found again.
-/

set_option autoImplicit false

namespace Chip8.Hex

/-- The last digit is the lowest one of the number, and the others are those of the rest. -/
theorem exists_digit (w n : Nat) :
    ∃ d : Fin 16, d.val = n % 16 ∧ fixedDigits (w + 1) n = fixedDigits w (n / 16) ++ [digit d] :=
  ⟨_, rfl, rfl⟩

@[simp] theorem length_fixedDigits (w n : Nat) : (fixedDigits w n).length = w := by
  induction w generalizing n with
  | zero => rfl
  | succ w ih =>
      obtain ⟨d, -, hdigits⟩ := exists_digit w n
      rw [hdigits, List.length_append, ih, List.length_singleton]

theorem eq_digit_of_mem_fixedDigits {c : Char} {w n : Nat} (h : c ∈ fixedDigits w n) :
    ∃ d, c = digit d := by
  induction w generalizing n with
  | zero => cases h
  | succ w ih =>
      obtain ⟨d, -, hdigits⟩ := exists_digit w n
      rw [hdigits] at h
      rcases List.mem_append.1 h with hfirst | hlast
      · exact ih hfirst
      · exact ⟨d, List.mem_singleton.1 hlast⟩

/-! ## Reading -/

/-- The value of a digit. -/
def digit? (c : Char) : Option (Fin 16) :=
  (List.finRange 16).find? fun d => digit d == c

theorem digit?_digit (d : Fin 16) : digit? (digit d) = some d := by
  revert d
  decide

/-- The number that is written with the digits of `high` and some more. -/
def readFrom? (high : Nat) : List Char → Option Nat
  | [] => some high
  | c :: rest => (digit? c).bind fun d => readFrom? (16 * high + d.val) rest

theorem readFrom?_fixedDigits (high w n : Nat) (rest : List Char) :
    readFrom? high (fixedDigits w n ++ rest) = readFrom? (16 ^ w * high + n % 16 ^ w) rest := by
  -- a digit is written behind the others, but it is read after them
  induction w generalizing n rest with
  | zero =>
      show readFrom? high rest = _
      rw [Nat.pow_zero, Nat.one_mul, Nat.mod_one, Nat.add_zero]
  | succ w ih =>
      obtain ⟨d, hd, hdigits⟩ := exists_digit w n
      have hlast : 16 * (16 ^ w * high + n / 16 % 16 ^ w) + d.val =
          16 ^ (w + 1) * high + n % 16 ^ (w + 1) := by
        rw [hd, Nat.pow_succ', Nat.mod_mul, Nat.mul_assoc]
        omega
      rw [hdigits, List.append_assoc, ih, List.singleton_append, readFrom?, digit?_digit]
      exact congrArg (readFrom? · rest) hlast

/-- The number that is written with exactly `w` digits. -/
def read? (w : Nat) (cs : List Char) : Option Nat :=
  if cs.length = w then readFrom? 0 cs else none

theorem read?_fixedDigits (w n : Nat) : read? w (fixedDigits w n) = some (n % 16 ^ w) := by
  have hread := readFrom?_fixedDigits 0 w n []
  rw [List.append_nil, Nat.mul_zero, Nat.zero_add] at hread
  rw [read?, if_pos (length_fixedDigits w n), hread, readFrom?]

/-! ## Padded numerals -/

theorem width_le {n w : Nat} (hw : 0 < w) (hn : n < 16 ^ w) : width n ≤ w := by
  have hlog : n.log2 < 4 * w := by
    rcases Nat.eq_zero_or_pos n with rfl | hpos
    · rw [Nat.log2_zero]
      omega
    · rw [Nat.log2_lt (Nat.ne_of_gt hpos), Nat.pow_mul]
      exact hn
  rw [width]
  omega

/-- A number that needs no more digits than the width is written with exactly so many. -/
theorem padded_of_lt {n w : Nat} (hw : 0 < w) (hn : n < 16 ^ w) : padded w n = fixed w n := by
  rw [padded, if_neg (by omega), Int.natAbs_natCast, Nat.max_eq_right (width_le hw hn)]

/-- Numbers with the same text are the same. -/
theorem padded_inj {m n w : Nat} (hw : 0 < w) (hm : m < 16 ^ w) (hn : n < 16 ^ w)
    (h : padded w m = padded w n) : m = n := by
  rw [padded_of_lt hw hm, padded_of_lt hw hn, fixed, fixed, String.ofList_inj] at h
  have hread := congrArg (read? w) h
  rw [read?_fixedDigits, read?_fixedDigits, Nat.mod_eq_of_lt hm, Nat.mod_eq_of_lt hn] at hread
  exact Option.some.inj hread

end Chip8.Hex
