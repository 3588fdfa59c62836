import Chip8.Number.Exact
import Chip8.Proofs.Engine.Ticks
import Mathlib.Data.Rat.Floor
import Mathlib.Tactic.FieldSimp
import Mathlib.Tactic.Linarith

/-!
# Exact accounts

The arithmetic of slices over the rational numbers. A slice of `dt` seconds adds `dt * rate` to the
account, the ceiling cuts it down to what four periods of the timer clock are worth, and the whole
part is taken out (`Pace.slice_eq`).
-/

set_option autoImplicit false

namespace Chip8

namespace Pace

/-- What a slice on time is worth. -/
def worth (rate timerRate : Rat) : Rat :=
  rate / timerRate

/-- The account after a slice on time, under the ceiling. -/
def raised (rate timerRate budget : Rat) : Rat :=
  min (budget + worth rate timerRate) (worth rate timerRate * 4)

theorem worth_pos {rate timerRate : Rat} (hr : 0 < rate) (ht : 0 < timerRate) :
    0 < worth rate timerRate :=
  div_pos hr ht

theorem whole_of_nonneg {x : Rat} (hx : 0 ≤ x) : Quantity.whole x = .ok ⌊x⌋ := by
  show Except.ok (x.num.tdiv x.den) = _
  rw [Int.tdiv_eq_ediv_of_nonneg (Rat.num_nonneg.2 hx), ← Rat.floor_def']

theorem whole_nonpos {x : Rat} (hx : x < 1) {count : Int} (h : Quantity.whole x = .ok count) :
    count ≤ 0 := by
  have hcount : x.num.tdiv x.den = count := Except.ok.inj h
  have hlt : x.num < x.den := by
    have hone := (Rat.lt_iff x 1).1 hx
    simpa using hone
  by_cases hn : 0 ≤ x.num
  · rw [← hcount, Int.tdiv_eq_zero_of_lt hn hlt]
  · have hneg := Int.tdiv_nonneg (show 0 ≤ -x.num by omega) (Int.natCast_nonneg x.den)
    rw [Int.neg_tdiv] at hneg
    omega

theorem capped_eq_min (account limit : Rat) : capped account limit = min account limit := by
  have hexceeds : Quantity.exceeds account limit = true ↔ limit < account := decide_eq_true_iff
  unfold capped
  by_cases hlt : limit < account
  · rw [if_pos (hexceeds.2 hlt), min_eq_right hlt.le]
  · rw [if_neg (mt hexceeds.1 hlt), min_eq_left (not_lt.1 hlt)]

theorem ceiling_eq {rate timerRate : Rat} (ht : 0 < timerRate) :
    ceiling rate timerRate = .ok (worth rate timerRate * 4) := by
  have hdiv : Quantity.div rate timerRate = .ok (worth rate timerRate) := if_neg ht.ne'
  rw [ceiling, hdiv]
  rfl

/-- The account after a slice of `dt` seconds, under the ceiling. -/
def due (rate timerRate budget dt : Rat) : Rat :=
  min (budget + dt * rate) (worth rate timerRate * 4)

/-- A slice on time is the slice of one period of the timer clock. -/
theorem raised_eq_due (rate timerRate budget : Rat) :
    raised rate timerRate budget = due rate timerRate budget (1 / timerRate) := by
  rw [raised, due, worth, one_div_mul_eq_div]

theorem due_nonneg {rate timerRate budget dt : Rat} (hr : 0 < rate) (ht : 0 < timerRate)
    (hb : 0 ≤ budget) (hd : 0 ≤ dt) : 0 ≤ due rate timerRate budget dt := by
  have hq := worth_pos hr ht
  have hgain : 0 ≤ dt * rate := mul_nonneg hd hr.le
  exact le_min (by linarith) (by linarith)

theorem raised_nonneg {rate timerRate budget : Rat} (hr : 0 < rate) (ht : 0 < timerRate)
    (hb : 0 ≤ budget) : 0 ≤ raised rate timerRate budget := by
  rw [raised_eq_due]
  exact due_nonneg hr ht hb (one_div_pos.2 ht).le

/-- A slice takes the whole part out of the account that is due. -/
theorem slice_eq {rate timerRate budget dt : Rat} (hr : 0 < rate) (ht : 0 < timerRate)
    (hb : 0 ≤ budget) (hd : 0 ≤ dt) :
    slice rate timerRate budget dt =
      (due rate timerRate budget dt - ⌊due rate timerRate budget dt⌋,
        .ok ⌊due rate timerRate budget dt⌋) := by
  have hcredit : credit rate budget dt = .ok (budget + dt * rate) := rfl
  have hwithdraw : withdraw (due rate timerRate budget dt) =
      .ok (due rate timerRate budget dt - ⌊due rate timerRate budget dt⌋,
        ⌊due rate timerRate budget dt⌋) := by
    rw [withdraw, whole_of_nonneg (due_nonneg hr ht hb hd)]
    rfl
  have hcapped := capped_eq_min (budget + dt * rate) (worth rate timerRate * 4)
  rw [← due] at hcapped
  simp only [slice, hcredit, ceiling_eq ht, hcapped, hwithdraw]

theorem slice_onTime {rate timerRate budget : Rat} (hr : 0 < rate) (ht : 0 < timerRate)
    (hb : 0 ≤ budget) :
    slice rate timerRate budget (1 / timerRate) =
      (raised rate timerRate budget - ⌊raised rate timerRate budget⌋,
        .ok ⌊raised rate timerRate budget⌋) := by
  rw [raised_eq_due]
  exact slice_eq hr ht hb (one_div_pos.2 ht).le

/-- If four slices on time are worth less than an instruction, then no slice is worth one. -/
theorem starves_of_lt {rate timerRate : Rat} (ht : 0 < timerRate)
    (h : worth rate timerRate * 4 < 1) : Starves rate timerRate := by
  intro limit hl account count hw
  rw [ceiling_eq ht] at hl
  cases hl
  rw [capped_eq_min] at hw
  exact whole_nonpos (lt_of_le_of_lt (min_le_right _ _) h) hw

end Pace

end Chip8
