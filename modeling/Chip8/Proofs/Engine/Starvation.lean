import Chip8.Engine.Command
import Chip8.Number.Basic
import Chip8.Proofs.Engine.Pace
import Chip8.Proofs.Memory.Program
import Chip8.Proofs.Number.Binary64

/-!
# Slow rates

A slice of a run whose rates are exact numbers, and whose ticks come on time, is worth
`rate / timerRate` instructions. If this is less than one, the account has to grow over several
slices before an instruction is due; the ceiling, which is what four slices are worth, may lie
below one, and then it never is. `Engine.lt_cycles_begin_iff` says exactly when a run executes an
instruction: not before its ticks are worth one, and never at all if four ticks are not.

Rounding does not help: a run whose ceiling lies below one in binary64 executes no instruction
either, whatever times its ticks report (`Engine.cycles_settle_of_ceiling_lt`).
-/

set_option autoImplicit false

namespace Chip8

/-! ## Runs on time -/

namespace Engine

/-- Slices of `dt` seconds are on time, and the account owes nothing. -/
structure OnTime (dt : Rat) (e : Engine Rat) : Prop where
  rate : 0 < e.rate
  timerRate : 0 < e.timerRate
  budget : 0 ≤ e.budget
  period : dt = 1 / e.timerRate

/-- What a slice on time is worth. -/
def worth (e : Engine Rat) : Rat :=
  Pace.worth e.rate e.timerRate

/-- The account after a slice on time, under the ceiling. -/
def raised (e : Engine Rat) : Rat :=
  Pace.raised e.rate e.timerRate e.budget

section Idled

variable {e f : Engine Rat} (h : e.Idled f)
include h

theorem Idled.worth_eq : f.worth = e.worth := by
  rw [worth, worth, h.rate, h.timerRate]

theorem Idled.raised_eq (hbudget : f.budget = e.budget) : f.raised = e.raised := by
  rw [raised, raised, h.rate, h.timerRate, hbudget]

theorem Idled.onTime {dt : Rat} (he : e.OnTime dt) (hbudget : 0 ≤ f.budget) : f.OnTime dt :=
  ⟨h.rate ▸ he.rate, h.timerRate ▸ he.timerRate, hbudget, h.timerRate ▸ he.period⟩

end Idled

section OnTime

variable {e : Engine Rat} {dt : Rat} (h : e.OnTime dt)
include h

theorem OnTime.worth_pos : 0 < e.worth :=
  Pace.worth_pos h.rate h.timerRate

theorem OnTime.raised_nonneg : 0 ≤ e.raised :=
  Pace.raised_nonneg h.rate h.timerRate h.budget

theorem OnTime.slice_eq :
    Pace.slice e.rate e.timerRate e.budget dt = (e.raised - ⌊e.raised⌋, .ok ⌊e.raised⌋) := by
  rw [h.period]
  exact Pace.slice_onTime h.rate h.timerRate h.budget

/-- A slice that is not yet worth an instruction stays in the account. -/
theorem OnTime.slice_of_lt (hx : e.raised < 1) :
    Pace.slice e.rate e.timerRate e.budget dt = (e.raised, .ok 0) := by
  have hfloor : ⌊e.raised⌋ = 0 := Int.floor_eq_zero_iff.2 ⟨h.raised_nonneg, hx⟩
  rw [h.slice_eq, hfloor, Int.cast_zero, sub_zero]

/-- A tick that is not yet worth an instruction executes none, and the account grows by what it is
worth, unless the run is asked to stop. -/
theorem OnTime.tick [Tracing] (hx : e.raised < 1) (id : Nat) :
    let f := (e.tick id dt).1
    f.OnTime dt ∧ e.Idled f ∧ (f.budget = e.budget ∨ f.budget = e.raised) := by
  intro f
  obtain ⟨g, hw, htick⟩ := tick_worked e id dt
  have hidle : e.Idled g := hw.idled
  obtain ⟨asked, hl⟩ := hw
  have hbudget : g.budget = e.budget := congrArg Ledger.budget hl
  have hg : g.OnTime dt := hidle.onTime h (hbudget ▸ h.budget)
  have hraised : g.raised = e.raised := hidle.raised_eq hbudget
  rcases htick with htick | htick
  · rw [show f = g from htick]
    exact ⟨hg, hidle, Or.inl hbudget⟩
  · have hslice := hg.slice_of_lt (hraised ▸ hx)
    have hf : f.ledger = { e.ledger with
        machine := g.machine, stopRequested := e.stopRequested || asked, budget := e.raised } := by
      rw [show f = (g.cpuTick .run dt).1 from htick,
        ledger_cpuTick_of_nonpos hslice (le_refl 0) .run, hl, hraised]
    have hfidle : e.Idled f := .of_ledger hf rfl
    have hfbudget : f.budget = e.raised := congrArg Ledger.budget hf
    exact ⟨hfidle.onTime h (hfbudget ▸ h.raised_nonneg), hfidle, Or.inr hfbudget⟩

end OnTime

section Runs

variable [Tracing]

/-- Ticks on time that are together not worth an instruction execute none. -/
theorem cycles_play_of_lt {e : Engine Rat} {dt : Rat} (h : e.OnTime dt) (id : Nat) {n : Nat}
    (hn : e.budget + n * e.worth < 1) :
    (play id (List.replicate n dt) e).cycles = e.cycles := by
  -- what a tick adds to the account, the ticks to come are worth less
  induction n generalizing e with
  | zero => exact congrArg Ledger.cycles (ledger_rest e id)
  | succ n ih =>
      rw [Nat.cast_succ] at hn
      have hlater : 0 ≤ n * e.worth := mul_nonneg (Nat.cast_nonneg n) h.worth_pos.le
      have hle : e.raised ≤ e.budget + e.worth := min_le_left _ _
      cases hid : e.stopped id with
      | true =>
          rw [play_of_stopped hid]
          exact congrArg Ledger.cycles (ledger_finish e)
      | false =>
          obtain ⟨hf, hidle, hbudget⟩ := h.tick (by linarith) id
          rw [List.replicate_succ]
          rcases play_cons hid dt (List.replicate n dt) with hl | hnext
          · exact (congrArg Ledger.cycles hl).trans hidle.cycles
          · rw [hnext, ← hidle.cycles]
            refine ih hf ?_
            rw [hidle.worth_eq]
            rcases hbudget with hbudget | hbudget
            · rw [hbudget]
              linarith [h.worth_pos]
            · rw [hbudget]
              linarith

/-- Ticks on time that are together worth an instruction execute one if four of them are, unless
the machine waits for a key or the run has to stop. -/
theorem lt_cycles_or_stopped_play_of_le {e : Engine Rat} {dt : Rat} (h : e.OnTime dt)
    {m : Machine} (hm : e.machine = some m) (hreach : m.Reachable) (hready : m.Ready)
    (hstop : e.stopRequested = false) (hb : e.budget < 1) {n : Nat}
    (hn : 1 ≤ e.budget + n * e.worth) (hfour : 1 ≤ e.worth * 4) :
    e.cycles < (play e.generation (List.replicate n dt) e).cycles ∨
      (play e.generation (List.replicate n dt) e).stopped e.generation = true := by
  -- no later than the last tick the account reaches one, which the ceiling does not prevent
  induction n generalizing e m with
  | zero =>
      rw [Nat.cast_zero, zero_mul, add_zero] at hn
      linarith
  | succ n ih =>
      rw [Nat.cast_succ] at hn
      have hid : e.stopped e.generation = false := (stopped_generation e).trans hstop
      rw [List.replicate_succ]
      by_cases hx : e.raised < 1
      · rcases tick_of_nonpos hm hid (h.slice_of_lt hx) (le_refl 0) with hasked | ⟨hresult, hg⟩
        · exact lt_cycles_or_stopped_play hid (Or.inr hasked) _
        · -- nothing is due yet: the account takes the slice in, and the run goes on
          rw [play_cons_of_ok hid hresult]
          generalize (e.tick e.generation dt).1 = g at hg ⊢
          have hidle : e.Idled g := .of_ledger hg rfl
          have hbudget : g.budget = e.raised := congrArg Ledger.budget hg
          have hgeneration : g.generation = e.generation := congrArg Ledger.generation hg
          have hsum : e.raised = e.budget + e.worth :=
            min_eq_left (not_lt.1 fun hlt => absurd (min_eq_right hlt.le ▸ hx) (not_lt.2 hfour))
          rw [← hidle.cycles, ← hgeneration]
          refine ih (hidle.onTime h (hbudget ▸ h.raised_nonneg)) (congrArg Ledger.machine hg)
            (hreach.perform (o := .tick) rfl) hready
            ((congrArg Ledger.stopRequested hg).trans hstop) (hbudget ▸ hx) ?_
            (hidle.worth_eq ▸ hfour)
          rw [hbudget, hidle.worth_eq, hsum]
          linarith
      · have hdue : 0 < ⌊e.raised⌋ := Int.floor_pos.2 (not_lt.1 hx)
        refine lt_cycles_or_stopped_play hid ?_ _
        exact lt_cycles_or_stopped_tick hm hreach hready hstop h.slice_eq hdue

/-- A run whose rate of ticks is a rate can make its clock, and begins with its first tick. -/
theorem begin_eq_play {e : Engine Rat} (ht : 0 < e.timerRate) (times : List Rat)
    (later : List (List Rat)) :
    ∃ f, f.ledger = e.ledger ∧ e.begin times later = play f.generation times f := by
  have hperiod : Quantity.div (Quantity.one : Rat) e.timerRate = .ok (1 / e.timerRate) :=
    if_neg ht.ne'
  have hopen : ∃ f, e.openClock later = some f := by
    rw [openClock, hperiod]
    exact ⟨_, rfl⟩
  obtain ⟨f, hf⟩ := hopen
  refine ⟨f, ledger_of_openClock hf, ?_⟩
  rw [begin, hf]

/-- A run whose ticks come on time executes an instruction exactly if its ticks are together worth
one and four of them are, too, provided that it need not stop before the end and that the machine
waits for no key when it begins. -/
theorem lt_cycles_begin_iff {e : Engine Rat} (hr : 0 < e.rate) (ht : 0 < e.timerRate)
    {m : Machine} (hm : e.machine = some m) (hreach : m.Reachable) (hready : m.Ready)
    (caller : Caller) (n : Nat) (later : List (List Rat)) :
    let run := e.start caller
    let final := run.begin (List.replicate n (1 / e.timerRate)) later
    final.stopped run.generation = false →
      (e.cycles < final.cycles ↔
        1 ≤ n * (e.rate / e.timerRate) ∧ 1 ≤ e.rate / e.timerRate * 4) := by
  intro run final hgo
  have hrun := ledger_start e caller
  obtain ⟨f, hf, hbegin⟩ := begin_eq_play (e := run)
    (by rw [show run.timerRate = e.timerRate from congrArg Ledger.timerRate hrun]; exact ht)
    (List.replicate n (1 / e.timerRate)) later
  have hgeneration : f.generation = run.generation := congrArg Ledger.generation hf
  rw [hrun] at hf
  have hidle : e.Idled f := .of_ledger hf rfl
  have hbudget : f.budget = 0 := congrArg Ledger.budget hf
  have hon : f.OnTime (1 / e.timerRate) :=
    ⟨hidle.rate ▸ hr, hidle.timerRate ▸ ht, hbudget.ge, by rw [hidle.timerRate]⟩
  have hworth : f.worth = e.rate / e.timerRate := hidle.worth_eq
  have hfinal : final = play f.generation (List.replicate n (1 / e.timerRate)) f := hbegin
  rw [← hworth, ← hidle.cycles, hfinal]
  constructor
  · intro hlt
    constructor
    · by_contra hn
      have hsame := cycles_play_of_lt hon f.generation (n := n)
        (by rw [hbudget, zero_add]; exact not_le.1 hn)
      exact absurd hsame hlt.ne'
    · by_contra hfour
      have hstarves : Pace.Starves f.rate f.timerRate :=
        Pace.starves_of_lt hon.timerRate (not_le.1 hfour)
      exact absurd (idled_play hstarves f.generation _).cycles hlt.ne'
  · rintro ⟨hn, hfour⟩
    rcases lt_cycles_or_stopped_play_of_le hon ((congrArg Ledger.machine hf).trans hm) hreach
      hready (congrArg Ledger.stopRequested hf) (by rw [hbudget]; exact zero_lt_one)
      (by rw [hbudget, zero_add]; exact hn) hfour with hlt | hstopped
    · exact hlt
    · rw [← hfinal, hgeneration, hgo] at hstopped
      cases hstopped

end Runs

open Tracing.Off in
/-- At twenty instructions and sixty ticks a second, three ticks are worth an instruction, and a
program that jumps to itself has executed it. -/
theorem lt_cycles_begin_of_three_ticks :
    ∃ new : Engine Rat,
      create 20 60 ⟨fun _ => 0, 0⟩ ⟨.ignore, none, none⟩ [[1 / 60, 1 / 60, 1 / 60]] = .ok new ∧
      let e := (new.init [0x12, 0x00]).1
      let run := e.start .outside
      let final := run.begin (List.replicate 3 (1 / e.timerRate)) []
      final.stopped run.generation = false ∧ 0 < final.cycles := by
  refine ⟨_, rfl, ?_⟩
  intro e run final
  let m := ((Machine.fresh .idle ⟨fun _ => 0, 0⟩).perform (.init [0x12, 0x00])).machine
  have hm : e.machine = some m := rfl
  have hgo : final.stopped run.generation = false := by decide +kernel
  have hiff := lt_cycles_begin_iff (e := e) (by decide +kernel) (by decide +kernel) hm
    ((Machine.Reachable.fresh _ _).perform (o := .init [0x12, 0x00]) rfl) (Or.inl rfl) .outside 3 []
    hgo
  exact ⟨hgo, hiff.2 ⟨by decide +kernel, by decide +kernel⟩⟩

end Engine

/-! ## Accounts in binary64 -/

/-- An account that is worth a whole instruction exceeds any number below one. -/
theorem Number.exceeds_of_whole_pos {limit : Float} (h : limit < 1.0) {account : Number}
    {count : Int} (hw : account.whole = .ok count) (hc : 0 < count) :
    account.exceeds (.real limit) = true := by
  cases account with
  | int z =>
      have hz : 0 < z := by
        rw [show z = count from Except.ok.inj hw]
        exact hc
      have htoFloat : (Number.int z).toFloat = Binary64.ofInt z := rfl
      cases hx : Binary64.ofInt z with
      | error reason =>
          simp only [Number.exceeds, htoFloat, hx]
          exact decide_eq_true hz
      | ok x =>
          simp only [Number.exceeds, htoFloat, hx]
          exact decide_eq_true (Binary64.lt_of_reachesOne h (Binary64.reachesOne_ofInt hz hx))
  | real x =>
      exact decide_eq_true
        (Binary64.lt_of_reachesOne h (Binary64.reachesOne_of_truncate hw hc))

/-- If the ceiling lies below one, rounded as it is, then no account is worth an instruction. -/
theorem Pace.starves_of_ceiling_lt {rate timerRate : Number} {limit : Float}
    (hl : ceiling rate timerRate = .ok (.real limit)) (h : limit < 1.0) :
    Starves rate timerRate := by
  intro limit' hl' account count hw
  cases hl.symm.trans hl'
  refine Int.not_lt.1 fun hc => ?_
  unfold capped at hw
  by_cases hexceeds : Quantity.exceeds account (.real limit) = true
  · rw [if_pos hexceeds] at hw
    exact Binary64.not_lt_one_of_reachesOne (Binary64.reachesOne_of_truncate hw hc) h
  · rw [if_neg hexceeds] at hw
    exact hexceeds (Number.exceeds_of_whole_pos h hw hc)

namespace Engine

/-- A run whose ceiling lies below one never executes an instruction, whatever its ticks report,
nor does any run that takes its place. -/
theorem cycles_settle_of_ceiling_lt [Tracing] {e : Engine Number} {limit : Float}
    (hl : Pace.ceiling e.rate e.timerRate = .ok (.real limit)) (h : limit < 1.0)
    (caller : Caller) : (e.start caller).settle.cycles = e.cycles := by
  have hstarted : e.Idled (e.start caller) := .of_ledger (ledger_start e caller) rfl
  exact (hstarted.trans (idled_settle (hstarted.starves (Pace.starves_of_ceiling_lt hl h)))).cycles

open Tracing.Off in
/-- At fourteen instructions and sixty ticks a second, nine ticks on time are worth two
instructions, but the ceiling lies below one, and none is executed. -/
theorem settle_starves :
    ∃ new : Engine Number,
      create (.int 14) (.int 60) ⟨fun _ => 0, 0⟩ ⟨.ignore, none, none⟩
        [List.replicate 9 (.real (1.0 / 60.0))] = .ok new ∧
      let final := ((new.init [0x12, 0x00]).1.start .outside).settle
      2 * 60 ≤ 9 * 14 ∧ final.isRunning = true ∧ final.fault = none ∧
        final.machine.map (·.awaiting) = some none ∧ final.cycles = 0 := by
  refine ⟨_, rfl, ?_⟩
  intro final
  have hceiling : Pace.ceiling (Number.int 14) (.int 60) = .ok (.real (14.0 / 60.0 * 4.0)) := rfl
  -- four slices are worth less than one instruction, whatever time they report
  have hcycles : final.cycles = 0 := cycles_settle_of_ceiling_lt hceiling (by decide +kernel) _
  exact ⟨by decide, by decide +kernel, by decide +kernel, by decide +kernel, hcycles⟩

end Engine

end Chip8
