import Chip8.Proofs.Engine.Account
import Chip8.Proofs.Engine.Pace

/-!
# The rate of a run

How many instructions a run executes, its rates and times being exact numbers. On a beat the account
of instructions gains what the time is worth, is cut down to the ceiling, and pays for what is
executed; a slice that is cut short wipes the rest. So the instructions of a beat and what it leaves
are together worth at most what it has found and gained (`Beat.executed_add_le`), and exactly that
if nothing was dropped (`Beat.Full.executed_add`). Along the beats of a run this adds up
(`Beat.Follow.bounded`, `Beat.Follow.exact`): a run never exceeds its rate, makes up for no time
that it has lost, and loses no time unless a slice was capped or cut short
(`Engine.rate_accounting`).
-/

set_option autoImplicit false

namespace Chip8

/-! ## What a slice leaves of the account -/

namespace Engine

variable {α : Type} [Quantity α] [Tracing]

/-- A call for instructions leaves the account as it is, unless the answer to a fault wipes it. -/
theorem budget_runCycles (e : Engine α) (caller : Caller) (count : Int) :
    (e.runCycles caller count).1.budget = e.budget ∨
      (e.runCycles caller count).1.budget = Quantity.zero := by
  cases hm : e.machine with
  | none =>
      rw [runCycles_of_noMachine hm]
      exact Or.inl rfl
  | some m =>
      obtain ⟨done, last, f, -, -, ⟨asked, hf⟩, hend⟩ := runSteps_end caller count.toNat hm 0
      have hbudget : f.budget = e.budget := congrArg Ledger.budget hf
      have hl := congrArg Ledger.budget (runCycles_of_machine hm caller count).1
      change (e.runCycles caller count).1.budget = _ at hl
      rw [hl]
      dsimp only [ledger]
      generalize runSteps caller count.toNat e 0 = ran at hend
      cases hend with
      | finished | misfit _ _ | waiting _ _ => exact Or.inl hbudget
      | @faulted s reason _ hfm =>
          have h := fail_answer hfm caller reason
          generalize f.fail caller s.machine reason = p at h ⊢
          cases h with
          | kept _ hl => exact Or.inl ((congrArg Ledger.budget hl).trans hbudget)
          | refused _ _ hl | restarted _ _ hl => exact Or.inr (congrArg Ledger.budget hl)

theorem leftover_runCycles (e : Engine α) (caller : Caller) (count : Int) :
    leftover count (e.runCycles caller count) = e.budget ∨
      leftover count (e.runCycles caller count) = Quantity.zero := by
  have hcalled := budget_runCycles e caller count
  generalize e.runCycles caller count = called at hcalled ⊢
  unfold leftover
  rcases called.2 with reason | executed
  · exact hcalled
  · dsimp only
    by_cases hlt : (executed : Int) < count
    · rw [if_pos hlt]
      exact Or.inr rfl
    · rw [if_neg hlt]
      exact hcalled

/-- A slice that was served in full leaves the account as it is. -/
theorem leftover_of_served {e : Engine α} {caller : Caller} {count : Int}
    (h : (((e.steps caller count.toNat).filterMap Step.instruction?).length : Int) = count) :
    leftover count (e.runCycles caller count) = e.budget := by
  cases hm : e.machine with
  | none => rw [runCycles_of_noMachine hm]; rfl
  | some m =>
      obtain ⟨done, last, f, hsteps, -, ⟨asked, hf⟩, hend⟩ :=
        runSteps_end caller count.toNat hm 0
      have hbudget : f.budget = e.budget := congrArg Ledger.budget hf
      have hexecuted := executed_runSteps hm caller count.toNat
      obtain ⟨hl, hresult⟩ := runCycles_of_machine hm caller count
      replace hl := congrArg Ledger.budget hl
      have hlength := length_steps_le caller count.toNat e
      rw [hsteps, List.length_append] at hlength
      rw [Nat.zero_add] at hend
      dsimp only at hl hresult
      generalize runSteps caller count.toNat e 0 = ran at hend hexecuted hl hresult
      -- all the steps of the call have carried an instruction out, so that there is no other one
      have hdone : ran.executed = done.length := by cases hend <;> rfl
      have hnone : last = [] := List.eq_nil_of_length_eq_zero (by omega)
      subst hnone
      cases hend
      have hserved : ¬ (done.length : Int) < count := by omega
      unfold leftover
      rw [hresult]
      dsimp only [Except.map]
      rw [if_neg hserved]
      exact hl.trans hbudget

end Engine

/-! ## Beats -/

namespace Beat

section Outcome

variable {α : Type} [Quantity α] [Tracing]

/-- The number of instructions that are executed on a beat. -/
def executed (t : Beat α) : Nat :=
  t.instructions.length

/-- The number of instructions that are executed on some beats. -/
def total (beats : List (Beat α)) : Nat :=
  (beats.map executed).sum

@[simp] theorem total_nil : total ([] : List (Beat α)) = 0 := rfl

@[simp] theorem total_cons (t : Beat α) (rest : List (Beat α)) :
    total (t :: rest) = t.executed + total rest :=
  List.sum_cons

/-- A beat ends before its slice, and executes nothing. -/
structure Barren (t : Beat α) : Prop where
  executed : t.executed = 0
  deeds : ∀ d ∈ t.deeds, ∀ count, d.job ≠ .runCycles count
  budget : t.after.budget = t.before.budget

/-- The slice of a beat is worth `count` instructions beside `left` of the account, which is wiped
if it is cut short. -/
structure Sliced (left : α) (count : Int) (t : Beat α) : Prop where
  executed : t.executed ≤ count.toNat
  deeds : ∀ d ∈ t.deeds, ∀ n, d.job = .runCycles n → n = count ∧ d.instructions.length = t.executed
  budget : t.after.budget = left ∨ t.after.budget = Quantity.zero
  served : (t.executed : Int) = count → t.after.budget = left

theorem Barren.of_worked {t : Beat α} (hw : t.before.Worked t.after) {d : Deed α}
    (hd : d.job = .tickTimers) (hdeeds : t.deeds = [d]) : t.Barren := by
  obtain ⟨asked, hl⟩ := hw
  refine ⟨?_, ?_, congrArg Ledger.budget hl⟩
  · rw [Beat.executed, instructions, hdeeds, List.flatMap_singleton, Deed.instructions, Deed.steps,
      hd]
    rfl
  · rw [hdeeds]
    refine List.forall_mem_singleton.2 fun count hcount => ?_
    cases hd.symm.trans hcount

/-- A beat counts the timers down; unless this fails or brings a stop, the slice comes next. -/
theorem barren_or_cpuTick (t : Beat α) (hgo : t.before.stopped t.run = false) :
    t.Barren ∨ ∃ (ticked : Deed α) (f : Engine α), ticked.job = .tickTimers ∧
      t.before.Worked f ∧ t.deeds = ticked :: f.cpuTickDeeds (some t.run) t.dt ∧
      t.after = (f.cpuTick .run t.dt).1 := by
  have hcounted := Engine.ledger_countTick t.before
  have hstay : t.before.countTick.stopped t.run = false :=
    (Engine.stopped_of_ledger hcounted t.run).trans hgo
  cases hm : t.before.countTick.machine with
  | none =>
      have htick := Engine.tickTimers_of_noMachine hm .run
      have hdeeds : t.deeds = [⟨some t.run, .tickTimers, t.before.countTick⟩] := by
        rw [deeds, Engine.tickDeeds, Engine.countedDeeds, hstay, htick]
        rfl
      have hafter : t.after = t.before.countTick := by
        rw [after, Engine.tick, Engine.guarded, hstay, htick]
        rfl
      exact Or.inl (.of_worked (.of_ledger_eq (hafter ▸ hcounted)) rfl hdeeds)
  | some m =>
      obtain ⟨f, htick, hw, -⟩ := Engine.worked_tickTimers hm .run
      have hworked : t.before.Worked f := (Engine.Worked.of_ledger_eq hcounted).trans hw
      have hdeeds : t.deeds = ⟨some t.run, .tickTimers, t.before.countTick⟩ ::
          if f.stopped t.run then [] else f.cpuTickDeeds (some t.run) t.dt := by
        rw [deeds, Engine.tickDeeds, Engine.countedDeeds, hstay, htick]
        rfl
      have hafter : t.after = (f.guarded t.run (·.cpuTick .run t.dt)).1 := by
        rw [after, Engine.tick, Engine.guarded, hstay, htick]
        rfl
      dsimp only [Engine.guarded] at hafter
      -- the slice comes if the counting of the timers has brought no stop
      cases hstop : f.stopped t.run with
      | true =>
          rw [hstop] at hdeeds hafter
          exact Or.inl (.of_worked (hafter ▸ hworked) rfl hdeeds)
      | false =>
          rw [hstop] at hdeeds hafter
          exact Or.inr ⟨_, f, rfl, hworked, hdeeds, hafter⟩

/-- What a slice of the time makes of the account tells what happens on a beat with a slice. -/
theorem barren_or_sliced {t : Beat α} (hgo : t.before.stopped t.run = false) {left : α}
    {count : Int} (hs : Pace.slice t.before.rate t.before.timerRate t.before.budget t.dt =
      (left, .ok count)) : t.Barren ∨ t.Sliced left count := by
  refine (barren_or_cpuTick t hgo).imp_right ?_
  rintro ⟨ticked, f, hjob, ⟨asked, hf⟩, hdeeds, hafter⟩
  have hslice : Pace.slice f.rate f.timerRate f.budget t.dt = (left, .ok count) := by
    rw [show f.rate = t.before.rate from congrArg Ledger.rate hf,
      show f.timerRate = t.before.timerRate from congrArg Ledger.timerRate hf,
      show f.budget = t.before.budget from congrArg Ledger.budget hf]
    exact hs
  let d : Deed α := ⟨some t.run, .runCycles count, { f with budget := left }⟩
  have hcalled : f.cpuTickDeeds (some t.run) t.dt = [d] := by
    rw [Engine.cpuTickDeeds, hslice]
  have hnone : ticked.instructions = [] := by
    rw [Deed.instructions, Deed.steps, hjob]
    rfl
  have hexecuted : t.executed = d.instructions.length := by
    rw [executed, instructions, hdeeds, hcalled, List.flatMap_cons, hnone, List.nil_append,
      List.flatMap_singleton]
  have hbudget : t.after.budget =
      Engine.leftover count (d.before.runCycles .run count) := by
    rw [hafter]
    exact congrArg Ledger.budget (Engine.cpuTick_of_ok hslice .run).1
  refine ⟨?_, ?_, ?_, fun hserved => ?_⟩
  · rw [hexecuted]
    exact (List.length_filterMap_le _ _).trans (Engine.length_steps_le .run count.toNat d.before)
  · rw [hdeeds, hcalled]
    intro d' hd' n hn
    rcases List.mem_pair.1 hd' with rfl | rfl
    · cases hjob.symm.trans hn
    · cases hn
      exact ⟨rfl, hexecuted.symm⟩
  · rw [hbudget]
    exact Engine.leftover_runCycles d.before .run count
  · rw [hbudget]
    exact Engine.leftover_of_served ((congrArg Nat.cast hexecuted.symm).trans hserved)

end Outcome

/-- The time that passes on some beats. -/
def elapsed (beats : List (Beat Rat)) : Rat :=
  (beats.map Beat.dt).sum

@[simp] theorem elapsed_nil : elapsed [] = 0 := rfl

@[simp] theorem elapsed_cons (t : Beat Rat) (rest : List (Beat Rat)) :
    elapsed (t :: rest) = t.dt + elapsed rest :=
  List.sum_cons

/-- The account that is due on a beat, under the ceiling. -/
def due (t : Beat Rat) : Rat :=
  Pace.due t.before.rate t.before.timerRate t.before.budget t.dt

variable [Tracing]

/-- Nothing is dropped on a beat: there is a slice, the ceiling does not cap it, and as many
instructions are carried out as are called for. -/
structure Full (t : Beat Rat) : Prop where
  uncapped : t.before.budget + t.dt * t.before.rate ≤
    Pace.worth t.before.rate t.before.timerRate * 4
  served : ∃ d ∈ t.deeds, d.job = .runCycles d.instructions.length

theorem full_iff {t : Beat Rat} :
    t.Full ↔ t.before.budget + t.dt * t.before.rate ≤
        Pace.worth t.before.rate t.before.timerRate * 4 ∧
      ∃ d ∈ t.deeds, d.job = .runCycles d.instructions.length :=
  ⟨fun h => ⟨h.uncapped, h.served⟩, fun h => ⟨h.1, h.2⟩⟩

instance (t : Beat Rat) : Decidable t.Full :=
  decidable_of_iff _ full_iff.symm

/-- A beat at given rates, on which no negative time passes. -/
structure Regular (rate timerRate : Rat) (t : Beat Rat) : Prop where
  go : t.before.stopped t.run = false
  rate : t.before.rate = rate
  timerRate : t.before.timerRate = timerRate
  dt : 0 ≤ t.dt

section Regular

variable {rate timerRate : Rat} (hr : 0 < rate) (ht : 0 < timerRate) {t : Beat Rat}
  (h : t.Regular rate timerRate) (hb : 0 ≤ t.before.budget)
include hr ht h hb

omit [Tracing] in
theorem Regular.due_nonneg : 0 ≤ t.due := by
  rw [due, h.rate, h.timerRate]
  exact Pace.due_nonneg hr ht hb h.dt

/-- A slice calls for the whole part of what is due, and leaves the fraction. -/
theorem Regular.barren_or_sliced : t.Barren ∨ t.Sliced (Int.fract t.due) ⌊t.due⌋ := by
  refine Beat.barren_or_sliced h.go ?_
  rw [due, h.rate, h.timerRate, Pace.slice_eq hr ht hb h.dt]
  rfl

/-- The instructions of a beat and what it leaves are worth no more than what it has found and
gained. -/
theorem Regular.executed_add_le :
    (t.executed : Rat) + t.after.budget ≤ t.before.budget + t.dt * rate := by
  rcases h.barren_or_sliced hr ht hb with hbarren | hsliced
  · have hgain : 0 ≤ t.dt * rate := mul_nonneg h.dt hr.le
    rw [hbarren.executed, hbarren.budget, Nat.cast_zero, zero_add]
    exact le_add_of_nonneg_right hgain
  · have hfloor : 0 ≤ ⌊t.due⌋ := Int.floor_nonneg.2 (h.due_nonneg hr ht hb)
    have hexecuted : (t.executed : Int) ≤ ⌊t.due⌋ :=
      (Int.ofNat_le.2 hsliced.executed).trans_eq (Int.toNat_of_nonneg hfloor)
    have hleft : t.after.budget ≤ Int.fract t.due := by
      rcases hsliced.budget with hleft | hleft
      · exact hleft.le
      · exact hleft.trans_le (Int.fract_nonneg t.due)
    calc (t.executed : Rat) + t.after.budget ≤ ⌊t.due⌋ + Int.fract t.due := by
          exact add_le_add (by exact_mod_cast hexecuted) hleft
      _ = t.due := Int.floor_add_fract t.due
      _ ≤ t.before.budget + t.dt * t.before.rate := min_le_left _ _
      _ = t.before.budget + t.dt * rate := by rw [h.rate]

/-- A slice is worth at most the ceiling. -/
theorem Regular.executed_le : (t.executed : Rat) ≤ Pace.worth rate timerRate * 4 := by
  rcases h.barren_or_sliced hr ht hb with hbarren | hsliced
  · have hworth := Pace.worth_pos hr ht
    rw [hbarren.executed, Nat.cast_zero]
    linarith
  · have hdue := h.due_nonneg hr ht hb
    have hexecuted : t.executed ≤ ⌊t.due⌋₊ := hsliced.executed
    calc (t.executed : Rat) ≤ t.due := (Nat.cast_le.2 hexecuted).trans (Nat.floor_le hdue)
      _ ≤ Pace.worth t.before.rate t.before.timerRate * 4 := min_le_right _ _
      _ = Pace.worth rate timerRate * 4 := by rw [h.rate, h.timerRate]

/-- Less than an instruction is carried over. -/
theorem Regular.budget_after (hlt : t.before.budget < 1) :
    0 ≤ t.after.budget ∧ t.after.budget < 1 := by
  rcases h.barren_or_sliced hr ht hb with hbarren | hsliced
  · rw [hbarren.budget]
    exact ⟨hb, hlt⟩
  · rcases hsliced.budget with hleft | hleft
    · rw [hleft]
      exact ⟨Int.fract_nonneg t.due, Int.fract_lt_one t.due⟩
    · rw [hleft]
      exact ⟨le_refl 0, zero_lt_one⟩

/-- If nothing is dropped, then nothing is lost. -/
theorem Full.executed_add (hfull : t.Full) :
    (t.executed : Rat) + t.after.budget = t.before.budget + t.dt * rate := by
  obtain ⟨d, hd, hjob⟩ := hfull.served
  rcases h.barren_or_sliced hr ht hb with hbarren | hsliced
  · exact absurd hjob (hbarren.deeds d hd _)
  · obtain ⟨hcount, hlength⟩ := hsliced.deeds d hd _ hjob
    have hexecuted : (t.executed : Int) = ⌊t.due⌋ := by rw [← hcount, hlength]
    calc (t.executed : Rat) + t.after.budget = ⌊t.due⌋ + Int.fract t.due := by
          rw [hsliced.served hexecuted, ← hexecuted, Int.cast_natCast]
      _ = t.due := Int.floor_add_fract t.due
      _ = t.before.budget + t.dt * t.before.rate := min_eq_left hfull.uncapped
      _ = t.before.budget + t.dt * rate := by rw [h.rate]

end Regular

/-! ## Beats that follow each other -/

section Follow

variable {wiped : Prop} {beats : List (Beat Rat)} {budget : Rat}

/-- A beat finds what was left, or nothing. -/
theorem Follow.budget_before {t : Beat Rat} (h : Follow wiped budget (t :: beats))
    (hb : 0 ≤ budget) : 0 ≤ t.before.budget ∧ t.before.budget ≤ budget := by
  rcases h.1 with hfound | ⟨-, hfound⟩
  · exact ⟨hfound ▸ hb, hfound.le⟩
  · exact ⟨hfound.ge, hfound.trans_le hb⟩

variable {rate timerRate : Rat} (hr : 0 < rate) (ht : 0 < timerRate)
include hr ht

/-- Whatever is cut short or wiped, less than an instruction is carried over, and the beats pay for
their instructions with what they have found and gained. -/
theorem Follow.bounded (h : Follow wiped budget beats)
    (hregular : ∀ t ∈ beats, t.Regular rate timerRate) (hb : 0 ≤ budget ∧ budget < 1) :
    (0 ≤ left budget beats ∧ left budget beats < 1) ∧
      (total beats : Rat) + left budget beats ≤ budget + elapsed beats * rate := by
  induction beats generalizing budget with
  | nil =>
      refine ⟨hb, ?_⟩
      rw [total_nil, elapsed_nil, Nat.cast_zero, zero_add, zero_mul, add_zero]
      exact le_refl budget
  | cons t rest ih =>
      obtain ⟨hnonneg, hle⟩ := h.budget_before hb.1
      obtain ⟨hfirst, hlater⟩ := List.forall_mem_cons.1 hregular
      have hpaid := hfirst.executed_add_le hr ht hnonneg
      have hafter := hfirst.budget_after hr ht hnonneg (hle.trans_lt hb.2)
      obtain ⟨hleft, hsum⟩ := ih h.2 hlater hafter
      refine ⟨hleft, ?_⟩
      show (total (t :: rest) : Rat) + left t.after.budget rest ≤ _
      rw [total_cons, elapsed_cons, Nat.cast_add, add_mul]
      linarith

/-- If nothing is dropped or wiped, then the beats pay exactly that. -/
theorem Follow.exact (hkept : ¬ wiped) (h : Follow wiped budget beats)
    (hregular : ∀ t ∈ beats, t.Regular rate timerRate) (hb : 0 ≤ budget ∧ budget < 1)
    (hfull : ∀ t ∈ beats, t.Full) :
    (total beats : Rat) + left budget beats = budget + elapsed beats * rate := by
  induction beats generalizing budget with
  | nil =>
      rw [total_nil, elapsed_nil, Nat.cast_zero, zero_add, zero_mul, add_zero]
      rfl
  | cons t rest ih =>
      obtain ⟨hfound, hrest⟩ := h
      obtain ⟨hfirst, hlater⟩ := List.forall_mem_cons.1 hregular
      obtain ⟨hfullt, hfulls⟩ := List.forall_mem_cons.1 hfull
      have hbefore : t.before.budget = budget := hfound.resolve_right fun hw => hkept hw.1
      have hnonneg : 0 ≤ t.before.budget := hbefore ▸ hb.1
      have hpaid := hfullt.executed_add hr ht hfirst hnonneg
      have hafter := hfirst.budget_after hr ht hnonneg (hbefore ▸ hb.2)
      have hsum := ih hrest hlater hafter hfulls
      show (total (t :: rest) : Rat) + left t.after.budget rest = _
      rw [total_cons, elapsed_cons, Nat.cast_add, add_mul]
      linarith

/-- A stretch of beats executes less than an instruction more than its time is worth, whatever was
lost before. -/
theorem Follow.total_lt {lost kept : List (Beat Rat)} (h : Follow wiped budget (lost ++ kept))
    (hregular : ∀ t ∈ lost ++ kept, t.Regular rate timerRate) (hb : 0 ≤ budget ∧ budget < 1) :
    (total kept : Rat) < elapsed kept * rate + 1 := by
  obtain ⟨hlost, hkept⟩ := follow_append.1 h
  obtain ⟨hregular, hregular'⟩ := List.forall_mem_append.1 hregular
  have hfound := (hlost.bounded hr ht hregular hb).1
  obtain ⟨hleft, htotal⟩ := hkept.bounded hr ht hregular' hfound
  linarith

/-- Each beat executes no more than the ceiling. -/
theorem Follow.executed_le {past : List (Beat Rat)} {t : Beat Rat}
    (h : Follow wiped budget (past ++ [t]))
    (hregular : ∀ s ∈ past ++ [t], s.Regular rate timerRate) (hb : 0 ≤ budget ∧ budget < 1) :
    (t.executed : Rat) ≤ Pace.worth rate timerRate * 4 := by
  obtain ⟨hpast, hnow⟩ := follow_append.1 h
  obtain ⟨hregular, hregular'⟩ := List.forall_mem_append.1 hregular
  have hfound := (hpast.bounded hr ht hregular hb).1
  exact (hregular' t (List.mem_singleton_self t)).executed_le hr ht (hnow.budget_before hfound.1).1

/-- If nothing is dropped or wiped, then the beats execute what their time is worth, rounded down,
and leave the fraction. -/
theorem Follow.total_eq_floor (hkept : ¬ wiped) (h : Follow wiped 0 beats)
    (hregular : ∀ t ∈ beats, t.Regular rate timerRate) (hfull : ∀ t ∈ beats, t.Full) :
    (total beats : Int) = ⌊elapsed beats * rate⌋ ∧
      left 0 beats = Int.fract (elapsed beats * rate) := by
  have hempty : (0 : Rat) ≤ 0 ∧ (0 : Rat) < 1 := ⟨le_refl 0, zero_lt_one⟩
  have hleft := (h.bounded hr ht hregular hempty).1
  have hexact := h.exact hr ht hkept hregular hempty hfull
  rw [zero_add] at hexact
  have hfloor : ⌊elapsed beats * rate⌋ = (total beats : Int) := by
    rw [Int.floor_eq_iff, Int.cast_natCast, ← hexact]
    exact ⟨le_add_of_nonneg_right hleft.1, (add_lt_add_iff_left _).2 hleft.2⟩
  refine ⟨hfloor.symm, ?_⟩
  rw [← Int.self_sub_floor, hfloor, Int.cast_natCast, ← hexact]
  exact (add_sub_cancel_left _ _).symm

end Follow

end Beat

/-! ## Runs -/

namespace Engine

/-- The rates of a new engine are positive, and its account is empty. -/
theorem rates_of_create {rate timerRate : Rat} {random : RandomSource} {policy : Policy}
    {schedule : List (List Rat)} {new : Engine Rat}
    (h : create rate timerRate random policy schedule = .ok new) :
    (0 < rate ∧ 0 < timerRate) ∧
      new.rate = rate ∧ new.timerRate = timerRate ∧ new.budget = Quantity.zero := by
  unfold create at h
  by_cases hrates : (Quantity.atMostZero rate || Quantity.atMostZero timerRate) = true
  · rw [if_pos hrates] at h
    cases h
  · rw [if_neg hrates] at h
    cases h
    have hpositive : ∀ x : Rat, Quantity.atMostZero x = false → 0 < x := fun x hx =>
      not_le.1 (of_decide_eq_false hx)
    obtain ⟨hr, ht⟩ := Bool.or_eq_false_iff.1 (Bool.not_eq_true _ ▸ hrates)
    exact ⟨⟨hpositive rate hr, hpositive timerRate ht⟩, rfl, rfl, rfl⟩

section Histories

variable [Tracing]

/-- The beats of a run on which no slice is called for by hand follow each other from an empty
account, all at the rates of the engine. -/
theorem follow_of_create {rate timerRate : Rat} {random : RandomSource} {policy : Policy}
    {schedule : List (List Rat)} {new : Engine Rat}
    (hc : create rate timerRate random policy schedule = .ok new)
    {history : List (Occurrence Rat)} {id : Nat}
    (hslice : new.spared Occurrence.isSlice id history = true)
    (hdt : ∀ t ∈ new.beats history, t.run = id → 0 ≤ t.dt) :
    Beat.Follow (¬ new.spared Occurrence.isReset id history = true) 0
        ((new.beats history).filter fun t => t.run = id) ∧
      ∀ t ∈ (new.beats history).filter fun t => t.run = id, t.Regular rate timerRate := by
  obtain ⟨-, hrate, htimer, hbudget⟩ := rates_of_create hc
  have hpaced := paced_after history new hslice (Classical.em _)
  refine ⟨(hpaced.follow ⟨fun _ => rfl, fun _ => Or.inl hbudget⟩).1, fun t ht => ?_⟩
  obtain ⟨hmem, hrun⟩ := List.mem_filter.1 ht
  obtain ⟨hrate', htimer', hgo⟩ := hpaced.setting.2 t hmem
  exact ⟨hgo, hrate'.trans hrate, htimer'.trans htimer, hdt t hmem (of_decide_eq_true hrun)⟩

/-- The account of a run, its rates and times being exact, if no slice is called for by hand while
the run is the newest one. All that the run executes it executes on its beats. After each of them
less than an instruction is carried over; the beat has executed less than an instruction more than
its time is worth, and no more than the ceiling. The run as a whole has executed no more than the
time so far is worth, and over any stretch of time less than an instruction more than that, whatever
was lost before. If nothing was dropped and the engine was not reset by hand, then the run has
executed just what the time is worth, rounded down, and carries the fraction over. -/
theorem rate_accounting {rate timerRate : Rat} {random : RandomSource} {policy : Policy}
    {schedule : List (List Rat)} {new : Engine Rat}
    (hc : create rate timerRate random policy schedule = .ok new)
    (history : List (Occurrence Rat)) (id : Nat)
    (hslice : new.spared Occurrence.isSlice id history = true)
    (hdt : ∀ t ∈ new.beats history, t.run = id → 0 ≤ t.dt) :
    let mine := (new.beats history).filter fun t => t.run = id
    executedBy id (new.deeds history) = mine.flatMap Beat.instructions ∧
      ∀ past t future, mine = past ++ t :: future →
        let sofar := past ++ [t]
        (0 ≤ t.after.budget ∧ t.after.budget < 1) ∧
        (t.executed : Rat) < t.dt * rate + 1 ∧
        (t.executed : Rat) ≤ Pace.slicePeriods * (rate / timerRate) ∧
        (Beat.total sofar : Rat) ≤ Beat.elapsed sofar * rate ∧
        (∀ lost kept, sofar = lost ++ kept →
          (Beat.total kept : Rat) < Beat.elapsed kept * rate + 1) ∧
        (new.spared Occurrence.isReset id history = true → (∀ s ∈ sofar, s.Full) →
          (Beat.total sofar : Int) = ⌊Beat.elapsed sofar * rate⌋ ∧
            t.after.budget = Int.fract (Beat.elapsed sofar * rate)) := by
  intro mine
  refine ⟨executedBy_deeds id history new, ?_⟩
  intro past t future hmine sofar
  obtain ⟨⟨hr, ht⟩, -, -, -⟩ := rates_of_create hc
  obtain ⟨hfollow, hregular⟩ := follow_of_create hc hslice hdt
  have hsofar : (new.beats history).filter (fun t => t.run = id) = sofar ++ future := by
    rw [List.append_assoc]
    exact hmine
  rw [hsofar] at hfollow hregular
  replace hfollow := (Beat.follow_append.1 hfollow).1
  replace hregular := fun s hs => hregular s (List.mem_append_left future hs)
  have hempty : (0 : Rat) ≤ 0 ∧ (0 : Rat) < 1 := ⟨le_refl 0, zero_lt_one⟩
  obtain ⟨hleft, htotal⟩ := hfollow.bounded hr ht hregular hempty
  have hlast : Beat.left 0 sofar = t.after.budget := Beat.left_append 0 past [t]
  rw [hlast] at hleft htotal
  refine ⟨hleft, ?_, ?_, ?_, ?_, ?_⟩
  · -- the stretch of the last beat alone
    have hlt := hfollow.total_lt hr ht hregular hempty
    simpa only [Beat.total_cons, Beat.total_nil, Beat.elapsed_cons, Beat.elapsed_nil, add_zero]
      using hlt
  · have hceiling := hfollow.executed_le hr ht hregular hempty
    rw [Pace.worth, mul_comm] at hceiling
    exact hceiling
  · linarith
  · intro lost kept hsplit
    rw [hsplit] at hfollow hregular
    exact hfollow.total_lt hr ht hregular hempty
  · intro hreset hfull
    rw [← hlast]
    exact hfollow.total_eq_floor hr ht (not_not_intro hreset) hregular hfull

end Histories

open Tracing.Off in
/-- At ninety instructions and sixty ticks a second, three ticks on time are worth four
instructions and a half. -/
theorem rate_accounting_of_three_ticks :
    ∃ new : Engine Rat,
      create 90 60 ⟨fun _ => 0, 0⟩ ⟨.ignore, none, none⟩ [[1 / 60, 1 / 60, 1 / 60]] = .ok new ∧
      let history : List (Occurrence Rat) :=
        [.command .emptyDirectory (.init [0x12, 0x00]), .command .emptyDirectory .start]
      let mine := (new.beats history).filter fun t => t.run = 1
      new.spared Occurrence.isSlice 1 history = true ∧
        new.spared Occurrence.isReset 1 history = true ∧
        (∀ t ∈ new.beats history, t.run = 1 → 0 ≤ t.dt) ∧ (∀ t ∈ mine, t.Full) ∧
        (Beat.total mine : Int) = ⌊Beat.elapsed mine * 90⌋ ∧ Beat.total mine = 4 ∧
        ∃ past t, mine = past ++ [t] ∧ t.after.budget = Int.fract (Beat.elapsed mine * 90) := by
  refine ⟨_, rfl, ?_⟩
  intro history mine
  have hlength : mine.length = 3 := by decide +kernel
  have hmine : mine = mine.dropLast ++ [mine.getLast (List.ne_nil_of_length_pos (by omega))] :=
    (List.dropLast_append_getLast _).symm
  refine (fun hslice hreset hdt hfull => ⟨hslice, hreset, hdt, hfull, ?_⟩)
    (by decide +kernel) (by decide +kernel) (by decide +kernel) (by decide +kernel)
  have hc : create (90 : Rat) 60 ⟨fun _ => 0, 0⟩ ⟨.ignore, none, none⟩
      [[1 / 60, 1 / 60, 1 / 60]] = .ok _ := rfl
  have hlast := (rate_accounting hc history 1 hslice hdt).2 _ _ [] hmine
  dsimp only at hlast
  rw [← hmine] at hlast
  obtain ⟨htotal, hleft⟩ := hlast.2.2.2.2.2 hreset hfull
  exact ⟨htotal, by decide +kernel, _, _, hmine, hleft⟩

end Engine

end Chip8
