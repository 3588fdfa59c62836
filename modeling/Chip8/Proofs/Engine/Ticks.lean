import Chip8.Proofs.Engine.Cycles

/-!
# The ticks of a run

What one tick of a run's clock does to the ledger, and what all its ticks do. The number of
instructions that were counted never falls (`Engine.cycles_le_play`). Runs whose account is never
worth a whole instruction execute none (`Engine.idled_settle`). A slice on which an instruction is
due executes one, unless the run has to stop (`Engine.lt_cycles_or_stopped_cpuTick`).
-/

set_option autoImplicit false

namespace Chip8

/-! ## The account -/

namespace Pace

variable {α : Type} [Quantity α]

/-- No account is worth a whole instruction, since the ceiling is too low. -/
def Starves (rate timerRate : α) : Prop :=
  ∀ limit, ceiling rate timerRate = .ok limit →
    ∀ raised count, Quantity.whole (capped raised limit) = .ok count → count ≤ 0

/-- What is due is the whole part of the account under the ceiling. -/
theorem withdraw_eq_ok {budget rest : α} {count : Int}
    (h : withdraw budget = .ok (rest, count)) : Quantity.whole budget = .ok count := by
  unfold withdraw at h
  cases hw : Quantity.whole budget with
  | error reason =>
      rw [hw] at h
      cases h
  | ok whole =>
      rw [hw] at h
      cases hs : Quantity.sub budget (Quantity.ofInt whole) with
      | error reason =>
          simp only [hs, bind, Except.bind, reduceCtorEq] at h
      | ok left =>
          simp only [hs, bind, Except.bind, pure, Except.pure, Except.ok.injEq,
            Prod.mk.injEq] at h
          rw [h.2]

/-- Where no account is worth a whole instruction, none is due. -/
theorem slice_of_starves {rate timerRate : α} (h : Starves rate timerRate) {budget dt : α}
    {count : Int} (hs : (slice rate timerRate budget dt).2 = .ok count) : count ≤ 0 := by
  unfold slice at hs
  cases hc : credit rate budget dt with
  | error reason =>
      rw [hc] at hs
      cases hs
  | ok raised =>
      cases hl : ceiling rate timerRate with
      | error reason =>
          rw [hc, hl] at hs
          cases hs
      | ok limit =>
          rw [hc, hl] at hs
          dsimp only at hs
          cases hw : withdraw (capped raised limit) with
          | error reason =>
              rw [hw] at hs
              cases hs
          | ok taken =>
              rw [hw] at hs
              cases hs
              exact h limit hl raised taken.2 (withdraw_eq_ok hw)

end Pace

namespace Engine

variable {α : Type} [Quantity α]

/-! ## Calls for instructions -/

variable [Tracing]

/-- The steps of a call leave the count of instructions alone. -/
theorem cycles_runSteps {e : Engine α} {m : Machine} (hm : e.machine = some m) (caller : Caller)
    (count executed : Nat) : (runSteps caller count e executed).engine.cycles = e.cycles := by
  obtain ⟨done, last, f, -, -, hw, hend⟩ := runSteps_end caller count hm executed
  have hcycles : f.cycles = e.cycles := hw.idled.cycles
  generalize runSteps caller count e executed = ran at hend ⊢
  cases hend with
  | finished | misfit _ _ | waiting _ _ => exact hcycles
  | @faulted s reason _ hfm => exact (stopped_fail hfm caller reason).2.trans hcycles

theorem cycles_le_runCycles (e : Engine α) (caller : Caller) (count : Int) :
    e.cycles ≤ (e.runCycles caller count).1.cycles := by
  cases hm : e.machine with
  | none =>
      exact Nat.le_of_eq (congrArg (·.1.cycles) (runCycles_of_noMachine hm caller count)).symm
  | some m =>
      have hl := congrArg Ledger.cycles (runCycles_of_machine hm caller count).1
      have hkept := cycles_runSteps hm caller count.toNat 0
      change (e.runCycles caller count).1.cycles = _ + _ at hl
      rw [hl]
      show e.cycles ≤ (runSteps caller count.toNat e 0).engine.cycles + _
      omega

/-- A call for no instruction does nothing that the ledger would show. -/
theorem ledger_runCycles_of_nonpos (e : Engine α) (caller : Caller) {count : Int}
    (hc : count ≤ 0) : (e.runCycles caller count).1.ledger = e.ledger := by
  cases hm : e.machine with
  | none => rw [runCycles_of_noMachine hm]
  | some m =>
      have hl := (runCycles_of_machine hm caller count).1
      rw [Int.toNat_of_nonpos hc, runSteps] at hl
      exact hl

/-! ## Slices -/

omit [Tracing] in
/-- What a slice is worth does not depend on the machine. -/
theorem slice_of_ledger {e f : Engine α} {machine : Option Machine}
    (h : f.ledger = { e.ledger with machine }) (dt : α) :
    Pace.slice f.rate f.timerRate f.budget dt = Pace.slice e.rate e.timerRate e.budget dt := by
  rw [show f.rate = e.rate from congrArg Ledger.rate h,
    show f.timerRate = e.timerRate from congrArg Ledger.timerRate h,
    show f.budget = e.budget from congrArg Ledger.budget h]

/-- What a slice leaves of the account after a call for `count` instructions. -/
def leftover (count : Int) (called : Engine α × Except Refusal Nat) : α :=
  match called.2 with
  | .error _ => called.1.budget
  | .ok executed => if (executed : Int) < count then Quantity.zero else called.1.budget

theorem cpuTick_of_error {e : Engine α} {dt left : α} {reason : ArithmeticError}
    (hs : Pace.slice e.rate e.timerRate e.budget dt = (left, .error reason)) (caller : Caller) :
    e.cpuTick caller dt = ({ e with budget := left }, .error (.arithmetic reason)) := by
  simp only [cpuTick, hs]

theorem cpuTick_of_ok {e : Engine α} {dt left : α} {count : Int}
    (hs : Pace.slice e.rate e.timerRate e.budget dt = (left, .ok count)) (caller : Caller) :
    let called := { e with budget := left }.runCycles caller count
    (e.cpuTick caller dt).1.ledger =
        { called.1.ledger with budget := leftover count called } ∧
      (e.cpuTick caller dt).2 = called.2.map fun _ => () := by
  simp only [cpuTick, hs]
  cases runCycles { e with budget := left } caller count with
  | mk f result =>
      cases result with
      | error why => exact ⟨rfl, rfl⟩
      | ok executed =>
          unfold leftover
          dsimp only
          by_cases hlt : (executed : Int) < count
          · rw [if_pos hlt, if_pos hlt]
            exact ⟨rfl, rfl⟩
          · rw [if_neg hlt, if_neg hlt]
            exact ⟨rfl, rfl⟩

theorem cycles_le_cpuTick (e : Engine α) (caller : Caller) (dt : α) :
    e.cycles ≤ (e.cpuTick caller dt).1.cycles := by
  rcases hs : Pace.slice e.rate e.timerRate e.budget dt with ⟨left, reason | count⟩
  · exact Nat.le_of_eq (congrArg (·.1.cycles) (cpuTick_of_error hs caller)).symm
  · have hl := congrArg Ledger.cycles (cpuTick_of_ok hs caller).1
    change (e.cpuTick caller dt).1.cycles = _ at hl
    rw [hl]
    exact cycles_le_runCycles { e with budget := left } caller count

omit [Tracing] in
theorem leftover_of_nonpos {count : Int} (hc : count ≤ 0)
    (called : Engine α × Except Refusal Nat) : leftover count called = called.1.budget := by
  unfold leftover
  cases called.2 with
  | error why => rfl
  | ok executed => exact if_neg (by omega)

/-- A slice that is not worth an instruction changes the account only. -/
theorem ledger_cpuTick_of_nonpos {e : Engine α} {dt left : α} {count : Int}
    (hs : Pace.slice e.rate e.timerRate e.budget dt = (left, .ok count)) (hc : count ≤ 0)
    (caller : Caller) : (e.cpuTick caller dt).1.ledger = { e.ledger with budget := left } := by
  have hkept := ledger_runCycles_of_nonpos { e with budget := left } caller hc
  refine (cpuTick_of_ok hs caller).1.trans ?_
  rw [leftover_of_nonpos hc, hkept]
  exact congrArg (fun budget => { e.ledger with budget }) (congrArg Ledger.budget hkept)

/-- Nor does it break a run off that has a machine. -/
theorem result_cpuTick_of_nonpos {e : Engine α} {m : Machine} (hm : e.machine = some m)
    {dt left : α} {count : Int}
    (hs : Pace.slice e.rate e.timerRate e.budget dt = (left, .ok count)) (hc : count ≤ 0)
    (caller : Caller) : (e.cpuTick caller dt).2 = .ok () := by
  rw [(cpuTick_of_ok hs caller).2]
  have hresult := (runCycles_of_machine (e := { e with budget := left }) hm caller count).2
  rw [hresult, Int.toNat_of_nonpos hc, runSteps]
  rfl

/-- A run whose account is never worth an instruction executes none on its slices. -/
theorem ledger_cpuTick_of_starves {e : Engine α} (h : Pace.Starves e.rate e.timerRate)
    (caller : Caller) (dt : α) :
    ∃ budget, (e.cpuTick caller dt).1.ledger = { e.ledger with budget } := by
  rcases hs : Pace.slice e.rate e.timerRate e.budget dt with ⟨left, reason | count⟩
  · refine ⟨left, ?_⟩
    rw [cpuTick_of_error hs]
    rfl
  · have hc : count ≤ 0 := Pace.slice_of_starves h (congrArg Prod.snd hs)
    exact ⟨left, ledger_cpuTick_of_nonpos hs hc caller⟩

/-! ## Ticks -/

/-- Without a machine a tick does nothing. -/
theorem ledger_tick_of_noMachine {e : Engine α} (hm : e.machine = none) (id : Nat) (dt : α) :
    (e.tick id dt).1.ledger = e.ledger := by
  have hcounted := ledger_countTick e
  have hnone : e.countTick.machine = none := (congrArg Ledger.machine hcounted).trans hm
  have hstages := tick_stages e id dt
  generalize e.tick id dt = ticked at hstages ⊢
  cases hstages with
  | stopped _ | noMachine _ _ => exact hcounted
  | halted _ ht _ | sliced _ ht _ => cases (tickTimers_of_noMachine hnone .run).symm.trans ht

/-- A tick of a run that has to stop does nothing. -/
theorem ledger_tick_of_stopped {e : Engine α} {id : Nat} (hid : e.stopped id = true) (dt : α) :
    (e.tick id dt).1.ledger = e.ledger := by
  have hcounted := ledger_countTick e
  have hstopped : e.countTick.stopped id = true := (stopped_of_ledger hcounted id).trans hid
  have hstages := tick_stages e id dt
  generalize e.tick id dt = ticked at hstages ⊢
  cases hstages with
  | stopped _ => exact hcounted
  | noMachine hgo _ | halted hgo _ _ | sliced hgo _ _ => cases hstopped.symm.trans hgo

/-- Any other tick first counts the timers down; if the run has not been asked to stop by then,
the slice comes next. -/
theorem tick_of_machine {e : Engine α} {m : Machine} (hm : e.machine = some m) {id : Nat}
    (hid : e.stopped id = false) (dt : α) :
    ∃ f, e.Worked f ∧ f.machine = some m.tick ∧
      e.tick id dt = if f.stopped id then (f, .ok ()) else f.cpuTick .run dt := by
  have hcounted := ledger_countTick e
  have hgo : e.countTick.stopped id = false := (stopped_of_ledger hcounted id).trans hid
  have hsome : e.countTick.machine = some m := (congrArg Ledger.machine hcounted).trans hm
  obtain ⟨f, htick, hw, hf⟩ := worked_tickTimers hsome .run
  refine ⟨f, (Worked.of_ledger_eq hcounted).trans hw, hf, ?_⟩
  have hstages := tick_stages e id dt
  generalize e.tick id dt = ticked at hstages ⊢
  cases hstages with
  | stopped hstop => cases hgo.symm.trans hstop
  | noMachine _ hnone => cases hsome.symm.trans hnone
  | halted _ ht hstop =>
      cases htick.symm.trans ht
      exact (if_pos hstop).symm
  | sliced _ ht hgo' =>
      cases htick.symm.trans ht
      rw [hgo', if_neg Bool.false_ne_true]

/-- A tick after which the run need not stop is the slice, on the machine with its timers counted
down. -/
theorem tick_eq_cpuTick {e : Engine α} {m : Machine} (hm : e.machine = some m) {id : Nat}
    (hid : e.stopped id = false) (dt : α) :
    (e.tick id dt).1.stopped id = true ∨
      ∃ f : Engine α, f.ledger = { e.ledger with machine := some m.tick } ∧
        e.tick id dt = f.cpuTick .run dt := by
  obtain ⟨f, ⟨asked, hl⟩, hf, htick⟩ := tick_of_machine hm hid dt
  by_cases hstop : f.stopped id = true
  · rw [htick, if_pos hstop]
    exact Or.inl hstop
  · refine Or.inr ⟨f, ?_, htick.trans (if_neg hstop)⟩
    have hgo : f.stopRequested = false := by
      rw [stopped, Bool.or_eq_true, not_or, Bool.not_eq_true, Bool.not_eq_true] at hstop
      exact hstop.2
    have hrequest : f.stopRequested = (e.stopRequested || asked) :=
      congrArg Ledger.stopRequested hl
    have hasked : (e.stopRequested || asked) = e.stopRequested := by
      rw [← hrequest, hgo, (Bool.or_eq_false_iff.1 (hrequest.symm.trans hgo)).1]
    rw [hl, hf, hasked]
    rfl

/-- A tick that is not worth an instruction counts the timers down and changes the account, unless
it brings a stop with it. -/
theorem tick_of_nonpos {e : Engine α} {m : Machine} (hm : e.machine = some m) {id : Nat}
    (hid : e.stopped id = false) {dt left : α} {count : Int}
    (hs : Pace.slice e.rate e.timerRate e.budget dt = (left, .ok count)) (hc : count ≤ 0) :
    (e.tick id dt).1.stopped id = true ∨
      (e.tick id dt).2 = .ok () ∧
        (e.tick id dt).1.ledger = { e.ledger with machine := some m.tick, budget := left } := by
  refine (tick_eq_cpuTick hm hid dt).imp_right ?_
  rintro ⟨f, hl, htick⟩
  have hslice := (slice_of_ledger hl dt).trans hs
  rw [htick, ledger_cpuTick_of_nonpos hslice hc, hl]
  exact ⟨result_cpuTick_of_nonpos (congrArg Ledger.machine hl) hslice hc .run, rfl⟩

/-- Whatever a tick comes upon, it leaves what work on the machine has left, or what a slice makes
of that. -/
theorem tick_worked (e : Engine α) (id : Nat) (dt : α) :
    ∃ f, e.Worked f ∧
      ((e.tick id dt).1 = f ∨ (e.tick id dt).1 = (f.cpuTick .run dt).1) := by
  cases hid : e.stopped id with
  | true => exact ⟨_, .of_ledger_eq (ledger_tick_of_stopped hid dt), Or.inl rfl⟩
  | false =>
      cases hm : e.machine with
      | none => exact ⟨_, .of_ledger_eq (ledger_tick_of_noMachine hm id dt), Or.inl rfl⟩
      | some m =>
          obtain ⟨f, hw, -, htick⟩ := tick_of_machine hm hid dt
          refine ⟨f, hw, ?_⟩
          rw [htick]
          by_cases hstop : f.stopped id = true
          · exact Or.inl (congrArg Prod.fst (if_pos hstop))
          · exact Or.inr (congrArg Prod.fst (if_neg hstop))

/-- Ticks may only add to the count of instructions. -/
theorem cycles_le_tick (e : Engine α) (id : Nat) (dt : α) :
    e.cycles ≤ (e.tick id dt).1.cycles := by
  obtain ⟨f, hw, htick⟩ := tick_worked e id dt
  have hf : e.cycles ≤ f.cycles := Nat.le_of_eq hw.idled.cycles.symm
  rcases htick with htick | htick
  · rw [htick]
    exact hf
  · rw [htick]
    exact Nat.le_trans hf (cycles_le_cpuTick f .run dt)

omit [Tracing] in
theorem Idled.starves {e f : Engine α} (h : e.Idled f) (hs : Pace.Starves e.rate e.timerRate) :
    Pace.Starves f.rate f.timerRate := by
  rw [h.rate, h.timerRate]
  exact hs

/-- A run whose account is never worth an instruction executes none on its ticks. -/
theorem idled_tick {e : Engine α} (h : Pace.Starves e.rate e.timerRate) (id : Nat) (dt : α) :
    e.Idled (e.tick id dt).1 := by
  obtain ⟨f, hw, htick⟩ := tick_worked e id dt
  rcases htick with htick | htick
  · rw [htick]
    exact hw.idled
  · obtain ⟨budget, hslice⟩ := ledger_cpuTick_of_starves (hw.idled.starves h) .run dt
    rw [htick]
    exact hw.idled.trans (.of_ledger hslice rfl)

/-! ## Runs -/

/-- A run that has to stop makes no more ticks. -/
theorem play_of_stopped {id : Nat} {e : Engine α} (h : e.stopped id = true) (times : List α) :
    play id times e = e.finish := by
  cases times with
  | nil =>
      show e.rest id = e.finish
      rw [rest, h, Bool.true_or, if_pos rfl]
  | cons dt later => rw [play, if_pos h]

/-- A tick that is not broken off is followed by the later ones. -/
theorem play_cons_of_ok {id : Nat} {e : Engine α} (h : e.stopped id = false) {dt : α}
    (ht : (e.tick id dt).2 = .ok ()) (later : List α) :
    play id (dt :: later) e = play id later (e.tick id dt).1 := by
  rw [play, if_neg (by rw [h]; exact Bool.false_ne_true)]
  cases hp : e.tick id dt with
  | mk f result =>
      rw [hp] at ht
      cases ht
      rfl

/-- The ticks of a run are the first one and then the later ones, unless this breaks the run
off. -/
theorem play_cons {id : Nat} {e : Engine α} (h : e.stopped id = false) (dt : α)
    (later : List α) :
    (play id (dt :: later) e).ledger = (e.tick id dt).1.ledger ∨
      play id (dt :: later) e = play id later (e.tick id dt).1 := by
  rw [play, if_neg (by rw [h]; exact Bool.false_ne_true)]
  cases e.tick id dt with
  | mk f result =>
      cases result with
      | error why => exact Or.inl (ledger_finish f)
      | ok done => exact Or.inr rfl

/-- The count of instructions never falls. -/
theorem cycles_le_play (id : Nat) (times : List α) (e : Engine α) :
    e.cycles ≤ (play id times e).cycles := by
  induction times generalizing e with
  | nil => exact Nat.le_of_eq (congrArg Ledger.cycles (ledger_rest e id)).symm
  | cons dt later ih =>
      cases hid : e.stopped id with
      | true =>
          rw [play_of_stopped hid]
          exact Nat.le_of_eq (congrArg Ledger.cycles (ledger_finish e)).symm
      | false =>
          have hfirst := cycles_le_tick e id dt
          rcases play_cons hid dt later with hl | hnext
          · exact Nat.le_trans hfirst (Nat.le_of_eq (congrArg Ledger.cycles hl).symm)
          · rw [hnext]
            exact Nat.le_trans hfirst (ih (e.tick id dt).1)

/-- A run whose account is never worth an instruction executes none, whatever its ticks report. -/
theorem idled_play {e : Engine α} (h : Pace.Starves e.rate e.timerRate) (id : Nat)
    (times : List α) : e.Idled (play id times e) := by
  induction times generalizing e with
  | nil => exact .of_ledger (ledger_rest e id) rfl
  | cons dt later ih =>
      cases hid : e.stopped id with
      | true =>
          rw [play_of_stopped hid]
          exact .of_ledger (ledger_finish e) rfl
      | false =>
          have hfirst := idled_tick h id dt
          rcases play_cons hid dt later with hl | hnext
          · exact hfirst.trans (.of_ledger hl rfl)
          · rw [hnext]
            exact hfirst.trans (ih (hfirst.starves h))

theorem idled_begin {e : Engine α} (h : Pace.Starves e.rate e.timerRate) (times : List α)
    (later : List (List α)) : e.Idled (e.begin times later) := by
  unfold begin
  cases ho : e.openClock later with
  | none => exact ⟨rfl, rfl, rfl⟩
  | some f =>
      have hf : e.Idled f := .of_ledger (ledger_of_openClock ho) rfl
      exact hf.trans (idled_play (hf.starves h) f.generation times)

theorem idled_playPending {e : Engine α} (h : Pace.Starves e.rate e.timerRate)
    (runs : List (List α)) : e.Idled (playPending runs e) := by
  induction runs generalizing e with
  | nil =>
      unfold playPending
      split
      · exact idled_begin h [] []
      · exact .of_ledger rfl rfl
  | cons times later ih =>
      unfold playPending
      split
      · have hfirst := idled_begin h times later
        exact hfirst.trans (ih (hfirst.starves h))
      · exact .of_ledger rfl rfl

/-- Nor do the runs that a call from outside leaves behind. -/
theorem idled_settle {e : Engine α} (h : Pace.Starves e.rate e.timerRate) :
    e.Idled e.settle := by
  have hplayed := idled_playPending h e.schedule
  unfold settle
  dsimp only
  split
  · exact hplayed.trans (.of_ledger (ledger_finish _) rfl)
  · exact hplayed

/-! ## Progress -/

/-- A call for at least one instruction counts one or asks the run under way to stop, if the
machine waits for no key and no stop was asked for before. -/
theorem lt_cycles_or_stopped_runCycles {e : Engine α} {m : Machine} (hm : e.machine = some m)
    (h : m.Reachable) (hready : m.Ready) (hstop : e.stopRequested = false) (caller : Caller)
    {count : Int} (hc : 0 < count) :
    e.cycles < (e.runCycles caller count).1.cycles ∨
      (e.runCycles caller count).1.stopped e.generation = true := by
  obtain ⟨k, hk⟩ : ∃ k, count.toNat = k + 1 := ⟨count.toNat - 1, by omega⟩
  have hgo : ¬ e.stopping = true := by
    rw [stopping, hstop, Bool.and_false]
    exact Bool.false_ne_true
  obtain ⟨rest, hsteps, -⟩ := steps_succ hm hgo caller k
  obtain ⟨done, last, f, hends, -, hw, hend⟩ := runSteps_end caller (k + 1) hm 0
  have hl := (runCycles_of_machine hm caller count).1
  rw [hk] at hl
  have hcycles : f.cycles = e.cycles := hw.idled.cycles
  obtain ⟨asked, hf⟩ := hw
  have hgeneration : f.generation = e.generation := congrArg Ledger.generation hf
  have hall := hends.symm.trans hsteps
  rw [Nat.zero_add] at hend
  generalize runSteps caller (k + 1) e 0 = ran at hend hl
  -- a call that counts has counted, if a step was completed
  have hcounted : ran = ⟨f, done.length, .ok ()⟩ → 0 < done.length →
      e.cycles < (e.runCycles caller count).1.cycles := by
    rintro rfl hpos
    have htotal : (e.runCycles caller count).1.cycles = f.cycles + done.length :=
      congrArg Ledger.cycles hl
    omega
  cases hend with
  | finished =>
      rw [List.append_nil] at hall
      exact Or.inl (hcounted rfl (by rw [hall]; exact Nat.succ_pos _))
  | @waiting s hs hfm =>
      refine Or.inl (hcounted rfl (Nat.pos_of_ne_zero fun hzero => ?_))
      rw [List.eq_nil_of_length_eq_zero hzero] at hall
      have hfirst : s = m.step := (List.cons.inj hall).1
      exact Machine.result_step_ne_none hready (hfirst ▸ hs)
  | @misfit s reason hs hfm =>
      have hmem : s ∈ e.steps caller (k + 1) := by
        rw [hends]
        exact List.mem_append_right done (List.mem_singleton_self s)
      exact absurd hs (not_misfit_of_mem_steps hm h.inRange hmem reason)
  | @faulted s reason hs hfm =>
      refine Or.inr ?_
      rw [← hgeneration, stopped_congr (congrArg Ledger.generation hl)
        (congrArg Ledger.stopRequested hl)]
      exact (stopped_fail hfm caller reason).1

/-- The same for a slice on which an instruction is due. -/
theorem lt_cycles_or_stopped_cpuTick {e : Engine α} {m : Machine} (hm : e.machine = some m)
    (h : m.Reachable) (hready : m.Ready) (hstop : e.stopRequested = false) (caller : Caller)
    {dt left : α} {count : Int}
    (hs : Pace.slice e.rate e.timerRate e.budget dt = (left, .ok count)) (hc : 0 < count) :
    e.cycles < (e.cpuTick caller dt).1.cycles ∨
      (e.cpuTick caller dt).1.stopped e.generation = true := by
  have hl := (cpuTick_of_ok hs caller).1
  rcases lt_cycles_or_stopped_runCycles (e := { e with budget := left }) hm h hready hstop caller
    hc with hlt | hstopped
  · refine Or.inl ?_
    rw [show (e.cpuTick caller dt).1.cycles = _ from congrArg Ledger.cycles hl]
    exact hlt
  · refine Or.inr ?_
    rw [stopped_congr (congrArg Ledger.generation hl) (congrArg Ledger.stopRequested hl)]
    exact hstopped

/-- The same for a tick whose slice is worth an instruction. -/
theorem lt_cycles_or_stopped_tick {e : Engine α} {m : Machine} (hm : e.machine = some m)
    (h : m.Reachable) (hready : m.Ready) (hstop : e.stopRequested = false) {dt left : α}
    {count : Int} (hs : Pace.slice e.rate e.timerRate e.budget dt = (left, .ok count))
    (hc : 0 < count) :
    e.cycles < (e.tick e.generation dt).1.cycles ∨
      (e.tick e.generation dt).1.stopped e.generation = true := by
  have hid : e.stopped e.generation = false := (stopped_generation e).trans hstop
  rcases tick_eq_cpuTick hm hid dt with hasked | ⟨f, hl, htick⟩
  · exact Or.inr hasked
  · have hslice := (slice_of_ledger hl dt).trans hs
    rw [htick, ← show f.cycles = e.cycles from congrArg Ledger.cycles hl,
      ← show f.generation = e.generation from congrArg Ledger.generation hl]
    exact lt_cycles_or_stopped_cpuTick (congrArg Ledger.machine hl)
      (h.perform (o := .tick) rfl) hready ((congrArg Ledger.stopRequested hl).trans hstop) .run
      hslice hc

/-- What a tick has brought about is not undone by the later ones: an instruction was counted, or
the run has to stop. -/
theorem lt_cycles_or_stopped_play {e : Engine α} {id : Nat} (hid : e.stopped id = false) {dt : α}
    (h : e.cycles < (e.tick id dt).1.cycles ∨ (e.tick id dt).1.stopped id = true)
    (later : List α) :
    e.cycles < (play id (dt :: later) e).cycles ∨
      (play id (dt :: later) e).stopped id = true := by
  rcases play_cons hid dt later with hl | hnext
  · rw [stopped_of_ledger hl, show (play id (dt :: later) e).cycles = (e.tick id dt).1.cycles from
      congrArg Ledger.cycles hl]
    exact h
  · rw [hnext]
    rcases h with hlt | hstopped
    · exact Or.inl (Nat.lt_of_lt_of_le hlt (cycles_le_play id later (e.tick id dt).1))
    · refine Or.inr ?_
      rw [play_of_stopped hstopped, stopped_of_ledger (ledger_finish _)]
      exact hstopped

end Engine

end Chip8
