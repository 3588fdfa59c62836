import Chip8.Proofs.Engine.Beats
import Chip8.Proofs.Engine.Load

/-!
# The account between beats

The account of instructions belongs to the newest run. While a run is the newest one, nothing but
its beats, a reset and a slice by hand touches its account, and it has started with an empty one:
`Engine.Keeps` says so, with a lemma for every function of the engine. Only the answer to a fault,
which may wipe the account as well, has the run stop or superseded.

`Engine.Paced` puts this together for histories. It follows that the beats of a run lie without a
gap between them, whatever is done in the meantime: each beat finds what the one before has left,
and the first one finds nothing (`Engine.Paced.follow`).
-/

set_option autoImplicit false

namespace Chip8

/-- Whether an occurrence gives the engine a slice by hand, past the clocks of the runs. -/
def Occurrence.isSlice {α : Type} : Occurrence α → Bool
  | .command _ (.cpuTick _) => true
  | _ => false

/-- Whether an occurrence resets the engine by hand. -/
def Occurrence.isReset {α : Type} : Occurrence α → Bool
  | .command _ .reset => true
  | _ => false

namespace Beat

variable {α : Type} [Quantity α] [Tracing]

/-- What some beats have left of an account. -/
def left (budget : α) (beats : List (Beat α)) : α :=
  beats.foldl (fun _ t => t.after.budget) budget

theorem left_append (budget : α) (first rest : List (Beat α)) :
    left budget (first ++ rest) = left (left budget first) rest :=
  List.foldl_append

/-- Each of some beats finds what the one before has left of an account, or nothing if that may
have been wiped. -/
def Follow (wiped : Prop) : α → List (Beat α) → Prop
  | _, [] => True
  | budget, t :: rest =>
    (t.before.budget = budget ∨ wiped ∧ t.before.budget = Quantity.zero) ∧
      Follow wiped t.after.budget rest

theorem follow_append {wiped : Prop} {budget : α} {first rest : List (Beat α)} :
    Follow wiped budget (first ++ rest) ↔
      Follow wiped budget first ∧ Follow wiped (left budget first) rest := by
  induction first generalizing budget with
  | nil => exact ⟨fun h => ⟨trivial, h⟩, And.right⟩
  | cons t first ih =>
      refine (and_congr_right fun _ => ih).trans ?_
      rw [← and_assoc]
      rfl

end Beat

namespace Engine

variable {α : Type} [Quantity α]

/-- Whether nothing of a kind occurs while the run `id` is the newest one. -/
def spared [Tracing] (kind : Occurrence α → Bool) (id : Nat) : List (Occurrence α) → Engine α → Bool
  | [], _ => true
  | o :: rest, e => !(e.generation == id && kind o) && spared kind id rest (e.next o)

theorem spared_cons [Tracing] {kind : Occurrence α → Bool} {id : Nat} {o : Occurrence α}
    {rest : List (Occurrence α)} {e : Engine α} :
    e.spared kind id (o :: rest) = true ↔
      (e.generation = id → kind o = false) ∧ (e.next o).spared kind id rest = true := by
  rw [spared, Bool.and_eq_true, Bool.not_eq_true', Bool.and_eq_false_imp, beq_iff_eq]

/-! ## What is kept -/

/-- Between two states of an engine runs may have been started. If the run `id` was, then its
account is empty, unless it has to stop. -/
structure Renews (id : Nat) (e f : Engine α) : Prop where
  rate : f.rate = e.rate
  timerRate : f.timerRate = e.timerRate
  later : e.Later f
  renewed : e.generation ≠ id → f.generation = id → f.stopRequested = false →
    f.budget = Quantity.zero

/-- Moreover the account of the run `id`, unless this has to stop, is what it was, or empty if it
may have been wiped. -/
structure Keeps (wiped : Prop) (id : Nat) (e f : Engine α) : Prop extends Renews id e f where
  kept : e.generation = id → f.generation = id → f.stopRequested = false →
    f.budget = e.budget ∨ wiped ∧ f.budget = Quantity.zero

section Keeps

variable {wiped : Prop} {id : Nat} {e f g : Engine α} {l : Ledger α}

/-- The account is what it was. -/
theorem Keeps.of_budget (h : f.ledger = l)
    (hl : (l.rate, l.timerRate, l.generation, l.budget) =
      (e.rate, e.timerRate, e.generation, e.budget))
    (hs : e.stopRequested = true → l.stopRequested = true) : e.Keeps wiped id f := by
  subst h
  simp only [Prod.mk.injEq] at hl
  obtain ⟨hrate, htimer, hg, hbudget⟩ := hl
  exact ⟨⟨hrate, htimer, .of_eq hg hs, fun hne heq => absurd (hg.symm.trans heq) hne⟩,
    fun _ _ _ => Or.inl hbudget⟩

/-- The run under way has been asked to stop. -/
theorem Keeps.of_asked (h : f.ledger = l)
    (hl : (l.rate, l.timerRate, l.generation, l.stopRequested) =
      (e.rate, e.timerRate, e.generation, true)) : e.Keeps wiped id f := by
  subst h
  simp only [Prod.mk.injEq] at hl
  obtain ⟨hrate, htimer, hg, hs⟩ := hl
  exact ⟨⟨hrate, htimer, .of_eq hg fun _ => hs, fun _ _ hgo => nomatch hs.symm.trans hgo⟩,
    fun _ _ hgo => nomatch hs.symm.trans hgo⟩

/-- A new run has been started. -/
theorem Keeps.of_renewed (h : f.ledger = l)
    (hl : (l.rate, l.timerRate, l.generation, l.budget) =
      (e.rate, e.timerRate, e.generation + 1, Quantity.zero)) : e.Keeps wiped id f := by
  subst h
  simp only [Prod.mk.injEq] at hl
  obtain ⟨hrate, htimer, hg, hbudget⟩ := hl
  change f.generation = e.generation + 1 at hg
  have hlater : e.Later f := ⟨by omega, fun heq => by omega⟩
  exact ⟨⟨hrate, htimer, hlater, fun _ _ _ => hbudget⟩, fun he heq => by omega⟩

theorem Keeps.of_ledger_eq (h : f.ledger = e.ledger) : e.Keeps wiped id f :=
  .of_budget h rfl fun hs => hs

theorem Keeps.refl (e : Engine α) : e.Keeps wiped id e :=
  .of_ledger_eq rfl

theorem Worked.keeps (h : e.Worked f) : e.Keeps wiped id f := by
  obtain ⟨asked, hl⟩ := h
  refine .of_budget hl rfl fun hs => ?_
  rw [hs, Bool.true_or]

theorem Keeps.trans (hf : e.Keeps wiped id f) (hg : f.Keeps wiped id g) : e.Keeps wiped id g where
  rate := hg.rate.trans hf.rate
  timerRate := hg.timerRate.trans hf.timerRate
  later := hf.later.trans hg.later
  renewed := by
    intro hne heq hgo
    by_cases hf' : f.generation = id
    · -- the run was started before, and its account has been empty since
      have hzero := hf.renewed hne hf' (hg.later.not_asked (heq.trans hf'.symm) hgo)
      rcases hg.kept hf' heq hgo with hb | ⟨-, hb⟩
      · exact hb.trans hzero
      · exact hb
    · exact hg.renewed hf' heq hgo
  kept := by
    intro he heq hgo
    have hle := hf.later.generation
    have hle' := hg.later.generation
    have hf' : f.generation = id := by omega
    have hgof := hg.later.not_asked (heq.trans hf'.symm) hgo
    rcases hg.kept hf' heq hgo with hb | hb
    · rw [hb]
      exact hf.kept he hf' hgof
    · exact Or.inr hb

end Keeps

/-! ## Calls -/

section Calls

variable {wiped : Prop} {id : Nat}

theorem keeps_stop (e : Engine α) (caller : Caller) : e.Keeps wiped id (e.stop caller) :=
  .of_asked (ledger_stop e caller) rfl

theorem keeps_start (e : Engine α) (caller : Caller) : e.Keeps wiped id (e.start caller) :=
  .of_renewed (ledger_start e caller) rfl

theorem keeps_init (e : Engine α) (program : List Int) : e.Keeps wiped id (e.init program).1 := by
  cases hm : e.machine with
  | none =>
      rw [init_of_noMachine hm]
      exact .refl e
  | some m =>
      cases hi : m.init program with
      | error why =>
          rw [init_of_refusal hm hi]
          exact .refl e
      | ok m' =>
          obtain ⟨f, hinit, hf⟩ := init_of_machine hm hi
          rw [hinit]
          exact .of_budget hf rfl fun hs => hs

/-- A reset wipes the account, which matters only to a run that need not stop. -/
theorem keeps_reset {e : Engine α} (h : e.generation = id → wiped ∨ e.stopRequested = true) :
    e.Keeps wiped id e.reset.1 := by
  cases hm : e.machine with
  | none =>
      rw [reset_of_noMachine hm]
      exact .refl e
  | some m =>
      obtain ⟨f, hreset, hf⟩ := reset_of_machine hm
      have hg : f.generation = e.generation := congrArg Ledger.generation hf
      have hs : f.stopRequested = e.stopRequested := congrArg Ledger.stopRequested hf
      have hempty : f.budget = Quantity.zero := congrArg Ledger.budget hf
      rw [hreset]
      refine ⟨⟨congrArg Ledger.rate hf, congrArg Ledger.timerRate hf, .of_eq hg hs.trans,
        fun _ _ _ => hempty⟩, fun he _ hgo => ?_⟩
      rcases h he with hw | hasked
      · exact Or.inr ⟨hw, hempty⟩
      · cases (hs.trans hasked).symm.trans hgo

theorem keeps_loadFile (e : Engine α) (tree : Node) (path : String) :
    e.Keeps wiped id (e.loadFile tree path).1 := by
  have hread : e.Keeps wiped id (e.readProgram tree path).1 := .of_ledger_eq (ledger_noteAll e _)
  rcases loadFile_stages e tree path with h | ⟨program, h⟩
  · rw [h]
    exact hread
  · rw [h]
    exact hread.trans (keeps_init _ program)

theorem keeps_runFile (e : Engine α) (tree : Node) (path : String) :
    e.Keeps wiped id (e.runFile tree path).1 := by
  obtain ⟨base, hbase, hend⟩ := runFile_stages e tree path
  have hread : e.Keeps wiped id (e.readProgram tree path).1 := .of_ledger_eq (ledger_noteAll e _)
  have hwiped : e.Keeps wiped id base := by
    rcases hbase with rfl | rfl
    · exact hread
    · -- the run under way has been asked to stop when its account is wiped
      have hasked : ((e.readProgram tree path).1.stop .outside).stopRequested = true :=
        congrArg Ledger.stopRequested (ledger_stop _ .outside)
      exact (hread.trans (keeps_stop _ .outside)).trans (keeps_reset fun _ => Or.inr hasked)
  rcases hend with h | ⟨program, h | h⟩ <;> rw [h]
  · exact hwiped
  · exact hwiped.trans (keeps_init base program)
  · exact (hwiped.trans (keeps_init base program)).trans (keeps_start _ .outside)

theorem keeps_tickTimers (e : Engine α) (caller : Caller) :
    e.Keeps wiped id (e.tickTimers caller).1 := by
  cases hm : e.machine with
  | none =>
      rw [tickTimers_of_noMachine hm]
      exact .refl e
  | some m =>
      obtain ⟨f, htick, hw, -⟩ := worked_tickTimers hm caller
      rw [htick]
      exact hw.keeps

/-- A fault asks the run for a stop, or has a new one started. -/
theorem keeps_fail {e : Engine α} {m : Machine} (hm : e.machine = some m) (caller : Caller)
    (reason : Fault) : e.Keeps wiped id (e.fail caller m reason).1 := by
  have h := fail_answer hm caller reason
  generalize e.fail caller m reason = p at h ⊢
  cases h with
  | kept hp hl => exact .of_asked hl rfl
  | refused hp hi hl => exact .of_asked hl rfl
  | restarted hp hi hl => exact .of_renewed hl rfl

variable [Tracing]

theorem keeps_runCycles (e : Engine α) (caller : Caller) (count : Int) :
    e.Keeps wiped id (e.runCycles caller count).1 := by
  cases hm : e.machine with
  | none =>
      rw [runCycles_of_noMachine hm]
      exact .refl e
  | some m =>
      obtain ⟨done, last, f, -, -, hw, hend⟩ := runSteps_end caller count.toNat hm 0
      have hl := (runCycles_of_machine hm caller count).1
      have hran : e.Keeps wiped id (runSteps caller count.toNat e 0).engine := by
        generalize runSteps caller count.toNat e 0 = ran at hend
        cases hend with
        | finished | misfit _ _ | waiting _ _ => exact hw.keeps
        | faulted _ hfm => exact hw.keeps.trans (keeps_fail hfm caller _)
      exact hran.trans (.of_budget hl rfl fun hs => hs)

theorem keeps_operate (e : Engine α) (caller : Caller) (o : Operation) :
    e.Keeps wiped id (e.operate caller o).1 := by
  cases hm : e.machine with
  | none =>
      rcases operate_of_noMachine hm caller o with h | ⟨target, h⟩
      · rw [h]
        exact .refl e
      · rw [h]
        exact .of_ledger_eq (ledger_note e _)
  | some m =>
      rw [operate_of_machine hm]
      exact (worked_absorb e caller m _ _).1.keeps

/-- A slice may start a run, but only from within the answer to a fault. -/
theorem renews_cpuTick (e : Engine α) (caller : Caller) (dt : α) :
    e.Renews id (e.cpuTick caller dt).1 := by
  rcases hs : Pace.slice e.rate e.timerRate e.budget dt with ⟨left, reason | count⟩
  · rw [cpuTick_of_error hs]
    exact ⟨rfl, rfl, .of_eq rfl fun h => h, fun hne heq => absurd heq hne⟩
  · have hl := (cpuTick_of_ok hs caller).1
    have hcalled : Engine.Keeps False id { e with budget := left }
        ({ e with budget := left }.runCycles caller count).1 := keeps_runCycles _ caller count
    dsimp only at hl
    generalize { e with budget := left }.runCycles caller count = called at hl hcalled
    have hg : (e.cpuTick caller dt).1.generation = called.1.generation :=
      congrArg Ledger.generation hl
    have hasked : (e.cpuTick caller dt).1.stopRequested = called.1.stopRequested :=
      congrArg Ledger.stopRequested hl
    refine ⟨(congrArg Ledger.rate hl).trans hcalled.rate,
      (congrArg Ledger.timerRate hl).trans hcalled.timerRate, ?_, fun hne heq hgo => ?_⟩
    · refine ⟨hg ▸ hcalled.later.generation, fun heq hs => hasked ▸ ?_⟩
      exact hcalled.later.stopRequested (hg ▸ heq) hs
    · have hzero := hcalled.renewed hne (hg ▸ heq) (hasked ▸ hgo)
      refine (congrArg Ledger.budget hl).trans ?_
      -- the account of the new run is empty, whether the slice was served in full or not
      show leftover count called = Quantity.zero
      unfold leftover
      rcases called.2 with reason | executed
      · exact hzero
      · dsimp only
        split
        · rfl
        · exact hzero

omit [Tracing] in
/-- The account of another run is nothing to the run `id`. -/
theorem Renews.keeps {e f : Engine α} (h : e.Renews id f) (hne : e.generation ≠ id) :
    e.Keeps wiped id f :=
  ⟨h, fun he => absurd he hne⟩

/-- A command keeps the account of the run `id`, unless it is a slice or a reset on that run. -/
theorem keeps_perform (e : Engine α) {files : Node} {c : Command α}
    (hslice : e.generation = id → (Occurrence.command files c).isSlice = false)
    (hreset : e.generation = id → (Occurrence.command files c).isReset = true → wiped) :
    e.Keeps wiped id (e.perform files c).1 := by
  cases c with
  | init program => exact keeps_init e program
  | reset => exact keeps_reset fun he => Or.inl (hreset he rfl)
  | loadFile path => exact keeps_loadFile e files path
  | runFile path => exact keeps_runFile e files path
  | start => exact keeps_start e .outside
  | stop => exact keeps_stop e .outside
  | destroy => exact (keeps_stop e .outside).trans (.of_budget rfl rfl fun hs => hs)
  | tickTimers => exact keeps_tickTimers e .outside
  | runCycles count => exact keeps_runCycles e .outside count
  | cpuTick dt => exact (renews_cpuTick e .outside dt).keeps fun he => nomatch hslice he
  | operate o => exact keeps_operate e .outside o

/-- A tick may start a run, too. -/
theorem renews_tick (e : Engine α) (run : Nat) (dt : α) : e.Renews id (e.tick run dt).1 := by
  obtain ⟨f, hw, htick⟩ := tick_worked e run dt
  have hworked : e.Keeps False id f := hw.keeps
  obtain ⟨asked, hl⟩ := hw
  have hg : f.generation = e.generation := congrArg Ledger.generation hl
  rcases htick with htick | htick
  · rw [htick]
    exact hworked.toRenews
  · rw [htick]
    have hslice : f.Renews id (f.cpuTick .run dt).1 := renews_cpuTick f .run dt
    exact ⟨hslice.rate.trans hworked.rate, hslice.timerRate.trans hworked.timerRate,
      hworked.later.trans hslice.later, fun hne => hslice.renewed (hg ▸ hne)⟩

end Calls

/-! ## From beat to beat -/

section Paced

variable [Tracing] {wiped : Prop} {id : Nat} {e f : Engine α} {beats : List (Beat α)}

/-- From one engine to another, along some beats: between these the account of the run `id` is
kept. -/
inductive Paced (wiped : Prop) (id : Nat) : Engine α → List (Beat α) → Engine α → Prop where
  | keeps {e f : Engine α} (h : e.Keeps wiped id f) : Paced wiped id e [] f
  | beat (t : Beat α) (hgo : t.before.stopped t.run = false) : Paced wiped id t.before [t] t.after
  | append {e f g : Engine α} {first rest : List (Beat α)} (hf : Paced wiped id e first f)
      (hg : Paced wiped id f rest g) : Paced wiped id e (first ++ rest) g

theorem Paced.of_ledger_eq (h : f.ledger = e.ledger) : Paced wiped id e [] f :=
  .keeps (.of_ledger_eq h)

theorem Paced.cons {t : Beat α} (hgo : t.before.stopped t.run = false)
    (h : Paced wiped id t.after beats f) : Paced wiped id t.before (t :: beats) f :=
  .append (.beat t hgo) h

theorem paced_play (run : Nat) (times : List α) (e : Engine α) :
    Paced wiped id e (playBeats run times e) (play run times e) := by
  induction times generalizing e with
  | nil => exact .of_ledger_eq (ledger_rest e run)
  | cons dt rest ih =>
      unfold playBeats play
      cases hgo : e.stopped run with
      | true => exact .of_ledger_eq (ledger_finish e)
      | false =>
          have hticked : (⟨run, dt, e⟩ : Beat α).after = (e.tick run dt).1 := rfl
          rw [if_neg Bool.false_ne_true, if_neg Bool.false_ne_true]
          refine .cons (t := ⟨run, dt, e⟩) hgo ?_
          rw [hticked]
          rcases e.tick run dt with ⟨f, reason | done⟩
          · exact .of_ledger_eq (ledger_finish f)
          · exact ih f

theorem paced_begin (e : Engine α) (times : List α) (later : List (List α)) :
    Paced wiped id e (e.beginBeats times later) (e.begin times later) := by
  unfold beginBeats begin
  cases ho : e.openClock later with
  | none => exact .of_ledger_eq rfl
  | some f =>
      exact .append (.of_ledger_eq (ledger_of_openClock ho)) (paced_play f.generation times f)

theorem paced_pending (runs : List (List α)) (e : Engine α) :
    Paced wiped id e (pendingBeats runs e) (playPending runs e) := by
  induction runs generalizing e with
  | nil =>
      unfold pendingBeats playPending
      by_cases hp : e.phase = .pending
      · -- a run without ticks has no beats
        have hnone : e.beginBeats [] [] = [] := by
          unfold beginBeats
          cases e.openClock [] with
          | none => rfl
          | some f => rfl
        rw [if_pos hp, ← hnone]
        exact paced_begin e [] []
      · rw [if_neg hp]
        exact .of_ledger_eq rfl
  | cons times later ih =>
      unfold pendingBeats playPending
      by_cases hp : e.phase = .pending
      · rw [if_pos hp, if_pos hp]
        exact .append (paced_begin e times later) (ih (e.begin times later))
      · rw [if_neg hp, if_neg hp]
        exact .of_ledger_eq rfl

theorem paced_settle (e : Engine α) : Paced wiped id e e.settleBeats e.settle := by
  have hplayed : Paced wiped id e e.settleBeats (playPending e.schedule e) :=
    paced_pending e.schedule e
  unfold settle
  dsimp only
  by_cases hstop : (playPending e.schedule e).phase = .live ∧
      (playPending e.schedule e).stopRequested = true
  · rw [if_pos hstop, ← List.append_nil e.settleBeats]
    exact .append hplayed (.of_ledger_eq (ledger_finish _))
  · rw [if_neg hstop]
    exact hplayed

theorem paced_occur (e : Engine α) {o : Occurrence α}
    (hslice : e.generation = id → o.isSlice = false)
    (hreset : e.generation = id → o.isReset = true → wiped) :
    Paced wiped id e (e.occurBeats o) (e.occur o) := by
  cases o with
  | command files c => exact .keeps (keeps_perform e hslice hreset)
  | tick dt =>
      unfold occurBeats occur advance
      by_cases hl : e.phase = .live
      · simp only [if_pos hl]
        exact paced_play e.generation [dt] e
      · simp only [if_neg hl]
        exact .of_ledger_eq rfl

/-- A history keeps the account of a run on which there is no slice and no reset by hand. -/
theorem paced_after (history : List (Occurrence α)) (e : Engine α)
    (hslice : e.spared Occurrence.isSlice id history = true)
    (hreset : e.spared Occurrence.isReset id history = true ∨ wiped) :
    Paced wiped id e (e.beats history) (e.after history) := by
  induction history generalizing e with
  | nil => exact .of_ledger_eq rfl
  | cons o rest ih =>
      obtain ⟨hslice, hslices⟩ := spared_cons.1 hslice
      have hnow : e.generation = id → o.isReset = true → wiped := fun he ho =>
        hreset.resolve_left fun hs => by rw [(spared_cons.1 hs).1 he] at ho; cases ho
      have hlater : (e.next o).spared Occurrence.isReset id rest = true ∨ wiped :=
        hreset.imp_left fun hs => (spared_cons.1 hs).2
      exact .append (.append (paced_occur e hslice hnow) (paced_settle (e.occur o)))
        (ih (e.next o) hslices hlater)

/-- On the way, the rates are those of the beginning, and only a run that need not stop has
beats. -/
theorem Paced.setting (h : Paced wiped id e beats f) :
    (f.rate = e.rate ∧ f.timerRate = e.timerRate) ∧ ∀ t ∈ beats,
      t.before.rate = e.rate ∧ t.before.timerRate = e.timerRate ∧
        t.before.stopped t.run = false := by
  induction h with
  | keeps h => exact ⟨⟨h.rate, h.timerRate⟩, List.forall_mem_nil _⟩
  | beat t hgo =>
      have h : t.before.Renews 0 t.after := renews_tick t.before t.run t.dt
      exact ⟨⟨h.rate, h.timerRate⟩, List.forall_mem_singleton.2 ⟨rfl, rfl, hgo⟩⟩
  | append _ _ hf hg =>
      obtain ⟨⟨hrate, htimer⟩, hfirst⟩ := hf
      obtain ⟨⟨hrate', htimer'⟩, hrest⟩ := hg
      refine ⟨⟨hrate'.trans hrate, htimer'.trans htimer⟩,
        List.forall_mem_append.2 ⟨hfirst, fun t ht => ?_⟩⟩
      obtain ⟨hr, ht, hgo⟩ := hrest t ht
      exact ⟨hr.trans hrate, ht.trans htimer, hgo⟩

/-! ## The account of a run -/

/-- The run `id` will find an account, or nothing if that may have been wiped. As long as it has
not been started, the account is empty. -/
structure Awaits (wiped : Prop) (id : Nat) (budget : α) (e : Engine α) : Prop where
  ahead : e.generation < id → budget = Quantity.zero
  found : e.stopped id = false →
    e.budget = budget ∨ wiped ∧ e.budget = Quantity.zero

omit [Tracing] in
theorem Keeps.awaits {budget : α} (h : e.Keeps wiped id f) (ha : e.Awaits wiped id budget) :
    f.Awaits wiped id budget where
  ahead hlt := ha.ahead (Nat.lt_of_le_of_lt h.later.generation hlt)
  found := by
    intro hgo
    obtain ⟨hg, hgo⟩ := stopped_eq_false_iff.1 hgo
    by_cases he : e.generation = id
    · have hbefore := h.later.not_asked (hg.trans he.symm) hgo
      rcases h.kept he hg hgo with hb | hb
      · rw [hb]
        exact ha.found (stopped_eq_false_iff.2 ⟨he, hbefore⟩)
      · exact Or.inr hb
    · have hlt : e.generation < id := Nat.lt_of_le_of_ne (hg ▸ h.later.generation) he
      exact Or.inl ((h.renewed he hg hgo).trans (ha.ahead hlt).symm)

/-- The beats of a run follow each other, whatever is done between them. -/
theorem Paced.follow (h : Paced wiped id e beats f) {budget : α}
    (ha : e.Awaits wiped id budget) :
    Beat.Follow wiped budget (beats.filter fun t => t.run = id) ∧
      f.Awaits wiped id (Beat.left budget (beats.filter fun t => t.run = id)) := by
  induction h generalizing budget with
  | keeps h => exact ⟨trivial, h.awaits ha⟩
  | beat t hgo =>
      have hticked : t.before.Renews id t.after := renews_tick t.before t.run t.dt
      have hg : t.before.generation = t.run := (stopped_eq_false_iff.1 hgo).1
      by_cases hrun : t.run = id
      · rw [List.filter_cons_of_pos (by simpa using hrun), List.filter_nil]
        refine ⟨⟨ha.found (hrun ▸ hgo), trivial⟩, fun hlt => ?_, fun _ => Or.inl rfl⟩
        have hle := hticked.later.generation
        omega
      · rw [List.filter_cons_of_neg (by simpa using hrun), List.filter_nil]
        exact ⟨trivial, (hticked.keeps fun he => hrun (hg.symm.trans he)).awaits ha⟩
  | append _ _ ihf ihg =>
      obtain ⟨hfirst, hmiddle⟩ := ihf ha
      obtain ⟨hrest, hlast⟩ := ihg hmiddle
      rw [List.filter_append, Beat.left_append]
      exact ⟨Beat.follow_append.2 ⟨hfirst, hrest⟩, hlast⟩

end Paced

end Engine

end Chip8
