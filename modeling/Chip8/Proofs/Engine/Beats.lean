import Chip8.Proofs.Engine.Deeds

/-!
# The beats of runs

A run executes instructions on the ticks of its clock only. A beat is such a tick, made while the
run need not stop, with the engine that it finds. `Engine.beats` lists the beats of a history in
order, along the functions that play the runs. Whatever a run carries out in a history it carries
out on its beats (`Engine.executedBy_deeds`).
-/

set_option autoImplicit false

namespace Chip8

/-- A tick that a run makes while it need not stop: the number of the run, the time that its clock
reports, and the engine that is found. -/
structure Beat (α : Type) where
  run : Nat
  dt : α
  before : Engine α

namespace Beat

variable {α : Type} [Quantity α] [Tracing]

/-- The engine after a beat. -/
def after (t : Beat α) : Engine α :=
  (t.before.tick t.run t.dt).1

/-- What is done on a beat. -/
def deeds (t : Beat α) : List (Deed α) :=
  t.before.tickDeeds t.run t.dt

/-- The instructions that are carried out on a beat. -/
def instructions (t : Beat α) : List Word :=
  t.deeds.flatMap Deed.instructions

end Beat

namespace Engine

variable {α : Type}

/-! ## The instructions of a run -/

variable [Tracing]

/-- The instructions that the run `id` carries out among some deeds. -/
def executedBy (id : Nat) (deeds : List (Deed α)) : List Word :=
  (deeds.filter fun d => d.run = some id).flatMap Deed.instructions

@[simp] theorem executedBy_append (id : Nat) (first rest : List (Deed α)) :
    executedBy id (first ++ rest) = executedBy id first ++ executedBy id rest := by
  rw [executedBy, List.filter_append, List.flatMap_append]
  rfl

/-- What is done by others is not carried out by the run. -/
theorem executedBy_of_ne {id : Nat} {deeds : List (Deed α)} (h : ∀ d ∈ deeds, d.run ≠ some id) :
    executedBy id deeds = [] := by
  have hnone : (deeds.filter fun d => d.run = some id) = [] :=
    List.filter_eq_nil_iff.2 fun d hd => by simpa using h d hd
  rw [executedBy, hnone, List.flatMap_nil]

variable [Quantity α]

/-! ## The beats of histories -/

/-- The beats of the run `id` on its ticks. -/
def playBeats (id : Nat) : List α → Engine α → List (Beat α)
  | [], _ => []
  | dt :: rest, e =>
    if e.stopped id then []
    else ⟨id, dt, e⟩ ::
      match e.tick id dt with
      | (_, .error _) => []
      | (f, .ok ()) => playBeats id rest f

/-- The beats of a pending run. -/
def beginBeats (e : Engine α) (times : List α) (later : List (List α)) : List (Beat α) :=
  match e.openClock later with
  | none => []
  | some f => playBeats f.generation times f

/-- The beats of pending runs. -/
def pendingBeats : List (List α) → Engine α → List (Beat α)
  | [], _ => []
  | times :: later, e =>
    if e.phase = .pending then
      e.beginBeats times later ++ pendingBeats later (e.begin times later)
    else []

/-- The beats of the runs that an occurrence has left pending. -/
def settleBeats (e : Engine α) : List (Beat α) :=
  pendingBeats e.schedule e

/-- The beats of an occurrence, before pending runs are played. -/
def occurBeats (e : Engine α) : Occurrence α → List (Beat α)
  | .command _ _ => []
  | .tick dt => if e.phase = .live then playBeats e.generation [dt] e else []

/-- The beats of a history. -/
def beats : List (Occurrence α) → Engine α → List (Beat α)
  | [], _ => []
  | o :: rest, e => e.occurBeats o ++ (e.occur o).settleBeats ++ beats rest (e.next o)

/-- A run need not stop when it makes a beat. -/
theorem stopped_of_mem_playBeats {id : Nat} {times : List α} {e : Engine α} {t : Beat α}
    (ht : t ∈ playBeats id times e) : t.before.stopped t.run = false := by
  induction times generalizing e with
  | nil => cases ht
  | cons dt rest ih =>
      unfold playBeats at ht
      by_cases hid : e.stopped id = true
      · rw [if_pos hid] at ht
        cases ht
      · rw [if_neg hid] at ht
        rcases List.mem_cons.1 ht with rfl | hlater
        · exact Bool.eq_false_iff.2 hid
        · generalize e.tick id dt = ticked at hlater
          rcases ticked with ⟨f, reason | done⟩
          · cases hlater
          · exact ih hlater

theorem stopped_of_mem_pendingBeats {runs : List (List α)} {e : Engine α} {t : Beat α}
    (ht : t ∈ pendingBeats runs e) : t.before.stopped t.run = false := by
  induction runs generalizing e with
  | nil => cases ht
  | cons times later ih =>
      unfold pendingBeats at ht
      by_cases hp : e.phase = .pending
      · rw [if_pos hp] at ht
        rcases List.mem_append.1 ht with hbegun | hlater
        · unfold beginBeats at hbegun
          cases ho : e.openClock later with
          | none =>
              rw [ho] at hbegun
              cases hbegun
          | some f =>
              rw [ho] at hbegun
              exact stopped_of_mem_playBeats hbegun
        · exact ih hlater
      · rw [if_neg hp] at ht
        cases ht

theorem stopped_of_mem_beats {history : List (Occurrence α)} {e : Engine α} {t : Beat α}
    (ht : t ∈ e.beats history) : t.before.stopped t.run = false := by
  induction history generalizing e with
  | nil => cases ht
  | cons o rest ih =>
      rcases List.mem_append.1 ht with hfirst | hlater
      · rcases List.mem_append.1 hfirst with hoccur | hsettle
        · cases o with
          | command files c => cases hoccur
          | tick dt =>
              unfold occurBeats at hoccur
              by_cases hl : e.phase = .live
              · simp only [if_pos hl] at hoccur
                exact stopped_of_mem_playBeats hoccur
              · simp only [if_neg hl] at hoccur
                cases hoccur
        · exact stopped_of_mem_pendingBeats hsettle
      · exact ih hlater

/-! ## Runs execute on their beats only -/

theorem playDeeds_eq_flatMap (id : Nat) (times : List α) (e : Engine α) :
    playDeeds id times e = (playBeats id times e).flatMap Beat.deeds := by
  induction times generalizing e with
  | nil => rfl
  | cons dt rest ih =>
      unfold playDeeds playBeats
      by_cases hid : e.stopped id = true
      · rw [if_pos hid, if_pos hid]
        rfl
      · rw [if_neg hid, if_neg hid, List.flatMap_cons]
        rcases e.tick id dt with ⟨f, reason | done⟩
        · rfl
        · exact congrArg (e.tickDeeds id dt ++ ·) (ih f)

/-- The instructions that the run `id` carries out on some beats. -/
def executedOn (id : Nat) (beats : List (Beat α)) : List Word :=
  (beats.filter fun t => t.run = id).flatMap Beat.instructions

@[simp] theorem executedOn_append (id : Nat) (first rest : List (Beat α)) :
    executedOn id (first ++ rest) = executedOn id first ++ executedOn id rest := by
  rw [executedOn, List.filter_append, List.flatMap_append]
  rfl

/-- All that is done on a beat is done by its run. -/
theorem executedBy_flatMap (id : Nat) (beats : List (Beat α)) :
    executedBy id (beats.flatMap Beat.deeds) = executedOn id beats := by
  induction beats with
  | nil => rfl
  | cons t rest ih =>
      have hrun : ∀ d ∈ t.deeds, d.run = some t.run := fun d hd => run_of_mem_tickDeeds hd
      rw [List.flatMap_cons, executedBy_append, ih]
      unfold executedOn
      by_cases ht : t.run = id
      · have hall : (t.deeds.filter fun d => d.run = some id) = t.deeds :=
          List.filter_eq_self.2 fun d hd => by simpa [ht] using hrun d hd
        rw [List.filter_cons_of_pos (by simpa using ht), List.flatMap_cons, executedBy, hall]
        rfl
      · rw [List.filter_cons_of_neg (by simpa using ht),
          executedBy_of_ne fun d hd => by simpa [hrun d hd] using ht]
        rfl

theorem executedBy_begin (id : Nat) (e : Engine α) (times : List α) (later : List (List α)) :
    executedBy id (e.beginDeeds times later) = executedOn id (e.beginBeats times later) := by
  unfold beginDeeds beginBeats
  cases e.openClock later with
  | none => rfl
  | some f =>
      have hplay : executedBy id (playDeeds f.generation times f) =
          executedOn id (playBeats f.generation times f) := by
        rw [playDeeds_eq_flatMap, executedBy_flatMap]
      dsimp only
      rw [← hplay]
      cases hstop : f.stopRequested with
      | true =>
          rw [if_pos rfl, playDeeds_of_stopped ((stopped_generation f).trans hstop)]
      | false =>
          -- to begin is a deed of the run, but it carries nothing out
          rw [if_neg Bool.false_ne_true, ← List.singleton_append, executedBy_append]
          have hbegin : executedBy id [(⟨some f.generation, .begin, f⟩ : Deed α)] = [] := by
            unfold executedBy
            by_cases hid : f.generation = id
            · rw [List.filter_cons_of_pos (by simpa using hid)]
              rfl
            · rw [List.filter_cons_of_neg (by simpa using hid)]
              rfl
          rw [hbegin, List.nil_append]

theorem executedBy_pending (id : Nat) (runs : List (List α)) (e : Engine α) :
    executedBy id (pendingDeeds runs e) = executedOn id (pendingBeats runs e) := by
  induction runs generalizing e with
  | nil =>
      unfold pendingDeeds pendingBeats
      by_cases hp : e.phase = .pending
      · rw [if_pos hp, executedBy_begin]
        unfold beginBeats
        cases e.openClock [] with
        | none => rfl
        | some f => rfl
      · rw [if_neg hp]
        rfl
  | cons times later ih =>
      unfold pendingDeeds pendingBeats
      by_cases hp : e.phase = .pending
      · rw [if_pos hp, if_pos hp, executedBy_append, executedOn_append, executedBy_begin, ih]
      · rw [if_neg hp, if_neg hp]
        rfl

/-- A run carries instructions out on its beats, and at no other time. -/
theorem executedBy_deeds (id : Nat) (history : List (Occurrence α)) (e : Engine α) :
    executedBy id (e.deeds history) = executedOn id (e.beats history) := by
  induction history generalizing e with
  | nil => rfl
  | cons o rest ih =>
      have hoccur : executedBy id (e.occurDeeds o) = executedOn id (e.occurBeats o) := by
        cases o with
        | command files c =>
            exact executedBy_of_ne fun d hd hrun => by
              cases (run_of_mem_performDeeds hd).symm.trans hrun
        | tick dt =>
            unfold occurDeeds occurBeats
            by_cases hl : e.phase = .live
            · simp only [if_pos hl]
              rw [playDeeds_eq_flatMap, executedBy_flatMap]
            · simp only [if_neg hl]
              rfl
      have hsettle : executedBy id (e.occur o).settleDeeds =
          executedOn id (e.occur o).settleBeats := executedBy_pending id _ _
      rw [deeds, beats, executedBy_append, executedBy_append, executedOn_append,
        executedOn_append, hoccur, hsettle, ih]

end Engine

end Chip8
