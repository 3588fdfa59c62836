import Chip8.Proofs.Engine.Apart
import Chip8.Proofs.Engine.Trace
import Chip8.Proofs.Session.Buzzer

/-!
# Tracing a session

A session keeps a record of what its engine notes, and the engine sees of it whether fetches are to
be noted. With another record the engine is left alike (`Engine.Alike`), and what the session takes
over from engines that are alike differs in the record only (`Session.adopt_withRecord`). So
whatever happens to a session, it does the same with any other record in its place
(`Session.turn_withRecord`), and two sessions that differ in their records, and in where their
journals are switched, go through the same states and give the same replies
(`Session.observed_congr`). What is written of the trace is what the engine fetches while the
journal is on (`Session.filter_written`). `tracing_apart` says both, of benches as well.
-/

set_option autoImplicit false

namespace Chip8

/-- The command that an action gives to the engine. -/
def Action.command? {α : Type} : Action α → Option (Command α)
  | .command c => some c
  | .keyDown symbol =>
    match KeyAction.ofSymbol? symbol with
    | some (.key k) => some (.operate (.press k.val))
    | _ => none
  | .keyUp symbol => (Key.ofSymbol? symbol).map fun k => .operate (.release k.val)
  | .deactivate => some (.operate .releaseAll)
  | .close => some .stop
  | _ => none

/-- How an action switches a journal. -/
def Action.switch? {α : Type} (j : Journal) : Action α → Option Bool
  | .switchJournal on => some on
  | .keyDown symbol =>
    match KeyAction.ofSymbol? symbol with
    | some .toggleJournal => some (!j.isOn)
    | _ => none
  | _ => none

/-- Something that happens to a session: a turn, or a switch of the journal from outside. -/
inductive Happening (α : Type) where
  | turn (t : Turn α)
  | switchJournal (on : Bool)

/-- The turn that something is, if it is one. -/
def Happening.turn? {α : Type} : Happening α → Option (Turn α)
  | turn t => some t
  | switchJournal _ => none

namespace Session

variable {α : Type}

/-- The record of a session. -/
def record (s : Session α) : Record :=
  ⟨s.journal, s.lines⟩

/-- The session with another record. -/
def withRecord (s : Session α) (r : Record) : Session α :=
  { s with journal := r.journal, lines := r.lines }

/-- The session apart from its record. -/
def muted (s : Session α) : Session α :=
  s.withRecord ⟨.closed, []⟩

/-! ## Signals -/

/-- A signal that is heard does not reach the record. -/
theorem receive_withRecord (s : Session α) (r : Record) {signal : Signal}
    (h : signal.isHeard = true) :
    (s.withRecord r).receive signal = (s.receive signal).withRecord r := by
  cases signal with
  | entry entry => cases h
  | buzzer on =>
      rcases s with ⟨engine, listening, _ | w, journal, files, pitches, events, lines⟩
      · rfl
      · rfl
  | refresh | fault reason =>
      rcases s with ⟨engine, _ | _, window, journal, files, pitches, events, lines⟩
      · rfl
      · rfl

/-- Signals that are heard are handed on whatever the record is, and the others go into the
record. -/
theorem foldl_receive_withRecord (signals : List Signal) (s : Session α) (r : Record) :
    signals.foldl receive (s.withRecord r) =
      ((signals.filter Signal.isHeard).foldl receive s).withRecord
        (r.write (signals.filterMap Signal.entry?)) := by
  -- the record has taken the entries of the signals that came before
  induction signals generalizing s r with
  | nil => rfl
  | cons signal rest ih =>
      cases signal with
      | entry entry =>
          have hnext := ih s (r.write [entry])
          rw [← Record.write_append] at hnext
          exact hnext
      | refresh | buzzer on | fault reason =>
          rw [List.foldl_cons, receive_withRecord s r rfl]
          exact ih _ r

/-- Of engines that are alike the same is taken over, and the entries of the one that is there are
written down. -/
theorem adopt_withRecord (s : Session α) (r : Record) {e f : Engine α} (h : e.Alike f) :
    (s.withRecord r).adopt e = (s.adopt f).withRecord (r.write e.noted) := by
  have hbare : ({ e with trail := [] } : Engine α) = { f with trail := [] } :=
    h.seen (fun e => { e with trail := [] }) fun _ => rfl
  have hheard : e.trail.reverse.filter Signal.isHeard = f.trail.reverse.filter Signal.isHeard := by
    refine h.seen (·.trail.reverse.filter Signal.isHeard) fun e => ?_
    show (e.trail.filter Signal.isHeard).reverse.filter Signal.isHeard = _
    rw [List.filter_reverse, List.filter_filter, List.filter_reverse]
    simp only [Bool.and_self]
  have he := foldl_receive_withRecord e.trail.reverse
    { s with engine := { e with trail := [] } } r
  have hf := foldl_receive_withRecord f.trail.reverse
    { s with engine := { f with trail := [] } } s.record
  refine he.trans ?_
  rw [hbare, hheard]
  exact (congrArg (·.withRecord (r.write e.noted)) hf).symm

theorem trail_adopt (s : Session α) (e : Engine α) : (s.adopt e).engine.trail = [] := by
  have hengine (signals : List Signal) (f : Session α) :
      (signals.foldl receive f).engine = f.engine := by
    induction signals generalizing f with
    | nil => rfl
    | cons signal rest ih => rw [List.foldl_cons, ih, engine_receive]
  rw [adopt, hengine]

/-! ## What the window does -/

/-- An act that does not look at the record, and leaves it and the trail as they are. -/
structure Aside {β : Type} (act : Session α → Session α × β) : Prop where
  record : ∀ s r, act (s.withRecord r) = ((act s).1.withRecord r, (act s).2)
  trail : ∀ s, (act s).1.engine.trail = s.engine.trail

theorem Aside.andThen {β γ : Type} {act : Session α → Session α × β}
    {next : Session α → Session α × γ} (ha : Aside act) (hn : Aside next) :
    Aside fun s => next (act s).1 where
  record s r := by rw [ha.record, hn.record]
  trail s := (hn.trail _).trans (ha.trail s)

theorem aside_beep (spread : Int) : Aside fun s : Session α => (s.beep spread, ()) where
  -- the window and the next pitch decide what a beep does
  record s r := by
    rcases s with ⟨engine, listening, _ | w, journal, files, _ | ⟨p, rest⟩, events, lines⟩ <;> rfl
  trail s := by
    rcases s with ⟨engine, listening, _ | w, journal, files, _ | ⟨p, rest⟩, events, lines⟩ <;> rfl

theorem aside_endTone : Aside fun s : Session α => s.endTone where
  record s r := by
    rcases s with ⟨engine, listening, _ | w, journal, files, pitches, events, lines⟩
    · rfl
    · cases hp : w.soundPlayed <;> simp only [endTone, withRecord, hp] <;> rfl
  trail s := by
    unfold endTone
    split
    · rfl
    · split <;> rfl

theorem aside_showSound : Aside fun s : Session α => (s.showSound, ()) where
  record s r := by
    have hbeep := (aside_beep defaultSpread).record s r
    rcases s with ⟨engine, listening, _ | w, journal, files, pitches, events, lines⟩
    · rfl
    · cases hw : w.soundWanted && !w.soundPlaying
      · simp only [showSound, withRecord, hw]
        rfl
      · simp only [showSound, withRecord, hw, if_true]
        exact hbeep
  trail s := by
    unfold showSound
    split
    · rfl
    · split
      · exact (aside_beep defaultSpread).trail s
      · rfl

theorem aside_showFrame (w : Window) (m : Machine) :
    Aside fun s : Session α => s.showFrame w m where
  record s r := by
    unfold showFrame
    dsimp only
    generalize m.display.takeFrame = taken
    rcases taken with ⟨display, _ | grid⟩
    · rfl
    · dsimp only
      cases w.picture grid <;> rfl
  trail s := by
    unfold showFrame
    dsimp only
    split
    · rfl
    · split <;> rfl

theorem aside_showFault : Aside fun s : Session α => (s.showFault, ()) where
  record s r := by
    rcases s with ⟨engine, listening, _ | w, journal, files, pitches, events, lines⟩
    · rfl
    · cases hf : engine.fault with
      | none =>
          simp only [showFault, withRecord, hf]
      | some fault =>
          by_cases hc : w.caption = w.faultCaption fault
          · simp only [showFault, withRecord, hf, if_pos hc]
          · simp only [showFault, withRecord, hf, if_neg hc]
            rfl
  trail s := by
    unfold showFault
    split
    · dsimp only
      split <;> rfl
    · rfl

theorem aside_refresh : Aside fun s : Session α => s.refresh where
  record s r := by
    cases hw : s.window with
    | none => simp only [refresh, withRecord, hw]
    | some w =>
        cases hm : s.engine.machine with
        | none => simp only [refresh, withRecord, hw, hm]
        | some m =>
            have hframe := (aside_showFrame w m).record s r
            have hshown (f : Session α) := (aside_showSound.andThen aside_showFault).record f r
            simp only [refresh, hw, hm, show (s.withRecord r).window = some w from hw,
              show (s.withRecord r).engine.machine = some m from hm]
            dsimp only at hframe hshown
            rw [hframe]
            -- a frame that is refused ends the refresh
            rcases s.showFrame w m with ⟨f, reason | done⟩
            · rfl
            · exact congrArg (fun g : Session α × Unit => (g.1, Except.ok Reply.done)) (hshown f)
  trail s := by
    unfold refresh
    split
    · rfl
    · rfl
    next w m _ _ =>
      have hframe := (aside_showFrame w m).trail s
      generalize s.showFrame w m = shown at hframe ⊢
      rcases shown with ⟨f, reason | done⟩
      · exact hframe
      · exact ((aside_showSound.andThen aside_showFault).trail f).trans hframe

theorem aside_draw : Aside fun s : Session α => (s.drawWindow, ()) where
  record s r := by
    rcases s with ⟨engine, listening, _ | w, journal, files, pitches, events, lines⟩ <;> rfl
  trail s := by
    unfold drawWindow
    split <;> rfl

variable [Quantity α]

theorem aside_showRate (dt : α) : Aside fun s : Session α => s.showRate dt where
  record s r := by
    rcases s with ⟨engine, listening, _ | w, journal, files, pitches, events, lines⟩
    · rfl
    · cases hc : cyclesPer (engine.cycles - w.lastCycles) dt <;>
        simp only [showRate, withRecord, hc]
  trail s := by
    unfold showRate
    split
    · rfl
    · split <;> rfl

/-! ## Actions -/

/-- What the engine notes on an occurrence, if it sees the journal of a given record. -/
def noted (s : Session α) (o : Occurrence α) (r : Record) : List Entry :=
  letI := r.journal.tracing
  (s.engine.next o).noted

/-- The record after an action: what the engine notes is written down, and to switch the journal is
noted. -/
def actRecord (s : Session α) (a : Action α) (r : Record) : Record :=
  match a.command? with
  | some c => r.write (s.noted (.command s.files c) r)
  | none =>
    match a.switch? r.journal with
    | some on => r.switch on
    | none => r

theorem actRecord_of_command (s : Session α) {a : Action α} {c : Command α}
    (h : a.command? = some c) (r : Record) :
    s.actRecord a r = r.write (s.noted (.command s.files c) r) := by
  rw [actRecord, h]

/-- An action that gives the engine no command leaves the record as it is, or switches its
journal. -/
theorem actRecord_of_no_command (s : Session α) {a : Action α} (h : a.command? = none)
    (r : Record) : s.actRecord a r = r ∨ ∃ on, s.actRecord a r = r.switch on := by
  rw [actRecord, h]
  cases a.switch? r.journal with
  | none => exact Or.inl rfl
  | some on => exact Or.inr ⟨on, rfl⟩

theorem command_withRecord (s : Session α) (r : Record) (c : Command α) :
    (s.withRecord r).command c =
      ((s.command c).1.withRecord (r.write (s.noted (.command s.files c) r)), (s.command c).2) := by
  have hdone := (Engine.Alike.refl s.engine).perform r.journal.tracing s.journal.tracing s.files c
  have hsettled := hdone.engine.settle r.journal.tracing s.journal.tracing
  exact Prod.ext (s.adopt_withRecord r hsettled) hdone.answer

theorem advance_withRecord (s : Session α) (r : Record) (dt : α) :
    (s.withRecord r).advance dt = (s.advance dt).withRecord (r.write (s.noted (.tick dt) r)) := by
  have hnext := (Engine.Alike.refl s.engine).next r.journal.tracing s.journal.tracing (.tick dt)
  exact s.adopt_withRecord r hnext

theorem trail_command (s : Session α) (c : Command α) : (s.command c).1.engine.trail = [] :=
  s.trail_adopt _

/-- With another record, an action does the same. -/
theorem act_withRecord (s : Session α) (a : Action α) (r : Record) :
    (s.withRecord r).act a = ((s.act a).1.withRecord (s.actRecord a r), (s.act a).2) := by
  cases a with
  | command c => exact s.command_withRecord r c
  | switchJournal on => rfl
  | refresh => exact aside_refresh.record s r
  | showRate dt => exact (aside_showRate dt).record s r
  | beep spread =>
      exact congrArg (fun f => (f.1, Except.ok Reply.done)) ((aside_beep spread).record s r)
  | endTone => exact aside_endTone.record s r
  | draw => exact congrArg (fun f => (f.1, Except.ok Reply.done)) (aside_draw.record s r)
  | deactivate => exact s.command_withRecord r (.operate .releaseAll)
  | keyDown symbol =>
      simp only [act, keyDown, actRecord, Action.command?, Action.switch?]
      rcases KeyAction.ofSymbol? symbol with _ | _ | _ | k
      · rfl
      · rfl
      · rfl
      · exact s.command_withRecord r (.operate (.press k.val))
  | keyUp symbol =>
      simp only [act, keyUp, actRecord, Action.command?]
      rcases Key.ofSymbol? symbol with _ | k
      · rfl
      · exact s.command_withRecord r (.operate (.release k.val))
  | close =>
      -- the engine is stopped between calls of the window
      let ended := (s.call (.unschedule .refresh)).call (.unschedule .rate)
      have hstop := ended.command_withRecord r .stop
      exact congrArg (fun f => (f.1.call .closeBase, Except.ok Reply.done)) hstop

/-- An action leaves nothing to be handed on. -/
theorem trail_act {s : Session α} (h : s.engine.trail = []) (a : Action α) :
    (s.act a).1.engine.trail = [] := by
  cases a with
  | command c => exact s.trail_command c
  | switchJournal on => exact h
  | refresh => exact (aside_refresh.trail s).trans h
  | showRate dt => exact ((aside_showRate dt).trail s).trans h
  | beep spread => exact ((aside_beep spread).trail s).trans h
  | endTone => exact (aside_endTone.trail s).trans h
  | draw => exact (aside_draw.trail s).trans h
  | deactivate => exact s.trail_command _
  | keyDown symbol =>
      simp only [act, keyDown]
      rcases KeyAction.ofSymbol? symbol with _ | _ | _ | k
      · exact h
      · exact h
      · exact h
      · exact s.trail_command _
  | keyUp symbol =>
      simp only [act, keyUp]
      rcases Key.ofSymbol? symbol with _ | k
      · exact h
      · exact s.trail_command _
  | close => exact trail_command _ .stop

/-- The record after something was asked of a session, which may lack a window for it. -/
def performRecord (s : Session α) (a : Action α) (r : Record) : Record :=
  if a.ofWindow && s.window.isNone then r else s.actRecord a r

theorem perform_withRecord (s : Session α) (a : Action α) (r : Record) :
    (s.withRecord r).perform a =
      ((s.perform a).1.withRecord (s.performRecord a r), (s.perform a).2) := by
  unfold perform performRecord
  show (if a.ofWindow && s.window.isNone then _ else _) = _
  cases a.ofWindow && s.window.isNone with
  | true => rfl
  | false => exact s.act_withRecord a r

theorem trail_perform {s : Session α} (h : s.engine.trail = []) (a : Action α) :
    (s.perform a).1.engine.trail = [] := by
  unfold perform
  split
  · exact h
  · exact trail_act h a

/-! ## Turns -/

/-- The reply to a turn, if it is an action. -/
def reply? (s : Session α) : Turn α → Option (Except Refusal Reply)
  | .act files a => some ({ s with files }.perform a).2
  | .tick _ | .report => none

/-- The record after a turn. A report takes the lines away. -/
def turnRecord (s : Session α) (t : Turn α) (r : Record) : Record :=
  match t with
  | .act files a => { s with files }.performRecord a r
  | .tick dt => r.write (s.noted (.tick dt) r)
  | .report => { r with lines := [] }

/-- With another record, a turn does the same. -/
theorem turn_withRecord (s : Session α) (t : Turn α) (r : Record) :
    (s.withRecord r).turn t = (s.turn t).withRecord (s.turnRecord t r) := by
  cases t with
  | act files a => exact congrArg Prod.fst ({ s with files }.perform_withRecord a r)
  | tick dt => exact s.advance_withRecord r dt
  | report => rfl

/-- A session has the record that a turn makes of its own one. -/
theorem record_turn (s : Session α) (t : Turn α) :
    (s.turn t).record = s.turnRecord t s.record :=
  congrArg Session.record (s.turn_withRecord t s.record)

/-- With another record, a turn has the same reply. -/
theorem reply?_withRecord (s : Session α) (t : Turn α) (r : Record) :
    (s.withRecord r).reply? t = s.reply? t := by
  cases t with
  | act files a =>
      have hreply : (({ s with files } : Session α).withRecord r |>.perform a).2 = _ :=
        congrArg Prod.snd ({ s with files }.perform_withRecord a r)
      exact congrArg some hreply
  | tick dt | report => rfl

theorem trail_turn {s : Session α} (h : s.engine.trail = []) (t : Turn α) :
    (s.turn t).engine.trail = [] := by
  cases t with
  | act files a => exact trail_perform (s := { s with files }) h a
  | tick dt => exact s.trail_adopt _
  | report => exact h

/-- What the engine fetches on an occurrence. -/
def occurrenceFetches (s : Session α) (o : Occurrence α) : List (Int × Word) :=
  letI := s.journal.tracing
  s.engine.fetches o

/-- What the engine fetches in a turn. -/
def turnFetches (s : Session α) : Turn α → List (Int × Word)
  | .act files a =>
    if a.ofWindow && s.window.isNone then []
    else
      match a.command? with
      | some c => s.occurrenceFetches (.command files c)
      | none => []
  | .tick dt => s.occurrenceFetches (.tick dt)
  | .report => []

/-- What is noted adds to the trace what is fetched while the journal is on. -/
theorem traced_noted {s : Session α} (hj : s.journal.Orderly) (h : s.engine.trail = [])
    (o : Occurrence α) :
    (s.record.write (s.noted o s.record)).traced =
      s.record.traced ++
        if s.journal.isOn then (s.occurrenceFetches o).map traceLine else [] := by
  have hnone : s.engine.traced = [] := by
    rw [Engine.traced, Engine.noted, h]
    rfl
  rw [Record.traced_write hj]
  show _ ++ (if s.journal.isOn then _ else _) = _
  cases hon : s.journal.isOn with
  | false => rfl
  | true =>
      have hnext := @Engine.traced_next α _ s.journal.tracing hon s.engine o
      rw [hnone, List.nil_append] at hnext
      exact congrArg (fun fetched => s.record.traced ++ fetched.map traceLine) hnext

/-- The trace after a turn that is no report. -/
theorem traced_turn {s : Session α} (hj : s.journal.Orderly) (h : s.engine.trail = [])
    {t : Turn α} (ht : t ≠ .report) :
    (s.turn t).record.traced =
      s.record.traced ++ if s.journal.isOn then (s.turnFetches t).map traceLine else [] := by
  have hquiet : s.record.traced = s.record.traced ++
      if s.journal.isOn then ([] : List (Int × Word)).map traceLine else [] := by
    rw [List.map_nil, ite_self, List.append_nil]
  rw [record_turn]
  cases t with
  | act files a =>
      simp only [turnRecord, performRecord, turnFetches]
      cases a.ofWindow && s.window.isNone with
      | true => exact hquiet
      | false =>
          -- only a command is passed on to the engine, and only otherwise the journal is switched
          rw [if_neg Bool.false_ne_true, if_neg Bool.false_ne_true]
          cases hc : a.command? with
          | some c =>
              rw [actRecord_of_command _ hc]
              exact traced_noted hj h (.command files c)
          | none =>
              rcases actRecord_of_no_command { s with files } hc s.record with hr | ⟨on, hr⟩
              · rw [hr]
                exact hquiet
              · rw [hr, Record.traced_switch hj]
                exact hquiet
  | tick dt => exact traced_noted hj h (.tick dt)
  | report => exact absurd rfl ht

/-- A turn may switch the journal, and leaves it orderly. -/
theorem orderly_turn {s : Session α} (hj : s.journal.Orderly) (t : Turn α) :
    (s.turn t).journal.Orderly := by
  show (s.turn t).record.journal.Orderly
  rw [record_turn]
  cases t with
  | act files a =>
      simp only [turnRecord, performRecord]
      cases a.ofWindow && s.window.isNone with
      | true => exact hj
      | false =>
          rw [if_neg Bool.false_ne_true]
          cases hc : a.command? with
          | some c =>
              rw [actRecord_of_command _ hc]
              exact hj
          | none =>
              rcases actRecord_of_no_command { s with files } hc s.record with hr | ⟨on, hr⟩
              · rw [hr]
                exact hj
              · rw [hr]
                exact Journal.Orderly.switch hj on
  | tick dt | report => exact hj

/-! ## Histories -/

/-- The session after something has happened. -/
def happen (s : Session α) : Happening α → Session α
  | .turn t => s.turn t
  | .switchJournal on => s.switchJournal on

/-- The replies to the turns of a session, each with the session that it leaves, apart from its
record. -/
def observed : List (Happening α) → Session α → List (Option (Except Refusal Reply) × Session α)
  | [], _ => []
  | .turn t :: rest, s => (s.reply? t, (s.turn t).muted) :: observed rest (s.turn t)
  | .switchJournal on :: rest, s => observed rest (s.switchJournal on)

/-- What is fetched in a session while the journal is on. -/
def fetches : List (Happening α) → Session α → List (Int × Word)
  | [], _ => []
  | .turn t :: rest, s =>
    (if s.journal.isOn then s.turnFetches t else []) ++ fetches rest (s.turn t)
  | .switchJournal on :: rest, s => fetches rest (s.switchJournal on)

/-- The lines that a turn takes away. -/
def reported (s : Session α) : Happening α → List String
  | .turn .report => s.report.2.1
  | _ => []

/-- All lines that are written, those that reports have taken away included, the oldest first. -/
def written : List (Happening α) → Session α → List String
  | [], s => s.report.2.1
  | h :: rest, s => s.reported h ++ written rest (s.happen h)

/-- A record is of no account to what is observed. -/
theorem observed_withRecord (s : Session α) (r : Record) (history : List (Happening α)) :
    (s.withRecord r).observed history = s.observed history := by
  induction history generalizing s r with
  | nil => rfl
  | cons h rest ih =>
      cases h with
      | turn t =>
          rw [observed, observed, reply?_withRecord, turn_withRecord, ih]
          rfl
      | switchJournal on =>
          have hr := ih s (r.switch on)
          have hs := ih s (s.record.switch on)
          exact hr.trans hs.symm

/-- What is observed depends on the turns only. -/
theorem observed_filterMap (s : Session α) (history : List (Happening α)) :
    s.observed history = s.observed ((history.filterMap Happening.turn?).map .turn) := by
  induction history generalizing s with
  | nil => rfl
  | cons h rest ih =>
      cases h with
      | turn t => exact congrArg (_ :: ·) (ih (s.turn t))
      | switchJournal on =>
          -- the session goes on with another record, as it would have with its own
          exact (s.observed_withRecord (s.record.switch on) rest).trans (ih s)

/-- The same turns on the same session are observed, wherever the journal is switched. -/
theorem observed_congr {s f : Session α} (hs : s.muted = f.muted)
    {history other : List (Happening α)}
    (ht : history.filterMap Happening.turn? = other.filterMap Happening.turn?) :
    s.observed history = f.observed other := by
  rw [s.observed_filterMap, f.observed_filterMap, ht, ← s.observed_withRecord ⟨.closed, []⟩,
    ← f.observed_withRecord ⟨.closed, []⟩]
  exact congrArg (observed _) hs

/-- What happens to a session adds to the trace what is fetched while the journal is on. A report
takes the trace away. -/
theorem traced_happen {s : Session α} (hj : s.journal.Orderly) (htrail : s.engine.trail = [])
    (h : Happening α) :
    (s.reported h).filter isTraceLine ++ (s.happen h).record.traced =
      s.record.traced ++ (s.fetches [h]).map traceLine := by
  cases h with
  | switchJournal on =>
      exact (Record.traced_switch (r := s.record) hj on).trans (List.append_nil _).symm
  | turn t =>
      have hgrown (ht : t ≠ .report) := traced_turn hj htrail ht
      rw [fetches, fetches, List.append_nil]
      cases t with
      | act files a | tick dt =>
          show (s.turn _).record.traced = _
          rw [hgrown nofun]
          cases s.journal.isOn <;> rfl
      | report =>
          rw [turnFetches, ite_self]
          rfl

/-- What is written of the trace in a session that has nothing to hand on. -/
theorem filter_written {s : Session α} (hj : s.journal.Orderly) (htrail : s.engine.trail = [])
    (history : List (Happening α)) :
    (s.written history).filter isTraceLine =
      s.record.traced ++ (s.fetches history).map traceLine := by
  induction history generalizing s with
  | nil => exact (List.append_nil _).symm
  | cons h rest ih =>
      have hnext : (s.happen h).journal.Orderly ∧ (s.happen h).engine.trail = [] := by
        cases h with
        | turn t => exact ⟨orderly_turn hj t, trail_turn htrail t⟩
        | switchJournal on => exact ⟨hj.switch on, htrail⟩
      have hfetches : s.fetches (h :: rest) = s.fetches [h] ++ (s.happen h).fetches rest := by
        cases h with
        | turn t => rw [fetches, fetches, fetches, List.append_nil]; rfl
        | switchJournal on => rfl
      rw [written, List.filter_append, ih hnext.1 hnext.2, ← List.append_assoc,
        traced_happen hj htrail, hfetches, List.map_append, List.append_assoc]

end Session

/-- Tracing stays apart from what is traced. What is observed of the operations on a machine, and of
whatever happens to a session, does not depend on where journals are switched or on what has been
written before, although every step looks whether its fetch is to be noted. What is written of the
trace has, in order, one line for each instruction that was fetched to be executed while the journal
was on, however often it had been switched. -/
theorem tracing_apart {α : Type} [Quantity α] :
    (∀ (b c : Bench) (history other : List Bench.Turn), b.machine = c.machine →
      history.filterMap Bench.Turn.operation? = other.filterMap Bench.Turn.operation? →
      b.observed history = c.observed other) ∧
    (∀ (b : Bench) (switches : List Bool) (history : List Bench.Turn),
      b.record.journal = .switched switches →
      (b.after history).record.traced = b.record.traced ++ (b.fetches history).map traceLine) ∧
    (∀ (s f : Session α) (history other : List (Happening α)), s.muted = f.muted →
      history.filterMap Happening.turn? = other.filterMap Happening.turn? →
      s.observed history = f.observed other) ∧
    ∀ (s : Session α) (switches : List Bool) (history : List (Happening α)),
      s.journal = .switched switches → s.engine.trail = [] →
      (s.written history).filter isTraceLine =
        s.record.traced ++ (s.fetches history).map traceLine := by
  refine ⟨?_, ?_, ?_, ?_⟩
  · intro b c history other hm ho
    let _ := b.record.journal.tracing
    rw [b.observed_eq_performed, c.observed_eq_performed, hm, ho]
  · intro b switches history hj
    exact Bench.traced_after (hj ▸ Journal.orderly_switched switches) history
  · intro s f history other hs ht
    exact Session.observed_congr hs ht
  · intro s switches history hj htrail
    exact Session.filter_written (hj ▸ Journal.orderly_switched switches) htrail history

/-- A program sets a register and then jumps to where it is. The run that is made while the journal
is on is seen in the trace once, although the journal was switched on twice; the run after it is
not seen. -/
theorem tracing_apart_two_runs :
    ∃ new : Engine Rat,
      Engine.create 60 60 ⟨fun _ => 0, 0⟩ ⟨.ignore, none, none⟩ [] = .ok new ∧
      let program := [0x60, 0x05, 0x12, 0x02]
      let load : Happening Rat := .turn (.act .emptyDirectory (.command (.init program)))
      let run : Happening Rat := .turn (.act .emptyDirectory (.command (.runCycles 2)))
      let s := Session.create new true []
      let b : Bench := ⟨.fresh .idle ⟨fun _ => 0, 0⟩, ⟨.closed, []⟩⟩
      let steps : List Bench.Turn := [.operate (.init program), .operate .step, .operate .step]
      s.observed [load, .switchJournal true, .switchJournal true, run, .turn .report,
          .switchJournal false, run] = s.observed [load, run, .turn .report, run] ∧
        (s.written [load, .switchJournal true, .switchJournal true, run, .turn .report,
          .switchJournal false, run]).filter isTraceLine =
          ["[DEBUG] chip8.cpu: 200: [6005] LD V0, 05", "[DEBUG] chip8.cpu: 202: [1202] JP 202"] ∧
        b.observed (.switchJournal true :: steps) = b.observed steps ∧
        (b.after (.switchJournal true :: steps)).record.traced =
          ["[DEBUG] chip8.cpu: 200: [6005] LD V0, 05",
            "[DEBUG] chip8.cpu: 202: [1202] JP 202"] := by
  refine ⟨_, rfl, ?_⟩
  intro program load run s b steps
  obtain ⟨hbench, htraced, hsession, hwritten⟩ := tracing_apart (α := Rat)
  refine ⟨hsession s s _ _ rfl rfl, ?_, hbench b b _ _ rfl rfl, ?_⟩
  · rw [hwritten s [] _ rfl rfl]
    decide +kernel
  · rw [htraced b [] _ rfl]
    decide +kernel

end Chip8
