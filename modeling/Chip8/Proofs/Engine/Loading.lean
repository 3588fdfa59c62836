import Chip8.Proofs.Engine.Load

/-!
# Loading is all or nothing

A call that loads a program can be refused by the file system, by one of two checks of the size, or
because a number is no byte. All of this is found out before anything is changed: the file is read
before a run is stopped, and what was read passes the checks of the machine as well
(`Machine.init_of_load`). So a refused call leaves no more than notes (`Engine.OnlyNotes`), and a
call that is carried out changes the program's bytes, the program counter and the kept fault
(`Engine.load_all_or_nothing`).
-/

set_option autoImplicit false

namespace Chip8

namespace Engine

variable {α : Type}

/-- Between two states of an engine entries were made in the journal, and nothing else has
changed. -/
def OnlyNotes (e f : Engine α) : Prop :=
  ∃ notes : List Entry, f = { e with trail := (notes.map Signal.entry).reverse ++ e.trail }

theorem noteAll_eq (e : Engine α) (notes : List Entry) :
    e.noteAll notes = { e with trail := (notes.map Signal.entry).reverse ++ e.trail } := by
  induction notes generalizing e with
  | nil => rfl
  | cons entry rest ih =>
      refine (ih (e.note entry)).trans ?_
      rw [List.map_cons, List.reverse_cons, List.append_assoc]
      rfl

theorem onlyNotes_noteAll (e : Engine α) (notes : List Entry) : e.OnlyNotes (e.noteAll notes) :=
  ⟨notes, noteAll_eq e notes⟩

/-! ## Programs given byte by byte -/

/-- A program that is refused by an engine with a machine is refused by the machine. -/
theorem init_error {e : Engine α} {m : Machine} (hm : e.machine = some m) {program : List Int}
    (h : ¬ Memory.Accepts program) :
    ∃ reason, e.init program = (e, .error (.load reason)) := by
  cases hi : m.init program with
  | error reason => exact ⟨reason, init_of_refusal hm hi⟩
  | ok m' => exact absurd (Machine.accepts_of_init hi) h

/-- What loading a program leaves: its bytes are in memory, the program counter is at the first of
them, no fault is kept, and nothing else has changed. -/
structure Loaded (e : Engine α) (m : Machine) (program : List Int) (f : Engine α) (k : Memory) :
    Prop where
  engine : ∃ notes : List Entry, f = { e with
    machine := some { m with memory := k, pc := programStart }
    fault := none
    trail := (notes.map Signal.entry).reverse ++ e.trail }
  bytes : ∀ i z, program[i]? = some z → ((k.byte (programStart + i)).toNat : Int) = z
  others : ∀ a, a < programStart ∨ programStart + program.length ≤ a →
    k.byte a = m.memory.byte a

theorem loaded_of_accepts {e : Engine α} {m : Machine} (hm : e.machine = some m)
    {program : List Int} (h : Memory.Accepts program) :
    ∃ f k, e.init program = (f, .ok ()) ∧ e.Loaded m program f k := by
  have hlimit : programStart + programLimit = memorySize := rfl
  have hfits := h.fits
  have hi := m.init_of_accepts h
  simp only [init, hm, hi]
  refine ⟨_, _, rfl, ⟨_, noteAll_eq _ _⟩, ?_, ?_⟩
  · intro i z hz
    obtain ⟨hlt, -⟩ := List.getElem?_eq_some_iff.1 hz
    obtain ⟨h0, h1⟩ := h.bytes z (List.mem_of_getElem? hz)
    have hin : programStart ≤ programStart + i ∧
        programStart + i < programStart + (program.map fun z => UInt8.ofNat z.toNat).length ∧
        programStart + i < memorySize := by
      rw [List.length_map]
      omega
    rw [Memory.byte_poke, if_pos hin, Nat.add_sub_cancel_left, List.getElem?_map, hz]
    show ((UInt8.ofNat z.toNat).toNat : Int) = z
    rw [UInt8.toNat_ofNat_of_lt' (show z.toNat < 256 by omega), Int.toNat_of_nonneg h0]
  · intro a ha
    rw [Memory.byte_poke, if_neg]
    rw [List.length_map]
    omega

/-- An engine takes a program exactly if it has a machine and the program can be loaded. -/
theorem init_ok_iff {e : Engine α} {program : List Int} :
    (e.init program).2 = .ok () ↔ e.machine ≠ none ∧ Memory.Accepts program := by
  constructor
  · intro hok
    cases hm : e.machine with
    | none =>
        rw [init_of_noMachine hm] at hok
        cases hok
    | some m =>
        refine ⟨nofun, Decidable.byContradiction fun h => ?_⟩
        obtain ⟨reason, hi⟩ := init_error hm h
        rw [hi] at hok
        cases hok
  · rintro ⟨hsome, h⟩
    obtain ⟨m, hm⟩ := Option.ne_none_iff_exists'.1 hsome
    obtain ⟨f, k, hi, -⟩ := loaded_of_accepts hm h
    rw [hi]

/-! ## Programs from files -/

/-- A program that was read from a file is refused only if there is no machine. -/
theorem loadFile_of_load {e : Engine α} {tree : Node} {path : String} {program : List Byte}
    (hl : Rom.load tree path = .ok program) :
    (e.loadFile tree path).2 = if e.machine = none then .error .noMachine else .ok () := by
  have hnoted := ledger_noteAll e (Rom.entries path (.ok program))
  rw [loadFile_eq_init hl]
  generalize e.noteAll (Rom.entries path (.ok program)) = read at hnoted ⊢
  have hread : read.machine = e.machine := congrArg Ledger.machine hnoted
  by_cases hm : e.machine = none
  · rw [if_pos hm, init_of_noMachine (hread.trans hm)]
  · rw [if_neg hm]
    exact init_ok_iff.2 ⟨hread ▸ hm, Rom.accepts_of_load hl⟩

/-! ## All calls that load -/

/-- How a call that loads ends: a program that cannot be loaded is refused and leaves only notes;
any other is loaded, unless there is no machine. -/
inductive LoadEnd (e : Engine α) : Engine α × Except Refusal Unit → Prop where
  | refused {f : Engine α} {reason : LoadError} (hnotes : e.OnlyNotes f) :
      LoadEnd e (f, .error (.load reason))
  | noMachine {f : Engine α} (hm : e.machine = none) : LoadEnd e (f, .error .noMachine)
  | loaded {f : Engine α} (hm : e.machine ≠ none) : LoadEnd e (f, .ok ())

theorem loadEnd_init (e : Engine α) (program : List Int) : e.LoadEnd (e.init program) := by
  cases hm : e.machine with
  | none =>
      rw [init_of_noMachine hm]
      exact .noMachine hm
  | some m =>
      have hsome : e.machine ≠ none := Option.ne_none_iff_exists'.2 ⟨m, hm⟩
      by_cases h : Memory.Accepts program
      · obtain ⟨f, k, hi, -⟩ := loaded_of_accepts hm h
        rw [hi]
        exact .loaded hsome
      · obtain ⟨reason, hi⟩ := init_error hm h
        rw [hi]
        exact .refused ⟨[], rfl⟩

/-- With a program that was read from a file, only a missing machine can be in the way. -/
theorem loadEnd_of_load {e f : Engine α} {result : Except Refusal Unit}
    (hr : result = if e.machine = none then .error .noMachine else .ok ()) :
    e.LoadEnd (f, result) := by
  subst hr
  by_cases hm : e.machine = none
  · rw [if_pos hm]
    exact .noMachine hm
  · rw [if_neg hm]
    exact .loaded hm

theorem loadEnd_loadFile (e : Engine α) (tree : Node) (path : String) :
    e.LoadEnd (e.loadFile tree path) := by
  cases hl : Rom.load tree path with
  | error reason =>
      rw [loadFile_of_error hl]
      exact .refused (onlyNotes_noteAll e _)
  | ok program => exact loadEnd_of_load (loadFile_of_load hl)

variable [Quantity α]

theorem result_runFile_of_load {e : Engine α} {tree : Node} {path : String} {program : List Byte}
    (hl : Rom.load tree path = .ok program) :
    (e.runFile tree path).2 = if e.machine = none then .error .noMachine else .ok () := by
  cases hm : e.machine with
  | none => exact runFile_of_noMachine hm hl
  | some m =>
      obtain ⟨f, hrun, -⟩ := runFile_of_load hm hl
      rw [hrun]
      rfl

theorem loadEnd_runFile (e : Engine α) (tree : Node) (path : String) :
    e.LoadEnd (e.runFile tree path) := by
  cases hl : Rom.load tree path with
  | error reason =>
      rw [runFile_of_error hl]
      exact .refused (onlyNotes_noteAll e _)
  | ok program => exact loadEnd_of_load (result_runFile_of_load hl)

/-- Whatever an engine is doing, a program or a file that is refused leaves it as it was, but for
notes in the journal; and as long as there is a machine, nothing else can go wrong. A program is
taken exactly if it has at least one byte, fits into memory, and holds bytes only; then these bytes
are in memory, the program counter is at the first of them, no fault is kept, and everything else
is as it was. What is read from a file is taken by every engine with a machine, so that a run is
never stopped in favour of a file that is then refused. -/
theorem load_all_or_nothing (e : Engine α) (tree : Node) (path : String) (program : List Int) :
    let calls := [e.init program, e.loadFile tree path, e.runFile tree path]
    (∀ call ∈ calls, ∀ reason, call.2 = .error (.load reason) → e.OnlyNotes call.1) ∧
      (e.machine ≠ none → ∀ call ∈ calls, ∀ why, call.2 = .error why →
        ∃ reason, why = .load reason) ∧
      ((e.init program).2 = .ok () ↔ e.machine ≠ none ∧ Memory.Accepts program) ∧
      (∀ m, e.machine = some m → (e.init program).2 = .ok () →
        ∃ k, e.Loaded m program (e.init program).1 k) ∧
      (∀ bytes, Rom.load tree path = .ok bytes →
        (∀ f : Engine α, f.machine ≠ none → (f.init (Byte.values bytes)).2 = .ok ()) ∧
          (e.machine ≠ none →
            (e.loadFile tree path).2 = .ok () ∧ (e.runFile tree path).2 = .ok ())) := by
  intro calls
  have hends : ∀ call ∈ calls, e.LoadEnd call := by
    intro call hcall
    rcases List.mem_cons.1 hcall with rfl | hcall
    · exact loadEnd_init e program
    · rcases List.mem_cons.1 hcall with rfl | hcall
      · exact loadEnd_loadFile e tree path
      · rcases List.mem_singleton.1 hcall with rfl
        exact loadEnd_runFile e tree path
  refine ⟨?_, ?_, init_ok_iff, ?_, ?_⟩
  · rintro call hcall reason hreason
    cases hends call hcall with
    | refused hnotes => exact hnotes
    | noMachine hm => cases hreason
    | loaded hm => cases hreason
  · rintro hsome call hcall why hwhy
    cases hends call hcall with
    | refused hnotes =>
        cases hwhy
        exact ⟨_, rfl⟩
    | noMachine hm => exact absurd hm hsome
    | loaded hm => cases hwhy
  · intro m hm hok
    obtain ⟨f, k, hi, hloaded⟩ := loaded_of_accepts hm (init_ok_iff.1 hok).2
    rw [hi]
    exact ⟨k, hloaded⟩
  · intro bytes hl
    refine ⟨fun f hsome => init_ok_iff.2 ⟨hsome, Rom.accepts_of_load hl⟩, fun hsome => ?_⟩
    rw [loadFile_of_load hl, result_runFile_of_load hl, if_neg hsome]
    exact ⟨rfl, rfl⟩

open Tracing.Off in
/-- A file without a byte, and a program with a number that is no byte, are refused while a run is
under way; the run goes on. A program that is then read from a file is loaded. -/
theorem load_all_or_nothing_while_running :
    ∃ new : Engine Number,
      create (.int 60) (.int 60) ⟨fun _ => 0, 0⟩ ⟨.ignore, none, none⟩ [[.int 1]] = .ok new ∧
      let e := ((new.init [0x6A, 0x01, 0x12, 0x02]).1.start .outside).settle
      let empty : Node := .directory [("b", .file ⟨[], none⟩)]
      e.isRunning = true ∧
        (e.runFile empty "b").2 = .error (.load (.empty (some "b"))) ∧
        e.OnlyNotes (e.runFile empty "b").1 ∧
        (e.init [0x12, 256]).2 = .error (.load (.notAByte 256)) ∧
        e.OnlyNotes (e.init [0x12, 256]).1 ∧
        (e.runFile loopFile "b").2 = .ok () := by
  refine ⟨_, rfl, ?_⟩
  intro e empty
  have hrunning : e.isRunning = true := by decide +kernel
  have hsome : e.machine ≠ none := by decide +kernel
  have hempty : Rom.load empty "b" = .error (.empty (some "b")) := by cbv
  have hrun : (e.runFile empty "b").2 = .error (.load (.empty (some "b"))) :=
    congrArg Prod.snd (runFile_of_error hempty)
  have hinit : (e.init [0x12, 256]).2 = .error (.load (.notAByte 256)) := by decide +kernel
  obtain ⟨hnotes, -⟩ := load_all_or_nothing e empty "b" [0x12, 256]
  obtain ⟨-, -, -, -, hfile⟩ := load_all_or_nothing e loopFile "b" [0x12, 256]
  exact ⟨hrunning, hrun, hnotes _ (by simp) _ hrun, hinit, hnotes _ (by simp) _ hinit,
    ((hfile _ load_loopFile).2 hsome).2⟩

end Engine

end Chip8
