import Chip8.Engine.Command
import Chip8.Number.Basic
import Chip8.Proofs.Engine.Ledger
import Chip8.Proofs.Machine.Footprint
import Chip8.Proofs.Memory.Program
import Mathlib

/-!
# Loading and starting a program

`Engine.runFile` loads the program behind a path and starts it. If a run is under way, the machine
is reset first, and the new program finds what it would find on a new engine, except for the
keypad, the random source and the bytes below the first program byte. If no run is under way the
machine is not reset: the program is put over what is there. `Engine.runFile_loads` says so for
every state of an engine; `Engine.runFile_ne_fresh_of_ended` is a program that finds a register of
the one before it.
-/

set_option autoImplicit false

namespace Chip8

/-! ## Programs on a machine that was reset -/

/-- A memory that is zero from the first program byte on holds a program there, and then zeros. -/
theorem Memory.byte_poke_program {memory : Memory}
    (hzero : ∀ a, programStart ≤ a → memory.byte a = 0) (program : List Byte) {a : Nat}
    (ha : programStart ≤ a) (hlt : a < memorySize) :
    (memory.poke programStart program).byte a = program[a - programStart]?.getD 0 := by
  rw [byte_poke]
  by_cases hin : a < programStart + program.length
  · rw [if_pos ⟨ha, hin, hlt⟩]
  · rw [if_neg fun h => hin h.2.1, hzero a ha, List.getElem?_eq_none (by omega)]
    rfl

namespace Machine

theorem inRange_fresh_withProgram (keypad : Keypad) (random : RandomSource)
    (program : List Byte) : ((fresh keypad random).withProgram program).InRange := by
  have hstart : (programStart : Int) = 512 := rfl
  exact ((inRange_fresh keypad random).setMemory _).setPc ⟨by omega, by omega⟩

theorem byte_reset_withProgram (m : Machine) (program : List Byte) {a : Nat}
    (ha : programStart ≤ a) (hlt : a < memorySize) :
    (m.reset.withProgram program).memory.byte a = program[a - programStart]?.getD 0 := by
  refine Memory.byte_poke_program (fun b hb => ?_) program ha hlt
  exact (Memory.byte_reset m.memory b).trans (if_neg (Nat.not_lt.2 hb))

theorem byte_fresh_withProgram (keypad : Keypad) (random : RandomSource) (program : List Byte)
    {a : Nat} (ha : programStart ≤ a) (hlt : a < memorySize) :
    ((fresh keypad random).withProgram program).memory.byte a =
      program[a - programStart]?.getD 0 := by
  have hglyphs : 16 * glyphSize ≤ programStart := by decide
  exact Memory.byte_poke_program (fun b hb => Memory.byte_fresh_of_le (by omega)) program ha hlt

/-- A program on a machine that was reset finds what it finds on a new one, except below the first
program byte, where the old bytes are. -/
theorem memory_reset_withProgram (m : Machine) (program : List Byte) (a : Nat) :
    (m.reset.withProgram program).memory.byte a =
      if a < programStart then m.memory.byte a
      else ((fresh m.keypad m.random).withProgram program).memory.byte a := by
  by_cases ha : a < programStart
  · rw [if_pos ha]
    refine (Memory.byte_poke ..).trans ((if_neg (by omega)).trans ?_)
    exact (Memory.byte_reset m.memory a).trans (if_pos ha)
  · rw [if_neg ha]
    by_cases hlt : a < memorySize
    · rw [byte_reset_withProgram m program (Nat.not_lt.1 ha) hlt,
        byte_fresh_withProgram m.keypad m.random program (Nat.not_lt.1 ha) hlt]
    · rw [Memory.byte_of_le _ (Nat.not_lt.1 hlt), Memory.byte_of_le _ (Nat.not_lt.1 hlt)]

variable [Tracing]

/-- Whatever is done with a program on a machine that was reset goes as on a new machine, if no
cycle reads a byte that differs. -/
theorem after_reset_withProgram (m : Machine) (program : List Byte) {more : List Operation}
    (hmore : ∀ o ∈ more, o.isOrdinary = true) :
    let old := m.reset.withProgram program
    let same := (fresh m.keypad m.random).withProgram program
    same.EachCycle (fun t => ∀ a, t.Reads a → old.memory.byte a = same.memory.byte a) more →
      old.transcript more = same.transcript more ∧
        ∃ memory, old.after more = { same.after more with memory } ∧
          ∀ a, old.memory.byte a = same.memory.byte a →
            memory.byte a = (same.after more).memory.byte a := by
  intro old same hreads
  obtain ⟨htranscript, k, hk, hafter⟩ := after_withMemory (k := old.memory)
    (inRange_fresh_withProgram m.keypad m.random program) hmore (fun a ha => ha) hreads
  exact ⟨htranscript, k, hafter, hk⟩

end Machine

/-! ## Programs from files -/

namespace Engine

variable {α : Type}

@[simp] theorem isRunning_noteAll (e : Engine α) (entries : List Entry) :
    (e.noteAll entries).isRunning = e.isRunning := by
  induction entries generalizing e with
  | nil => rfl
  | cons entry rest ih => exact ih (e.note entry)

theorem init_of_noMachine {e : Engine α} (hm : e.machine = none) (program : List Int) :
    e.init program = (e, .error .noMachine) := by
  rw [init, hm]

variable [Quantity α]

theorem reset_of_noMachine {e : Engine α} (hm : e.machine = none) :
    e.reset = (e, .error .noMachine) := by
  rw [reset, hm]

/-- A program that was read is put on the machine, and a new run is started. -/
theorem start_of_load {e : Engine α} {m : Machine} (hm : e.machine = some m) {tree : Node}
    {path : String} {program : List Byte} (hl : Rom.load tree path = .ok program) :
    ∃ f, e.init (Byte.values program) = (f, .ok ()) ∧ (f.start .outside).ledger = { e.ledger with
      machine := some (m.withProgram program), fault := none, budget := Quantity.zero
      generation := e.generation + 1, stopRequested := false } := by
  obtain ⟨f, hinit, hf⟩ := init_of_machine hm (m.init_of_load hl)
  have hgeneration : f.generation = e.generation := congrArg Ledger.generation hf
  refine ⟨f, hinit, ?_⟩
  rw [ledger_start, hf, hgeneration]

/-- A program file that can be read is put on the machine, which is reset before if a run is under
way, and a new run is started. -/
theorem runFile_of_load {e : Engine α} {m : Machine} (hm : e.machine = some m) {tree : Node}
    {path : String} {program : List Byte} (hl : Rom.load tree path = .ok program) :
    let base := if e.isRunning then m.reset else m
    ∃ f, e.runFile tree path = (f, .ok ()) ∧ f.ledger = { e.ledger with
      machine := some (base.withProgram program), fault := none, budget := Quantity.zero
      generation := e.generation + 1, stopRequested := false } := by
  have hnoted := ledger_noteAll e (Rom.entries path (.ok program))
  have hrunning := isRunning_noteAll e (Rom.entries path (.ok program))
  unfold runFile readProgram
  rw [hl]
  dsimp only
  generalize e.noteAll (Rom.entries path (.ok program)) = read at hnoted hrunning ⊢
  have hread : read.machine = some m := (congrArg Ledger.machine hnoted).trans hm
  have hgeneration : read.generation = e.generation := congrArg Ledger.generation hnoted
  rw [hrunning]
  by_cases hr : e.isRunning = true
  · -- stop, reset, load and start, each of which the ledger describes
    rw [if_pos hr, if_pos hr]
    have hstop := ledger_stop read .outside
    obtain ⟨wiped, hreset, hwiped⟩ :=
      reset_of_machine ((congrArg Ledger.machine hstop).trans hread)
    obtain ⟨f, hinit, hf⟩ := start_of_load (congrArg Ledger.machine hwiped) hl
    have hw : wiped.generation = e.generation :=
      (congrArg Ledger.generation hwiped).trans
        ((congrArg Ledger.generation hstop).trans hgeneration)
    simp only [hreset, hinit]
    refine ⟨_, rfl, ?_⟩
    rw [hf, hw, hwiped, hstop, hnoted]
  · rw [if_neg hr, if_neg hr]
    obtain ⟨f, hinit, hf⟩ := start_of_load hread hl
    simp only [hinit]
    refine ⟨_, rfl, ?_⟩
    rw [hf, hgeneration, hnoted]

/-- Without a machine no program is run. -/
theorem runFile_of_noMachine {e : Engine α} (hm : e.machine = none) {tree : Node} {path : String}
    {program : List Byte} (hl : Rom.load tree path = .ok program) :
    (e.runFile tree path).2 = .error .noMachine := by
  have hnoted := ledger_noteAll e (Rom.entries path (.ok program))
  unfold runFile readProgram
  rw [hl]
  dsimp only
  generalize e.noteAll (Rom.entries path (.ok program)) = read at hnoted ⊢
  have hread : read.machine = none := (congrArg Ledger.machine hnoted).trans hm
  have hstopped : (read.stop .outside).machine = none :=
    (congrArg Ledger.machine (ledger_stop read .outside)).trans hread
  by_cases hr : read.isRunning = true
  · simp only [if_pos hr, reset_of_noMachine hstopped]
  · simp only [if_neg hr, init_of_noMachine hread]

/-- A program is run from a file only if there is a machine and the file can be read. -/
theorem load_of_runFile {e : Engine α} {tree : Node} {path : String}
    (h : (e.runFile tree path).2 = .ok ()) :
    ∃ m program, e.machine = some m ∧ Rom.load tree path = .ok program := by
  cases hl : Rom.load tree path with
  | error reason =>
      rw [runFile_of_error hl] at h
      cases h
  | ok program =>
      cases hm : e.machine with
      | none =>
          rw [runFile_of_noMachine hm hl] at h
          cases h
      | some m => exact ⟨m, program, rfl, rfl⟩

/-- A new engine that has just loaded a program has a new machine with the program in its memory. -/
theorem loadFile_of_create {rate timerRate : α} {random : RandomSource} {policy : Policy}
    {schedule : List (List α)} {new : Engine α}
    (hc : create rate timerRate random policy schedule = .ok new) {tree : Node} {path : String}
    {program : List Byte} (hl : Rom.load tree path = .ok program) :
    ∃ loaded, new.loadFile tree path = (loaded, .ok ()) ∧
      loaded.machine = some ((Machine.fresh .idle random).withProgram program) := by
  have hm : new.machine = some (.fresh .idle random) := by
    unfold create at hc
    split at hc
    · cases hc
    · cases hc
      rfl
  have hnoted := ledger_noteAll new (Rom.entries path (.ok program))
  rw [loadFile_eq_init hl]
  obtain ⟨loaded, hinit, hf⟩ := init_of_machine ((congrArg Ledger.machine hnoted).trans hm)
    ((Machine.fresh .idle random).init_of_load hl)
  exact ⟨loaded, hinit, congrArg Ledger.machine hf⟩

/-- A program that was run from a file is in memory, the program counter is at its first byte, no
fault is kept, and the account is empty. If a run was under way, the machine has been reset: it is
that of any new engine that has just loaded the program, but for the keypad, the random source and
the bytes below the first program byte, which are as before. What is then done with it goes as on
the new machine, as long as no cycle reads one of these bytes that differs. If no run was under
way, nothing else has changed: registers, stack, timers, a wait for a key, the display and the
memory behind the program are as the last program left them. -/
theorem runFile_loads [Tracing] {e : Engine α} {tree : Node} {path : String}
    (h : (e.runFile tree path).2 = .ok ()) :
    let after := (e.runFile tree path).1
    ∃ m program m', e.machine = some m ∧ Rom.load tree path = .ok program ∧
      after.machine = some m' ∧ after.fault = none ∧ after.budget = Quantity.zero ∧
      m'.pc = programStart ∧
      (e.isRunning = true →
        (∀ a, programStart ≤ a → a < memorySize →
          m'.memory.byte a = program[a - programStart]?.getD 0) ∧
        ∀ rate timerRate random policy schedule (new : Engine α),
          create rate timerRate random policy schedule = .ok new →
          ∃ loaded n, new.loadFile tree path = (loaded, .ok ()) ∧ loaded.machine = some n ∧
            let same := { n with keypad := m.keypad, random := m.random }
            m' = { same with memory := m'.memory } ∧
            (∀ a, m'.memory.byte a =
              if a < programStart then m.memory.byte a else same.memory.byte a) ∧
            ∀ more : List Operation, (∀ o ∈ more, o.isOrdinary = true) →
              same.EachCycle
                (fun t => ∀ a, t.Reads a → m'.memory.byte a = same.memory.byte a) more →
              m'.transcript more = same.transcript more ∧
                ∃ memory, m'.after more = { same.after more with memory } ∧
                  ∀ a, m'.memory.byte a = same.memory.byte a →
                    memory.byte a = (same.after more).memory.byte a) ∧
      (e.isRunning = false →
        m' = { m with memory := m.memory.poke programStart program, pc := programStart }) := by
  intro after
  obtain ⟨m, program, hm, hl⟩ := load_of_runFile h
  obtain ⟨f, hrun, hf⟩ := runFile_of_load hm hl
  have hafter : after = f := congrArg Prod.fst hrun
  rw [hafter]
  refine ⟨m, program, _, hm, hl, congrArg Ledger.machine hf, congrArg Ledger.fault hf,
    congrArg Ledger.budget hf, rfl, fun hr => ?_, fun hr => by rw [hr]; rfl⟩
  rw [if_pos hr]
  refine ⟨fun a => m.byte_reset_withProgram program, ?_⟩
  intro rate timerRate random policy schedule new hc
  obtain ⟨loaded, hload, hn⟩ := loadFile_of_create hc hl
  exact ⟨loaded, _, hload, hn, rfl, m.memory_reset_withProgram program,
    fun more hmore => m.after_reset_withProgram program hmore⟩

/-- A directory with a program that jumps to itself. -/
def loopFile : Node :=
  .directory [("b", .file ⟨[0x12, 0x00], none⟩)]

theorem load_loopFile : Rom.load loopFile "b" = .ok [0x12, 0x00] := by
  cbv

open Tracing.Off in
/-- A run sets a register and goes on. The program that is then run from a file finds the register
as on a new engine. -/
theorem runFile_loads_while_running :
    ∃ new : Engine Number,
      create (.int 60) (.int 60) ⟨fun _ => 0, 0⟩ ⟨.ignore, none, none⟩ [[.int 1]] = .ok new ∧
      let e := ((new.init [0x6A, 0x01, 0x12, 0x02]).1.start .outside).settle
      let after := e.runFile loopFile "b"
      let loaded := new.loadFile loopFile "b"
      e.isRunning = true ∧ e.machine.map (·.value 10) = some 1 ∧
        after.2 = .ok () ∧ loaded.2 = .ok () ∧
        after.1.machine.map (·.value 10) = loaded.1.machine.map (·.value 10) := by
  refine ⟨_, rfl, ?_⟩
  intro e after loaded
  have hrunning : e.isRunning = true := by decide +kernel
  have hvalue : e.machine.map (·.value 10) = some 1 := by decide +kernel
  obtain ⟨m, hm, -⟩ := Option.map_eq_some_iff.1 hvalue
  obtain ⟨f, hf, -⟩ := runFile_of_load hm load_loopFile
  have hok : after.2 = .ok () := congrArg Prod.snd hf
  obtain ⟨_, _, m', -, -, hafter, -, -, -, hclean, -⟩ := runFile_loads hok
  obtain ⟨l, n, hload, hn, hsame, -⟩ := (hclean hrunning).2 (.int 60) (.int 60)
    ⟨fun _ => 0, 0⟩ ⟨.ignore, none, none⟩ [[.int 1]] _ rfl
  refine ⟨hrunning, hvalue, hok, congrArg Prod.snd hload, ?_⟩
  have hl : loaded.1.machine = some n := (congrArg (·.1.machine) hload).trans hn
  rw [hafter, hl, hsame]
  rfl

open Tracing.Off in
/-- A program has set a register and ended with a fault. The program that is then run from a file
finds the register set; on a new engine that has just loaded it, it is zero. -/
theorem runFile_ne_fresh_of_ended :
    ∃ new : Engine Number,
      create (.int 60) (.int 60) ⟨fun _ => 0, 0⟩ ⟨.ignore, none, none⟩ [[.int 1]] = .ok new ∧
      let ended := ((new.init [0x6A, 0x01, 0x00, 0xEE]).1.start .outside).settle
      let after := ended.runFile loopFile "b"
      let loaded := new.loadFile loopFile "b"
      ended.fault = some (.stackUnderflow 0x202) ∧ after.2 = .ok () ∧ loaded.2 = .ok () ∧
        after.1.machine.map (·.value 10) = some 1 ∧
        loaded.1.machine.map (·.value 10) = some 0 := by
  refine ⟨_, rfl, ?_⟩
  intro ended after loaded
  have hended : ended.isRunning = false := by decide +kernel
  have hvalue : ended.machine.map (·.value 10) = some 1 := by decide +kernel
  obtain ⟨m, hm, hset⟩ := Option.map_eq_some_iff.1 hvalue
  obtain ⟨f, hf, hledger⟩ := runFile_of_load hm load_loopFile
  obtain ⟨l, hl, hfresh⟩ := @loadFile_of_create Number _ (.int 60) (.int 60) ⟨fun _ => 0, 0⟩
    ⟨.ignore, none, none⟩ [[.int 1]] _ rfl _ _ _ load_loopFile
  have hafter : after.1.machine = some (m.withProgram [0x12, 0x00]) := by
    rw [hended] at hledger
    exact (congrArg (·.1.machine) hf).trans (congrArg Ledger.machine hledger)
  refine ⟨by decide +kernel, congrArg Prod.snd hf, congrArg Prod.snd hl, ?_, ?_⟩
  · rw [hafter]
    exact congrArg some hset
  · refine (congrArg (·.1.machine.map (·.value 10)) hl).trans ?_
    rw [hfresh]
    rfl

end Engine

end Chip8
