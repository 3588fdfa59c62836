import Chip8.Proofs.Machine.Footprint

/-!
# Resets

A reset is compared with a new machine that has the same keypad and the same random source. The
two are equal in everything but memory, and in memory from the first program byte on. The bytes
below it are kept, so the machine is like new exactly if the past has left them alone
(`Machine.reset_eq_fresh_iff`). A program can write there; `Machine.reset_after` says when the
past makes a difference after a reset and when it does not.
-/

set_option autoImplicit false

namespace Chip8

namespace Machine

/-- A reset machine is a new one with another memory. -/
theorem reset_eq_withMemory (m : Machine) :
    m.reset = (fresh m.keypad m.random).withMemory m.reset.memory := rfl

/-- Behind the first program byte the memory of a reset machine is that of a new one. -/
theorem memory_reset_byte (m : Machine) (a : Nat) :
    m.reset.memory.byte a = if a < programStart then m.memory.byte a else Memory.fresh.byte a := by
  refine (Memory.byte_reset m.memory a).trans ?_
  by_cases ha : a < programStart
  · rw [if_pos ha, if_pos ha]
  · have hglyphs : 16 * glyphSize ≤ programStart := by decide
    rw [if_neg ha, if_neg ha, Memory.byte_fresh_of_le (by omega)]

/-- A reset makes a machine new exactly if the bytes that it keeps are those of a new one. -/
theorem reset_eq_fresh_iff (m : Machine) :
    m.reset = fresh m.keypad m.random ↔
      ∀ a, a < programStart → m.memory.byte a = Memory.fresh.byte a := by
  constructor
  · intro h a ha
    have hbyte := memory_reset_byte m a
    rw [if_pos ha, h] at hbyte
    exact hbyte.symm
  · intro h
    have hmemory : m.reset.memory = .fresh := by
      refine Memory.ext_byte fun a _ => (memory_reset_byte m a).trans ?_
      by_cases ha : a < programStart
      · rw [if_pos ha, h a ha]
      · rw [if_neg ha]
    rw [reset_eq_withMemory, hmemory]
    rfl

/-- A reset leaves nothing of a run but what it has written below the first program byte. The
machine is then equal to a new one in all else; it is equal altogether exactly if those bytes are
still what they were, as they are after a run that writes none of them; and whatever is done with
it afterwards goes as on a new machine, if no cycle reads a byte that differs. -/
theorem reset_after [Tracing] (keypad : Keypad) (random : RandomSource) {ops : List Operation}
    (ho : ∀ o ∈ ops, o.isOrdinary = true) :
    let m := (fresh keypad random).after ops
    let new := fresh m.keypad m.random
    m.reset = { new with memory := m.reset.memory } ∧
      (∀ a, m.reset.memory.byte a =
        if a < programStart then m.memory.byte a else new.memory.byte a) ∧
      (m.reset = new ↔ ∀ a, a < programStart → m.memory.byte a = new.memory.byte a) ∧
      ((fresh keypad random).EachCycle (fun t => ∀ a, t.Writes a → programStart ≤ a) ops →
        m.reset = new) ∧
      ∀ more : List Operation, (∀ o ∈ more, o.isOrdinary = true) →
        new.EachCycle
          (fun t => ∀ a, t.Reads a → m.reset.memory.byte a = new.memory.byte a) more →
        m.reset.transcript more = new.transcript more ∧
          ∃ memory, m.reset.after more = { new.after more with memory } ∧
            ∀ a, m.reset.memory.byte a = new.memory.byte a →
              memory.byte a = (new.after more).memory.byte a := by
  intro m new
  refine ⟨rfl, memory_reset_byte m, reset_eq_fresh_iff m, ?_, ?_⟩
  · intro hwrites
    refine (reset_eq_fresh_iff m).2 fun a ha => ?_
    exact memory_after_of_not_writes (inRange_fresh keypad random) ho hwrites ha
  · intro more hmore hreads
    -- the set of agreement is that of the bytes in which the two memories agree at the start
    obtain ⟨htranscript, k, hk, hafter⟩ := after_withMemory (k := m.reset.memory)
      (inRange_fresh m.keypad m.random) hmore (fun a ha => ha) hreads
    exact ⟨htranscript, k, hafter, hk⟩

open Tracing.Off in
/-- A program that stores a register behind the glyphs leaves no trace after a reset. One that
stores it over the glyphs leaves a trace, which a program that takes nothing from there does not
see. -/
theorem reset_after_store :
    let start := fresh .idle ⟨fun _ => 0, 0⟩
    let clean := start.after [.init [0xA3, 0x00, 0xF0, 0x55], .step, .step]
    let spoilt := start.after [.init [0xA0, 0x00, 0xF0, 0x55], .step, .step]
    let loader := [Operation.init [0x60, 0x07], .step]
    clean.reset = fresh clean.keypad clean.random ∧
      spoilt.reset.transcript loader = (fresh spoilt.keypad spoilt.random).transcript loader := by
  intro start clean spoilt loader
  constructor
  · obtain ⟨-, -, -, hclean, -⟩ := @reset_after _ .idle ⟨fun _ => 0, 0⟩
      [.init [0xA3, 0x00, 0xF0, 0x55], .step, .step] (by decide)
    let second := ((start.perform (.init [0xA3, 0x00, 0xF0, 0x55])).machine.perform .step).machine
    have hindex : programStart ≤ second.index := by decide +kernel
    -- the first cycle sets the index and writes nothing; the second writes from the index on
    refine hclean (And.intro nofun (And.intro (fun _ _ a ha => ?_)
      (And.intro (fun _ _ a ha => ?_) trivial)))
    · cases ha with
      | decimal _ hw _ _ => exact absurd hw (by decide +kernel)
      | registers _ hw _ _ => exact absurd hw (by decide +kernel)
    · cases ha with
      | decimal _ _ _ ha => exact Int.ofNat_le.1 (Int.le_trans hindex ha.1)
      | registers _ _ _ ha => exact Int.ofNat_le.1 (Int.le_trans hindex ha.1)
  · obtain ⟨-, hkept, -, -, hsame⟩ := @reset_after _ .idle ⟨fun _ => 0, 0⟩
      [.init [0xA0, 0x00, 0xF0, 0x55], .step, .step] (by decide)
    have hpc : ((fresh spoilt.keypad spoilt.random).after [.init [0x60, 0x07]]).pc =
        programStart := by
      decide +kernel
    refine (hsame loader (by decide) (And.intro nofun (And.intro (fun _ _ a ha => ?_) trivial))).1
    have hle : programStart ≤ a := by
      cases ha with
      | word _ ha => exact Int.ofNat_le.1 (hpc ▸ ha.1)
      | sprite _ hw _ => exact absurd hw (by decide +kernel)
      | registers _ hw _ _ => exact absurd hw (by decide +kernel)
    rw [hkept, if_neg (Nat.not_lt.2 hle)]

open Tracing.Off in
/-- A reset does not always give a new machine: a program has stored a zero over the first byte of
the glyphs, and a program that is loaded after the reset finds it there. -/
theorem reset_ne_fresh_of_store :
    let m := (fresh .idle ⟨fun _ => 0, 0⟩).after [.init [0xA0, 0x00, 0xF0, 0x55], .step, .step]
    let new := fresh m.keypad m.random
    let loader := [Operation.init [0xF0, 0x65], .step]
    m.Reachable ∧ m.reset ≠ new ∧
      (m.reset.after loader).value 0 = 0x00 ∧ (new.after loader).value 0 = 0xF0 := by
  intro m new loader
  have hbyte : m.memory.byte 0 ≠ Memory.fresh.byte 0 := by decide +kernel
  refine ⟨(Reachable.fresh _ _).after (by decide), fun h => ?_, ?_, ?_⟩
  · exact hbyte ((reset_eq_fresh_iff m).1 h 0 (by decide))
  · decide +kernel
  · decide +kernel

end Machine

end Chip8
