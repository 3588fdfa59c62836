import Chip8.Proofs.Memory.Block
import Chip8.Machine.Basic
import Chip8.Rom

/-!
# Programs

Which programs are loaded, and what loading leaves. A program that comes from a file has passed
the same checks as one that is given byte by byte, so that the machine takes it.
-/

set_option autoImplicit false

namespace Chip8

namespace Byte

/-- A list of bytes is known by its values. -/
theorem ofNat_values (bytes : List Byte) :
    ((values bytes).map fun z => UInt8.ofNat z.toNat) = bytes := by
  rw [values, List.map_map]
  refine (List.map_congr_left fun b _ => ?_).trans (List.map_id bytes)
  exact UInt8.ofNat_toNat

theorem isValue_of_mem_values {bytes : List Byte} {z : Int} (hz : z ∈ values bytes) :
    IsValue z := by
  obtain ⟨b, -, rfl⟩ := List.mem_map.1 hz
  exact isValue_toNat b

end Byte

/-- Programs that a machine takes: there is at least one byte and not too many. -/
structure Memory.Accepts (program : List Int) : Prop where
  nonempty : program ≠ []
  fits : program.length ≤ programLimit
  bytes : ∀ z ∈ program, Byte.IsValue z

instance (program : List Int) : Decidable (Memory.Accepts program) :=
  decidable_of_iff
    (program ≠ [] ∧ program.length ≤ programLimit ∧ ∀ z ∈ program, 0 ≤ z ∧ z < 256)
    ⟨fun ⟨hnonempty, hfits, hbytes⟩ => ⟨hnonempty, hfits, hbytes⟩,
      fun ⟨hnonempty, hfits, hbytes⟩ => ⟨hnonempty, hfits, hbytes⟩⟩

theorem Memory.load_of_accepts (m : Memory) {program : List Int} (h : Accepts program) :
    m.load program = .ok (m.poke programStart (program.map fun z => UInt8.ofNat z.toNat)) := by
  rw [load, if_neg (mt List.isEmpty_iff.1 h.nonempty), if_neg (Nat.not_lt.2 h.fits),
    Byte.ofInts_of_isValue h.bytes]

theorem Memory.accepts_of_load {m k : Memory} {program : List Int} (h : m.load program = .ok k) :
    Accepts program := by
  unfold load at h
  by_cases hempty : program.isEmpty = true
  · rw [if_pos hempty] at h
    cases h
  · rw [if_neg hempty] at h
    by_cases hlarge : programLimit < program.length
    · rw [if_pos hlarge] at h
      cases h
    · rw [if_neg hlarge] at h
      cases hbytes : Byte.ofInts program with
      | error z =>
          rw [hbytes] at h
          cases h
      | ok bytes =>
          exact ⟨mt List.isEmpty_iff.2 hempty, Nat.not_lt.1 hlarge, Byte.isValue_of_ofInts hbytes⟩

/-- The machine with a program in its memory and the program counter at its first byte. -/
def Machine.withProgram (m : Machine) (program : List Byte) : Machine :=
  { m with memory := m.memory.poke programStart program, pc := programStart }

theorem Machine.init_of_accepts (m : Machine) {program : List Int}
    (h : Memory.Accepts program) :
    m.init program = .ok (m.withProgram (program.map fun z => UInt8.ofNat z.toNat)) := by
  rw [init, m.memory.load_of_accepts h]
  rfl

theorem Machine.accepts_of_init {m m' : Machine} {program : List Int}
    (h : m.init program = .ok m') : Memory.Accepts program := by
  rw [init] at h
  cases hl : m.memory.load program with
  | error reason =>
      rw [hl] at h
      cases h
  | ok k => exact Memory.accepts_of_load hl

/-- The contents of a file that pass the check are a program. -/
theorem Rom.accepts_of_check {path : String} {f : StoredFile} {bytes : List Byte}
    (h : check path f = .ok bytes) : Memory.Accepts (Byte.values bytes) := by
  unfold check at h
  by_cases htruncated : f.bytes.length < f.size
  · rw [if_pos htruncated] at h
    cases h
  · rw [if_neg htruncated] at h
    by_cases hempty : f.bytes.isEmpty = true
    · rw [if_pos hempty] at h
      cases h
    · rw [if_neg hempty] at h
      by_cases hlarge : programLimit < f.bytes.length
      · rw [if_pos hlarge] at h
        cases h
      · rw [if_neg hlarge] at h
        cases h
        refine ⟨fun hnil => hempty ?_, ?_, fun z => Byte.isValue_of_mem_values⟩
        · exact List.isEmpty_iff.2 (List.map_eq_nil_iff.1 hnil)
        · rw [Byte.values, List.length_map]
          exact Nat.not_lt.1 hlarge

/-- A machine takes every program that was read from a file. -/
theorem Rom.accepts_of_load {tree : Node} {path : String} {bytes : List Byte}
    (h : load tree path = .ok bytes) : Memory.Accepts (Byte.values bytes) := by
  unfold load at h
  by_cases hpath : path.contains '\x00' = true
  · rw [if_pos hpath] at h
    cases h
  · rw [if_neg hpath] at h
    cases hread : Path.read tree path with
    | error reason =>
        rw [hread] at h
        cases h
    | ok contents =>
        rw [hread] at h
        exact accepts_of_check h

theorem Machine.init_of_load (m : Machine) {tree : Node} {path : String} {bytes : List Byte}
    (h : Rom.load tree path = .ok bytes) :
    m.init (Byte.values bytes) = .ok (m.withProgram bytes) := by
  rw [m.init_of_accepts (Rom.accepts_of_load h), Byte.ofNat_values]

end Chip8
