import Chip8.Proofs.Machine.History
import Chip8.Proofs.Memory.Program
import Mathlib.Data.List.Induction

/-!
# Memory as storage

What memory gives back, told from the calls alone. A call that is carried out replaces a block of
the bytes by as many others (`Operation.deposit?`), so that their number never changes, and an
address holds the byte that was last put there (`contents`). Which calls are carried out depends
on their addresses and values only (`Machine.perform_of_not_fits`, `Machine.perform_of_misfit`,
`Machine.perform_of_fits`). `Machine.memory_after_calls` puts this together for every list of calls.
-/

set_option autoImplicit false

namespace Chip8

/-- The addresses from `a` up to `a + count` lie in memory. -/
def Memory.Fits (a count : Int) : Prop :=
  0 ≤ a ∧ a + count ≤ memorySize

instance (a count : Int) : Decidable (Memory.Fits a count) :=
  inferInstanceAs (Decidable (_ ∧ _))

theorem Byte.exists_not_isValue {values : List Int} (h : ¬ ∀ z ∈ values, IsValue z) :
    ∃ z ∈ values, ¬ IsValue z := by
  simpa only [Classical.not_forall, exists_prop] using h

/-- A list with some of its entries replaced, from a position on. Behind the end of the list it
grows. -/
def splice {β : Type} (entries : List β) (start : Nat) (others : List β) : List β :=
  entries.take start ++ others ++ entries.drop (start + others.length)

/-! ## Calls -/

namespace Operation

/-- The operations that a memory has itself. -/
def isMemoryCall : Operation → Bool
  | load _ | wipe | read _ | write _ _ | writeBlock _ _ => true
  | readBlock _ count => 0 ≤ count
  | _ => false

/-- The block of addresses that an access names, by its first address and its length. -/
def block? : Operation → Option (Int × Int)
  | read a | write a _ => some (a, 1)
  | readBlock a count => some (a, count)
  | writeBlock a values => some (a, values.length)
  | _ => none

/-- The values that have to be bytes for an access to be carried out. -/
def strictValues : Operation → List Int
  | writeBlock _ values => values
  | _ => []

/-- What a call puts in place: the address of the first byte, and the bytes. A call that is refused
puts nothing in place. -/
def deposit? : Operation → Option (Nat × List Byte)
  | load program =>
    if Memory.Accepts program then
      some (programStart, program.map fun z => UInt8.ofNat z.toNat)
    else none
  | wipe => some (programStart, List.replicate programLimit 0)
  | write a value =>
    if Memory.Fits a 1 then some (a.toNat, [UInt8.ofNat (value % 256).toNat]) else none
  | writeBlock a values =>
    if Memory.Fits a values.length ∧ ∀ z ∈ values, Byte.IsValue z then
      some (a.toNat, values.map fun z => UInt8.ofNat z.toNat)
    else none
  | _ => none

/-- The byte that a call puts at an address. -/
def written? (o : Operation) (a : Nat) : Option Byte :=
  o.deposit?.bind fun (start, bytes) => if start ≤ a then bytes[a - start]? else none

/-- What a call answers if it is carried out. -/
def answer (byte : Nat → Byte) : Operation → Reply
  | read a => .number (byte a.toNat).toNat
  | readBlock a count => .bytes ((List.range' a.toNat count.toNat).map byte)
  | _ => .done

end Operation

/-- The byte that a list of calls has last put at an address. -/
def lastWritten? (ops : List Operation) (a : Nat) : Option Byte :=
  ops.reverse.findSome? fun o => o.written? a

/-- The byte at an address of a memory that was new before a list of calls: the one that was last
put there, or a byte of the glyphs, or zero. -/
def contents (ops : List Operation) (a : Nat) : Byte :=
  (lastWritten? ops a).getD (glyphs[a]?.getD 0)

namespace Memory

/-- The memory with what a call puts in place. -/
def deposit (m : Memory) (o : Operation) : Memory :=
  match o.deposit? with
  | none => m
  | some (start, bytes) => m.poke start bytes

/-! ## Bytes in place -/

theorem byte_fresh {a : Nat} (ha : a < memorySize) : fresh.byte a = glyphs[a]?.getD 0 := by
  by_cases h : a < glyphs.length
  · rw [byte_of_lt _ ha, List.getElem?_eq_getElem h]
    exact List.getElem_append_left h
  · have hbehind : glyphs.length ≤ a := Nat.not_lt.1 h
    rw [byte_fresh_of_le (by rwa [← length_glyphs]), List.getElem?_eq_none hbehind]
    rfl

theorem getElem?_toList (m : Memory) {a : Nat} (ha : a < memorySize) :
    m.bytes.toList[a]? = some (m.byte a) := by
  rw [Vector.getElem?_toList, Vector.getElem?_eq_getElem ha, byte_of_lt m ha]

/-- A block that lies in memory replaces as many bytes. -/
theorem toList_poke (m : Memory) {start : Nat} {bytes : List Byte}
    (h : start + bytes.length ≤ memorySize) :
    (m.poke start bytes).bytes.toList = splice m.bytes.toList start bytes := by
  have hlength : (splice m.bytes.toList start bytes).length = memorySize := by
    simp only [splice, List.length_append, List.length_take, List.length_drop, Vector.length_toList]
    omega
  refine List.ext_getElem? fun a => ?_
  by_cases ha : a < memorySize
  · rw [getElem?_toList _ ha, byte_poke, splice]
    by_cases hbefore : a < start
    · rw [if_neg (by omega), List.append_assoc, List.getElem?_append_left (by simp; omega),
        List.getElem?_take_of_lt hbefore, getElem?_toList m ha]
    · have htake : (m.bytes.toList.take start).length = start := by
        simp only [List.length_take, Vector.length_toList]
        omega
      rw [List.append_assoc, List.getElem?_append_right (by omega), htake]
      by_cases hin : a < start + bytes.length
      · rw [if_pos (by omega), List.getElem?_append_left (by omega),
          List.getElem?_eq_getElem (by omega)]
        rfl
      · rw [if_neg (by omega), List.getElem?_append_right (by omega), List.getElem?_drop,
          show start + bytes.length + (a - start - bytes.length) = a by omega,
          getElem?_toList m ha]
  · rw [List.getElem?_eq_none (by rw [Vector.length_toList]; omega),
      List.getElem?_eq_none (by omega)]

/-- What a call puts in place lies in memory. -/
theorem deposit_fits {o : Operation} {start : Nat} {bytes : List Byte}
    (h : o.deposit? = some (start, bytes)) : start + bytes.length ≤ memorySize := by
  cases o with
  | load program =>
      obtain ⟨haccepts, heq⟩ := Option.ite_none_right_eq_some.1 h
      cases heq
      have hsize : programStart + programLimit = memorySize := rfl
      rw [List.length_map, ← hsize]
      exact Nat.add_le_add_left haccepts.fits programStart
  | wipe =>
      cases h
      rw [List.length_replicate]
      decide
  | write a value =>
      obtain ⟨⟨h0, hfits⟩, heq⟩ := Option.ite_none_right_eq_some.1 h
      cases heq
      rw [List.length_singleton]
      omega
  | writeBlock a values =>
      obtain ⟨⟨⟨h0, hfits⟩, -⟩, heq⟩ := Option.ite_none_right_eq_some.1 h
      cases heq
      rw [List.length_map]
      omega
  | _ => cases h

/-- An address holds what a call has put there, or what it held before. -/
theorem byte_deposit (m : Memory) (o : Operation) {a : Nat} (ha : a < memorySize) :
    (m.deposit o).byte a = (o.written? a).getD (m.byte a) := by
  unfold deposit Operation.written?
  cases o.deposit? with
  | none => rfl
  | some found =>
      obtain ⟨start, bytes⟩ := found
      show (m.poke start bytes).byte a =
        (if start ≤ a then bytes[a - start]? else none).getD (m.byte a)
      rw [byte_poke]
      by_cases hstart : start ≤ a
      · rw [if_pos hstart]
        by_cases hin : a < start + bytes.length
        · rw [if_pos ⟨hstart, hin, ha⟩, List.getElem?_eq_getElem (by omega)]
          rfl
        · rw [if_neg (by omega), List.getElem?_eq_none (by omega)]
          rfl
      · rw [if_neg (by omega), if_neg hstart]
        rfl

/-- A reset puts zeros in place of everything from the first byte of a program on. -/
theorem reset_eq_deposit (m : Memory) : m.reset = m.deposit .wipe := by
  refine ext_byte fun a ha => ?_
  rw [byte_reset, byte_deposit m .wipe ha]
  show _ = (if programStart ≤ a then (List.replicate programLimit (0 : Byte))[a - programStart]?
    else none).getD (m.byte a)
  by_cases hstart : programStart ≤ a
  · have hlimit : a - programStart < programLimit := by
      show a - programStart < memorySize - programStart
      omega
    rw [if_neg (by omega), if_pos hstart, List.getElem?_replicate, if_pos hlimit]
    rfl
  · rw [if_pos (by omega), if_neg hstart]
    rfl

/-! ## Accesses -/

/-- A block that does not lie in memory is refused. -/
theorem check_of_not_fits {a count : Int} (h : ¬ Fits a count) :
    ∃ z, check a count = .error (.fault (.outOfRange .data z)) := by
  by_cases ha : a < 0
  · exact ⟨a, if_pos ha⟩
  · have hover : (memorySize : Int) < a + count := by
      unfold Fits at h
      omega
    exact ⟨_, check_of_overrun (by omega) hover⟩

theorem read_of_fits (m : Memory) {a : Int} (h : Fits a 1) : m.read a = .ok (m.byte a.toNat) := by
  rw [read, check_of_fits h.1 h.2]
  rfl

theorem write_of_fits (m : Memory) {a : Int} (h : Fits a 1) (value : Int) :
    m.write a value = .ok (m.deposit (.write a value)) := by
  have hdeposit : (Operation.write a value).deposit? =
      some (a.toNat, [UInt8.ofNat (value % 256).toNat]) := if_pos h
  rw [write, check_of_fits h.1 h.2, deposit, hdeposit]
  rfl

theorem writeBlock_eq_deposit (m : Memory) {a : Int} {values : List Int}
    (h : Fits a values.length) (hv : ∀ z ∈ values, Byte.IsValue z) :
    m.writeBlock a values = .ok (m.deposit (.writeBlock a values)) := by
  have hdeposit : (Operation.writeBlock a values).deposit? =
      some (a.toNat, values.map fun z => UInt8.ofNat z.toNat) := if_pos ⟨h, hv⟩
  rw [m.writeBlock_of_fits values h.1 h.2 hv, deposit, hdeposit]

/-- A block in memory is not written if some value is no byte. -/
theorem writeBlock_of_misfit (m : Memory) {a : Int} {values : List Int}
    (h : Fits a values.length) (hv : ∃ z ∈ values, ¬ Byte.IsValue z) :
    ∃ z, m.writeBlock a values = .error (.misfit (.notAByte z)) := by
  rw [writeBlock, check_of_fits h.1 h.2]
  cases hbytes : Byte.ofInts values with
  | error z => exact ⟨z, rfl⟩
  | ok bytes =>
      obtain ⟨z, hz, hnot⟩ := hv
      exact absurd (Byte.isValue_of_ofInts hbytes z hz) hnot

theorem load_eq_deposit (m : Memory) {program : List Int} (h : Accepts program) :
    m.load program = .ok (m.deposit (.load program)) := by
  have hdeposit : (Operation.load program).deposit? =
      some (programStart, program.map fun z => UInt8.ofNat z.toNat) := if_pos h
  rw [m.load_of_accepts h, deposit, hdeposit]

/-- A call that puts nothing in place leaves memory as it is. -/
theorem deposit_of_none (m : Memory) {o : Operation} (h : o.deposit? = none) : m.deposit o = m := by
  rw [deposit, h]

/-- An access that is refused puts nothing in place. -/
theorem deposit?_of_refused {o : Operation} {a count : Int} (ho : o.block? = some (a, count))
    (h : ¬ (Fits a count ∧ ∀ z ∈ o.strictValues, Byte.IsValue z)) : o.deposit? = none := by
  cases o with
  | read _ | readBlock _ _ => rfl
  | write _ value =>
      cases ho
      exact if_neg fun hfits => h ⟨hfits, nofun⟩
  | writeBlock _ values =>
      cases ho
      exact if_neg h
  | _ => cases ho

end Memory

/-! ## One call -/

namespace Machine

section Access

variable [Tracing] (m : Machine) {o : Operation} {a count : Int}

/-- An access to a block that does not lie in memory is refused. -/
theorem perform_of_not_fits (ho : o.block? = some (a, count)) (h : ¬ Memory.Fits a count) :
    ∃ z, m.perform o = m.refused (.failure (.fault (.outOfRange .data z))) := by
  obtain ⟨z, hz⟩ := Memory.check_of_not_fits h
  refine ⟨z, ?_⟩
  cases o with
  | read _ | write _ _ | readBlock _ _ | writeBlock _ _ =>
      cases ho
      simp only [perform, Memory.read, Memory.write, Memory.readBlock, Memory.writeBlock, hz]
      rfl
  | _ => cases ho

/-- An access to a block in memory is refused if some value is no byte. -/
theorem perform_of_misfit (ho : o.block? = some (a, count)) (h : Memory.Fits a count)
    (hv : ∃ z ∈ o.strictValues, ¬ Byte.IsValue z) :
    ∃ z, m.perform o = m.refused (.failure (.misfit (.notAByte z))) := by
  cases o with
  | writeBlock _ values =>
      cases ho
      obtain ⟨z, hz⟩ := m.memory.writeBlock_of_misfit h hv
      refine ⟨z, ?_⟩
      simp only [perform, hz]
      rfl
  | _ =>
      obtain ⟨z, hz, -⟩ := hv
      cases hz

/-- Any other access is carried out. -/
theorem perform_of_fits (hcall : o.isMemoryCall = true) (ho : o.block? = some (a, count))
    (h : Memory.Fits a count) (hv : ∀ z ∈ o.strictValues, Byte.IsValue z) :
    m.perform o = { m with memory := m.memory.deposit o }.replied (o.answer m.memory.byte) := by
  cases o with
  | read _ =>
      cases ho
      simp only [perform, m.memory.read_of_fits h]
      rfl
  | write _ value =>
      cases ho
      simp only [perform, m.memory.write_of_fits h value]
      rfl
  | readBlock _ _ =>
      cases ho
      have hcount : 0 ≤ count := of_decide_eq_true hcall
      have hlength : min (a + count).toNat memorySize - a.toNat = count.toNat := by
        obtain ⟨h0, hend⟩ := h
        omega
      simp only [perform, m.memory.readBlock_of_fits h.1 hcount h.2, Memory.slice, hlength]
      rfl
  | writeBlock _ values =>
      cases ho
      simp only [perform, m.memory.writeBlock_eq_deposit h hv]
      rfl
  | _ => cases ho

end Access

section Calls

variable [Tracing]

/-- A call that is refused puts nothing in place, and leaves the machine as it is. -/
theorem perform_of_refused (m : Machine) {o : Operation} {reason : Refusal}
    (h : m.perform o = m.refused reason) (hdeposit : o.deposit? = none) :
    (m.perform o).machine = { m with memory := m.memory.deposit o } := by
  rw [h, m.memory.deposit_of_none hdeposit]
  rfl

/-- A call leaves the machine with its bytes in place. If it is refused, there are none. -/
theorem machine_perform_call (m : Machine) {o : Operation} (hcall : o.isMemoryCall = true) :
    (m.perform o).machine = { m with memory := m.memory.deposit o } ∧
      ∀ reason, (m.perform o).result = .error reason → o.deposit? = none := by
  cases hblock : o.block? with
  | some block =>
      obtain ⟨a, count⟩ := block
      by_cases hfits : Memory.Fits a count
      · by_cases hvalues : ∀ z ∈ o.strictValues, Byte.IsValue z
        · rw [m.perform_of_fits hcall hblock hfits hvalues]
          exact ⟨rfl, nofun⟩
        · obtain ⟨z, hz⟩ := m.perform_of_misfit hblock hfits (Byte.exists_not_isValue hvalues)
          have hnone := Memory.deposit?_of_refused hblock fun h => hvalues h.2
          exact ⟨m.perform_of_refused hz hnone, fun _ _ => hnone⟩
      · obtain ⟨z, hz⟩ := m.perform_of_not_fits hblock hfits
        have hnone := Memory.deposit?_of_refused hblock fun h => hfits h.1
        exact ⟨m.perform_of_refused hz hnone, fun _ _ => hnone⟩
  | none =>
      -- what is left is a program, and the reset
      cases o with
      | wipe => exact ⟨congrArg (fun memory => { m with memory }) m.memory.reset_eq_deposit, nofun⟩
      | load program =>
          by_cases haccepts : Memory.Accepts program
          · simp only [perform, m.memory.load_eq_deposit haccepts]
            exact ⟨rfl, nofun⟩
          · have hnone : (Operation.load program).deposit? = none := if_neg haccepts
            cases hload : m.memory.load program with
            | ok k => exact absurd (Memory.accepts_of_load hload) haccepts
            | error reason =>
                have hrefused : m.perform (.load program) = m.refused (.load reason) := by
                  simp only [perform, hload]
                  rfl
                exact ⟨m.perform_of_refused hrefused hnone, fun _ _ => hnone⟩
      | read _ | write _ _ | readBlock _ _ | writeBlock _ _ => cases hblock
      | _ => cases hcall

end Calls

end Machine

/-! ## Lists of calls -/

theorem contents_concat (ops : List Operation) (o : Operation) (a : Nat) :
    contents (ops ++ [o]) a = (o.written? a).getD (contents ops a) := by
  rw [contents, lastWritten?, List.reverse_concat, List.findSome?_cons]
  cases o.written? a with
  | none => rfl
  | some b => rfl

/-- The answer of an access does not depend on anything outside memory. -/
theorem Operation.answer_congr {o : Operation} {a count : Int} (hcall : o.isMemoryCall = true)
    (ho : o.block? = some (a, count)) (h : Memory.Fits a count) {byte other : Nat → Byte}
    (hbytes : ∀ a, a < memorySize → byte a = other a) : o.answer byte = o.answer other := by
  obtain ⟨h0, hend⟩ := h
  cases o with
  | read _ =>
      cases ho
      exact congrArg (fun b : Byte => Reply.number b.toNat) (hbytes _ (by omega))
  | readBlock _ _ =>
      cases ho
      have hcount : 0 ≤ count := of_decide_eq_true hcall
      refine congrArg Reply.bytes (List.map_congr_left fun b hb => hbytes b ?_)
      obtain ⟨-, hlt⟩ := List.mem_range'_1.1 hb
      omega
  | _ => rfl

namespace Machine

section Histories

variable [Tracing]

/-- An address holds what was last put there. -/
theorem byte_after (keypad : Keypad) (random : RandomSource) {ops : List Operation}
    (hops : ∀ o ∈ ops, o.isMemoryCall = true) {a : Nat} (ha : a < memorySize) :
    ((fresh keypad random).after ops).memory.byte a = contents ops a := by
  -- from the end, since a later call covers what earlier ones have put there
  induction ops using List.reverseRecOn with
  | nil => exact Memory.byte_fresh ha
  | append_singleton before o ih =>
      have hbefore := fun p hp => hops p (List.mem_append_left [o] hp)
      have hcall := hops o (List.mem_append_right before (List.mem_singleton_self o))
      rw [after_concat, (machine_perform_call _ hcall).1, contents_concat, ← ih hbefore]
      exact Memory.byte_deposit _ o ha

/-- What becomes of an access: it is refused for its addresses exactly if its block does not lie in
memory, and for its values exactly if the block does and some value is no byte. Otherwise it is
carried out. -/
theorem result_perform_access (m : Machine) {o : Operation} {a count : Int}
    (hcall : o.isMemoryCall = true) (ho : o.block? = some (a, count)) :
    ((∃ z, (m.perform o).result = .error (.failure (.fault (.outOfRange .data z)))) ↔
      ¬ Memory.Fits a count) ∧
    ((∃ z, (m.perform o).result = .error (.failure (.misfit (.notAByte z)))) ↔
      Memory.Fits a count ∧ ∃ z ∈ o.strictValues, ¬ Byte.IsValue z) ∧
    (Memory.Fits a count → (∀ z ∈ o.strictValues, Byte.IsValue z) →
      (m.perform o).result = .ok (o.answer m.memory.byte)) := by
  by_cases hfits : Memory.Fits a count
  · by_cases hvalues : ∀ z ∈ o.strictValues, Byte.IsValue z
    · have hok : (m.perform o).result = .ok (o.answer m.memory.byte) := by
        rw [m.perform_of_fits hcall ho hfits hvalues]
        rfl
      refine ⟨⟨?_, fun hnot => absurd hfits hnot⟩, ⟨?_, ?_⟩, fun _ _ => hok⟩
      · rintro ⟨z, hz⟩
        cases hok.symm.trans hz
      · rintro ⟨z, hz⟩
        cases hok.symm.trans hz
      · rintro ⟨-, z, hz, hnot⟩
        exact absurd (hvalues z hz) hnot
    · have hexists := Byte.exists_not_isValue hvalues
      obtain ⟨z, hz⟩ := m.perform_of_misfit ho hfits hexists
      have herror := congrArg Performed.result hz
      refine ⟨⟨?_, fun hnot => absurd hfits hnot⟩,
        ⟨fun _ => ⟨hfits, hexists⟩, fun _ => ⟨z, herror⟩⟩,
        fun _ hall => absurd hall hvalues⟩
      rintro ⟨y, hy⟩
      cases herror.symm.trans hy
  · obtain ⟨z, hz⟩ := m.perform_of_not_fits ho hfits
    have herror := congrArg Performed.result hz
    refine ⟨⟨fun _ => hfits, fun _ => ⟨z, herror⟩⟩, ⟨?_, fun h => absurd h.1 hfits⟩,
      fun h _ => absurd h hfits⟩
    rintro ⟨y, hy⟩
    cases herror.symm.trans hy

/-- What a new memory is after any calls, and what the next call does. Every address holds what was
last put there. The call leaves as many bytes: it replaces a block by another one of the same
length, which lies in memory, or nothing, as it does when it is refused. An access is refused for
its addresses exactly if its block does not lie in memory, and for its values exactly if the block
does and some value is no byte; otherwise it is carried out, and answers with what the addresses
of the block hold. -/
theorem memory_after_calls (keypad : Keypad) (random : RandomSource) {ops : List Operation}
    (hops : ∀ p ∈ ops, p.isMemoryCall = true) {o : Operation} (ho : o.isMemoryCall = true) :
    let m := (fresh keypad random).after ops
    let p := m.perform o
    (∀ a, a < 0x1000 → m.memory.byte a = contents ops a) ∧
    p.machine.memory.bytes.toList.length = 0x1000 ∧
    (∀ start bytes, o.deposit? = some (start, bytes) →
      start + bytes.length ≤ 0x1000 ∧
        p.machine.memory.bytes.toList = splice m.memory.bytes.toList start bytes) ∧
    (o.deposit? = none → p.machine = m) ∧
    (∀ reason, p.result = .error reason → o.deposit? = none) ∧
    ∀ a count, o.block? = some (a, count) →
      ((∃ z, p.result = .error (.failure (.fault (.outOfRange .data z)))) ↔
        a < 0 ∨ 0x1000 < a + count) ∧
      ((∃ z, p.result = .error (.failure (.misfit (.notAByte z)))) ↔
        (0 ≤ a ∧ a + count ≤ 0x1000) ∧ ∃ z ∈ o.strictValues, ¬ Byte.IsValue z) ∧
      (0 ≤ a ∧ a + count ≤ 0x1000 → (∀ z ∈ o.strictValues, Byte.IsValue z) →
        p.result = .ok (o.answer (contents ops))) := by
  intro m p
  obtain ⟨hmachine, hrefused⟩ := m.machine_perform_call ho
  have hbytes : ∀ a, a < memorySize → m.memory.byte a = contents ops a :=
    fun a => byte_after keypad random hops
  refine ⟨hbytes, p.machine.memory.bytes.length_toList, ?_, ?_, hrefused, ?_⟩
  · intro start bytes hdeposit
    have hfits := Memory.deposit_fits hdeposit
    refine ⟨hfits, ?_⟩
    show (m.perform o).machine.memory.bytes.toList = _
    rw [hmachine, ← m.memory.toList_poke hfits]
    simp only [Memory.deposit, hdeposit]
  · intro hdeposit
    refine hmachine.trans ?_
    rw [m.memory.deposit_of_none hdeposit]
  · intro a count hblock
    obtain ⟨hrange, hvalues, hdone⟩ := m.result_perform_access ho hblock
    have hnot : ¬ Memory.Fits a count ↔ a < 0 ∨ 0x1000 < a + count := by
      show ¬ (0 ≤ a ∧ a + count ≤ 0x1000) ↔ _
      omega
    refine ⟨hrange.trans hnot, hvalues, fun hfits hall => (hdone hfits hall).trans ?_⟩
    rw [Operation.answer_congr ho hblock hfits hbytes]

end Histories

open Tracing.Off in
/-- A new memory takes a program, a value that is no byte, which leaves its lowest bits, a block
that ends at the last byte, and an empty block behind it. A block that goes beyond the end and one
with a value that is no byte are refused and leave nothing. The bytes that are read come from three
of these calls. -/
theorem memory_after_calls_end :
    let ops : List Operation := [.load [0x12, 0x00], .write 0x201 0x1FF, .write 0xFFD (-1),
      .writeBlock 0xFFE [1, 2], .writeBlock 0xFFF [3, 4], .writeBlock 0x200 [5, 256],
      .writeBlock 0x1000 []]
    let m := (fresh .idle ⟨fun _ => 0, 0⟩).after ops
    (m.perform (.readBlock 0xFFC 4)).result = .ok (.bytes [0, 0xFF, 1, 2]) ∧
      (m.perform (.readBlock 0x200 3)).result = .ok (.bytes [0x12, 0xFF, 0]) ∧
      (m.perform (.read 0)).result = .ok (.number 0xF0) ∧
      (∃ z, (m.perform (.readBlock 0xFFD 4)).result =
        .error (.failure (.fault (.outOfRange .data z)))) := by
  intro ops m
  have hops : ∀ p ∈ ops, p.isMemoryCall = true := by decide
  have hnext {o : Operation} (ho : o.isMemoryCall = true) {a count : Int}
      (hblock : o.block? = some (a, count)) :=
    (memory_after_calls .idle ⟨fun _ => 0, 0⟩ hops ho).2.2.2.2.2 a count hblock
  refine ⟨?_, ?_, ?_, ?_⟩
  · exact (hnext rfl rfl).2.2 (by decide) nofun
  · exact (hnext rfl rfl).2.2 (by decide) nofun
  · exact (hnext rfl rfl).2.2 (by decide) nofun
  · exact (hnext rfl rfl).1.2 (by decide)

end Machine

end Chip8
