import Chip8.Proofs.Instruction.Decode
import Chip8.Proofs.Machine.History

/-!
# What a step takes from memory and puts there

`Machine.Reads` and `Machine.Writes` give, by the word at the program counter, the addresses that
a cycle takes bytes from and puts bytes to. A cycle leaves all other bytes alone
(`Machine.memory_cycle_of_not_writes`), and what it does besides depends on the bytes that it
reads only (`Machine.cycle_withMemory`). Both are carried from cycles to steps, operations and
runs.
-/

set_option autoImplicit false

namespace Chip8

namespace Machine

/-- The machine with another memory. -/
def withMemory (m : Machine) (k : Memory) : Machine :=
  { m with memory := k }

@[simp] theorem withMemory_pc (m : Machine) (k : Memory) : (m.withMemory k).pc = m.pc := rfl

@[simp] theorem withMemory_awaiting (m : Machine) (k : Memory) :
    (m.withMemory k).awaiting = m.awaiting := rfl

@[simp] theorem withMemory_keypad (m : Machine) (k : Memory) :
    (m.withMemory k).keypad = m.keypad := rfl

theorem skipIf_withMemory (m : Machine) (k : Memory) (condition : Bool) :
    (m.withMemory k).skipIf condition = (m.skipIf condition).withMemory k := by
  cases condition with
  | false => rfl
  | true => rfl

end Machine

namespace Instruction

open Machine

/-! ## Instructions -/

/-- The bytes that an instruction puts in memory, from the index on. -/
def written (m : Machine) : Instruction → List Byte
  | decimal x => (decimalDigits (m.value x)).map fun z => UInt8.ofNat z.toNat
  | store last => (m.firstRegisters (last.val + 1)).map fun z => UInt8.ofNat z.toNat
  | _ => []

/-- The number of bytes that an instruction takes from memory, from the index on. -/
def loadCount : Instruction → Nat
  | draw _ _ rows => rows.val
  | restore last => last.val + 1
  | _ => 0

/-- An instruction puts its bytes in whatever memory there is. Apart from this, other bytes in
memory make no difference if the instruction does not take them. -/
theorem run_withMemory {m : Machine} (h : m.InRange) {i : Instruction} (ho : i.obstacle m = none)
    {k : Memory} (hk : m.memory.AgreeOn (fun a => m.index ≤ a ∧ a < m.index + i.loadCount) k) :
    i.run (m.withMemory k) =
      ⟨(i.run m).machine.withMemory (k.poke m.index.toNat (i.written m)), none⟩ := by
  have hwith : (m.withMemory k).InRange := h.setMemory k
  -- what an instruction takes from memory is one block at the index
  have hslice : ∀ stop, stop = m.index + i.loadCount →
      k.slice m.index.toNat stop.toNat = m.memory.slice m.index.toNat stop.toNat := by
    intro stop hstop
    have h0 := h.index.1
    exact hk.slice fun a hstart hlt => ⟨by omega, by omega⟩
  cases i with
  -- the slot of a return and of a call is known by its position, so both machines use the same
  | ret =>
      have hdepth := h.depth
      have hd := obstacle_ret_eq_none_iff.1 ho
      have h0 : 0 < m.depth := by omega
      obtain ⟨i, hi, hr⟩ := run_ret h0 hdepth.2
      obtain ⟨j, hj, hrk⟩ := run_ret (m := m.withMemory k) h0 hdepth.2
      obtain rfl : j = i := Fin.ext (Int.ofNat_inj.1 (hj.trans hi.symm))
      rw [hr, hrk]
      rfl
  | call target =>
      have hdepth := h.depth
      have hpc := h.pc
      have hd := obstacle_call_eq_none_iff.1 ho
      have hlt : m.depth < stackSize := by omega
      obtain ⟨i, hi, hr⟩ := run_call target hdepth.1 hlt (by omega)
      obtain ⟨j, hj, hrk⟩ := run_call (m := m.withMemory k) target hdepth.1 hlt
        (by rw [withMemory_pc]; omega)
      obtain rfl : j = i := Fin.ext (Int.ofNat_inj.1 (hj.trans hi.symm))
      rw [hr, hrk]
      rfl
  | draw x y rows =>
      obtain ⟨display, flag, hd⟩ := draw_of_clear h ho
      have hrows : k.between m.index (m.index + rows.val) =
          m.memory.between m.index (m.index + rows.val) := by
        have h0 := h.index.1
        rw [Memory.between, Memory.between, if_neg (by omega)]
        exact hslice _ rfl
      have hdk := (m.display.draw_congr (m.value x) (m.value y) hrows).trans hd
      rw [run_draw_of_ok hd, run_draw_of_ok (m := m.withMemory k) hdk]
      rfl
  | decimal x =>
      rw [run_decimal h x ho, run_decimal hwith x ho]
      rfl
  | store last =>
      rw [run_store h last ho, run_store hwith last ho]
      rfl
  | restore last =>
      have hbytes := hslice (m.index + (last.val + 1)) rfl
      rw [run_restore h last ho, run_restore hwith last ho]
      show Effect.mk { (m.withMemory k).setFirstRegisters (k.slice m.index.toNat
        (m.index + (last.val + 1)).toNat) with index := _ } none = _
      rw [hbytes]
      rfl
  | skipIfEqual x k => exact congrArg done (skipIf_withMemory m _ _)
  | skipUnlessEqual x k => exact congrArg done (skipIf_withMemory m _ _)
  | skipIfSame x y => exact congrArg done (skipIf_withMemory m _ _)
  | skipUnlessSame x y => exact congrArg done (skipIf_withMemory m _ _)
  | skipIfHeld x => exact congrArg done (skipIf_withMemory m _ _)
  | skipUnlessHeld x => exact congrArg done (skipIf_withMemory m _ _)
  | alu operation x y => cases operation <;> rfl
  | _ => rfl

/-- An instruction that comes to its end has put its bytes in memory, and nothing else. -/
theorem memory_run {m : Machine} (h : m.InRange) {i : Instruction}
    (ho : i.obstacle m = none) :
    (i.run m).machine.memory = m.memory.poke m.index.toNat (i.written m) := by
  have hrun := run_withMemory h ho (k := m.memory) fun _ _ => rfl
  exact congrArg (fun e => e.machine.memory) hrun

end Instruction

namespace Machine

/-! ## Cycles -/

/-- A cycle takes the byte at an address: it belongs to the word at the program counter, to a
sprite, or to a block that goes to registers. -/
inductive Reads (m : Machine) (a : Nat) : Prop where
  | word (hpc : m.pc < 0xFFF) (ha : m.pc ≤ a ∧ a ≤ m.pc + 1) : Reads m a
  | sprite (hpc : m.pc < 0xFFF) (hw : m.word.family.val = 0xD)
      (ha : m.index ≤ a ∧ a < m.index + m.word.n.val) : Reads m a
  | registers (hpc : m.pc < 0xFFF) (hw : m.word.family.val = 0xF) (hk : m.word.constant = 0x65)
      (ha : m.index ≤ a ∧ a ≤ m.index + m.word.x.val) : Reads m a

/-- A cycle puts a byte at an address: one of three decimal digits, or a register. -/
inductive Writes (m : Machine) (a : Nat) : Prop where
  | decimal (hpc : m.pc < 0xFFF) (hw : m.word.family.val = 0xF) (hk : m.word.constant = 0x33)
      (ha : m.index ≤ a ∧ a ≤ m.index + 2) : Writes m a
  | registers (hpc : m.pc < 0xFFF) (hw : m.word.family.val = 0xF) (hk : m.word.constant = 0x55)
      (ha : m.index ≤ a ∧ a ≤ m.index + m.word.x.val) : Writes m a

/-- What the instruction at the program counter takes from memory is read. -/
theorem reads_of_load {m : Machine} (hpc : m.pc < 0xFFF) {i : Instruction}
    (hi : Instruction.Spells m.word i) {a : Nat}
    (ha : m.index ≤ a ∧ a < m.index + i.loadCount) : m.Reads a := by
  cases i with
  | draw x y rows =>
      obtain ⟨hf, -, -, rfl⟩ := hi
      exact .sprite hpc hf ha
  | restore last =>
      obtain ⟨hf, hk, rfl⟩ := hi
      have hcount : ((Instruction.restore m.word.x).loadCount : Int) = m.word.x.val + 1 := rfl
      exact .registers hpc hf hk ⟨ha.1, by omega⟩
  | _ =>
      have hlt : (a : Int) < m.index + 0 := ha.2
      omega

/-- What the instruction at the program counter puts in memory is written. -/
theorem writes_of_written {m : Machine} (h0 : 0 ≤ m.index) (hpc : m.pc < 0xFFF) {i : Instruction}
    (hi : Instruction.Spells m.word i) {a : Nat} (hstart : m.index.toNat ≤ a)
    (hstop : a < m.index.toNat + (i.written m.passed).length) : m.Writes a := by
  cases i with
  | decimal x =>
      obtain ⟨hf, hk, -⟩ := hi
      have hlength : ((Instruction.decimal x).written m.passed).length = 3 := rfl
      exact .decimal hpc hf hk ⟨by omega, by omega⟩
  | store last =>
      obtain ⟨hf, hk, rfl⟩ := hi
      rw [Instruction.written, List.length_map, m.passed.length_firstRegisters] at hstop
      exact .registers hpc hf hk ⟨by omega, by omega⟩
  | _ =>
      have hlt : a < m.index.toNat + 0 := hstop
      omega

variable [Tracing]

/-- A cycle leaves the bytes alone that it does not write. -/
theorem memory_cycle_of_not_writes {m : Machine} (h : m.InRange) {a : Nat} (ha : ¬ m.Writes a) :
    m.cycle.machine.memory.byte a = m.memory.byte a := by
  have hc := cycle_mem h
  generalize m.cycle = t at hc ⊢
  cases hc with
  | noWord hpc => rfl
  | unknown hpc hw => rfl
  | obstructed hpc hw ho => rfl
  | completed hpc hw ho =>
      rw [Instruction.memory_run (h.passed hpc).1 ho, Memory.byte_poke]
      refine if_neg fun hin => ha ?_
      have hi := Instruction.spells_of_decode? hw
      exact writes_of_written h.index.1 hpc hi hin.1 hin.2.1

omit [Tracing] in
theorem word_withMemory {m : Machine} (h0 : 0 ≤ m.pc) (hpc : m.pc < 0xFFF) {s : Nat → Prop}
    {k : Memory} (hs : m.memory.AgreeOn s k) (hr : ∀ a, m.Reads a → s a) :
    (m.withMemory k).word = m.word := by
  have hhigh := hs m.pc.toNat (hr _ (.word hpc ⟨by omega, by omega⟩))
  have hlow := hs (m.pc.toNat + 1) (hr _ (.word hpc ⟨by omega, by omega⟩))
  show Word.ofBytes (k.byte m.pc.toNat) (k.byte (m.pc.toNat + 1)) = m.word
  rw [hhigh, hlow]
  rfl

/-- A cycle goes the same way with another memory, if this has the bytes that the cycle reads. -/
theorem cycle_withMemory {m : Machine} (h : m.InRange) {s : Nat → Prop} {k : Memory}
    (hs : m.memory.AgreeOn s k) (hr : ∀ a, m.Reads a → s a) :
    ∃ k', m.cycle.machine.memory.AgreeOn s k' ∧
      (m.withMemory k).cycle =
        ⟨m.cycle.machine.withMemory k', m.cycle.entries, m.cycle.result⟩ := by
  have hc := cycle_mem h
  have hwith : (m.withMemory k).InRange := h.setMemory k
  generalize m.cycle = t at hc ⊢
  -- the word is read in every way but the first, and hence the same
  cases hc with
  | noWord hpc => exact ⟨k, hs, cycle_of_le (m := m.withMemory k) hpc⟩
  | unknown hpc hw =>
      have hword := word_withMemory h.pc.1 hpc hs hr
      have hcycle := cycle_of_unknown hwith.pc.1 hpc (hword.symm ▸ hw)
      rw [hword] at hcycle
      exact ⟨k, hs, hcycle⟩
  | obstructed hpc hw ho =>
      have hword := word_withMemory h.pc.1 hpc hs hr
      have hcycle := cycle_of_obstacle hwith hpc (hword.symm ▸ hw) ho
      rw [hword] at hcycle
      exact ⟨k, hs, hcycle⟩
  | @completed hpc i hw ho =>
      have hword := word_withMemory h.pc.1 hpc hs hr
      have hi := Instruction.spells_of_decode? hw
      obtain ⟨hpassed, -⟩ := h.passed hpc
      have hcycle := cycle_of_clear hwith hpc (hword.symm ▸ hw) ho
      have hrun := Instruction.run_withMemory hpassed ho (k := k) fun a ha =>
        hs a (hr a (reads_of_load hpc hi ha))
      have hpassedk : (m.withMemory k).passed = m.passed.withMemory k := rfl
      rw [hword, hpassedk, hrun] at hcycle
      -- both memories take the same bytes, and still agree where they did
      refine ⟨k.poke m.index.toNat (i.written m.passed), ?_, hcycle⟩
      rw [Instruction.memory_run hpassed ho]
      exact hs.poke _ _

/-! ## Steps -/

omit [Tracing] in
theorem Reads.of_answered {m d : Machine} (hd : m.answered? = some d) {a : Nat}
    (h : d.Reads a) : m.Reads a := by
  rcases answered?_eq_some hd with ⟨-, rfl⟩ | ⟨x, k, rest, -, -, rfl⟩
  · exact h
  · cases h with
    | word hpc ha => exact .word hpc ha
    | sprite hpc hw ha => exact .sprite hpc hw ha
    | registers hpc hw hk ha => exact .registers hpc hw hk ha

omit [Tracing] in
theorem Writes.of_answered {m d : Machine} (hd : m.answered? = some d) {a : Nat}
    (h : d.Writes a) : m.Writes a := by
  rcases answered?_eq_some hd with ⟨-, rfl⟩ | ⟨x, k, rest, -, -, rfl⟩
  · exact h
  · cases h with
    | decimal hpc hw hk ha => exact .decimal hpc hw hk ha
    | registers hpc hw hk ha => exact .registers hpc hw hk ha

/-- A step that waits for a key writes nothing, and any other only what its cycle does. -/
theorem memory_step_of_not_writes {m : Machine} (h : m.InRange) {a : Nat}
    (ha : m.Ready → ¬ m.Writes a) : m.step.machine.memory.byte a = m.memory.byte a := by
  cases hd : m.answered? with
  | none => rw [step_of_unanswered hd]
  | some d =>
      have hready := ready_iff.2 ⟨d, hd⟩
      rw [step_of_answered hd, ← (answered?_counters hd).1]
      exact memory_cycle_of_not_writes (h.answered hd) fun hw => ha hready (hw.of_answered hd)

omit [Tracing] in
theorem answered?_withMemory (m : Machine) (k : Memory) :
    (m.withMemory k).answered? = m.answered?.map fun d => d.withMemory k := by
  unfold answered?
  rw [withMemory_awaiting, withMemory_keypad]
  cases m.awaiting with
  | none => rfl
  | some x =>
      cases m.keypad.presses with
      | nil => rfl
      | cons press rest => rfl

/-- A step goes the same way with another memory, if this has the bytes that it reads. -/
theorem step_withMemory {m : Machine} (h : m.InRange) {s : Nat → Prop} {k : Memory}
    (hs : m.memory.AgreeOn s k) (hr : m.Ready → ∀ a, m.Reads a → s a) :
    ∃ k', m.step.machine.memory.AgreeOn s k' ∧
      (m.withMemory k).step =
        ⟨m.step.machine.withMemory k', m.step.entries, m.step.result⟩ := by
  have hdk := answered?_withMemory m k
  cases hd : m.answered? with
  | none =>
      rw [hd] at hdk
      rw [step_of_unanswered hd, step_of_unanswered hdk]
      exact ⟨k, hs, rfl⟩
  | some d =>
      rw [hd] at hdk
      have hready := ready_iff.2 ⟨d, hd⟩
      rw [← (answered?_counters hd).1] at hs
      obtain ⟨k', hs', hcycle⟩ := cycle_withMemory (h.answered hd) hs fun a ha =>
        hr hready a (ha.of_answered hd)
      rw [step_of_answered hd, step_of_answered hdk, hcycle]
      exact ⟨k', hs', rfl⟩

/-! ## Operations -/

omit [Tracing] in
theorem memory_onKey (m : Machine) (key : Int) (act : Keypad → Key → Keypad)
    (note : Key → Entry) : (m.onKey key act note).machine.memory = m.memory := by
  unfold onKey
  cases Key.ofInt? key with
  | none => rfl
  | some found => rfl

omit [Tracing] in
theorem onKey_withMemory (m : Machine) (k : Memory) (key : Int) (act : Keypad → Key → Keypad)
    (note : Key → Entry) :
    (m.withMemory k).onKey key act note =
      ⟨(m.onKey key act note).machine.withMemory k, (m.onKey key act note).entries,
        (m.onKey key act note).result⟩ := by
  unfold onKey
  cases Key.ofInt? key with
  | none => rfl
  | some found => rfl

/-- Below the first program byte an ordinary operation changes only what a step writes. -/
theorem memory_perform_of_not_writes {m : Machine} (h : m.InRange) {o : Operation}
    (ho : o.isOrdinary = true) {a : Nat} (ha : a < programStart)
    (hw : o = .step → m.Ready → ¬ m.Writes a) :
    (m.perform o).machine.memory.byte a = m.memory.byte a := by
  cases o with
  | init program =>
      show (m.loaded program.length (m.init program)).machine.memory.byte a = _
      rcases init_cases program with ⟨reason, hi⟩ | ⟨bytes, hi⟩
      · rw [hi]
        rfl
      · rw [hi]
        exact (Memory.byte_poke ..).trans (if_neg (by omega))
  | reset => exact (Memory.byte_reset ..).trans (if_pos ha)
  | step => exact memory_step_of_not_writes h (hw rfl)
  | press key => exact congrArg (Memory.byte · a) (memory_onKey m key _ _)
  | release key => exact congrArg (Memory.byte · a) (memory_onKey m key _ _)
  | tick | releaseAll | flush | poll | takeFrame | snapshot => rfl
  | _ => simp only [Operation.isOrdinary, Bool.false_eq_true] at ho

/-- An ordinary operation notes and replies the same with another memory, if this has the bytes
that it reads; and the two memories still agree. -/
theorem perform_withMemory {m : Machine} (h : m.InRange) {o : Operation}
    (ho : o.isOrdinary = true) {s : Nat → Prop} {k : Memory} (hs : m.memory.AgreeOn s k)
    (hr : o = .step → m.Ready → ∀ a, m.Reads a → s a) :
    ∃ k', (m.perform o).machine.memory.AgreeOn s k' ∧
      (m.withMemory k).perform o =
        ⟨(m.perform o).machine.withMemory k', (m.perform o).entries, (m.perform o).result⟩ := by
  cases o with
  | init program =>
      show ∃ k', (m.loaded program.length (m.init program)).machine.memory.AgreeOn s k' ∧
        (m.withMemory k).loaded program.length ((m.withMemory k).init program) =
          ⟨(m.loaded program.length (m.init program)).machine.withMemory k',
            (m.loaded program.length (m.init program)).entries,
            (m.loaded program.length (m.init program)).result⟩
      rcases init_cases program with ⟨reason, hi⟩ | ⟨bytes, hi⟩
      · rw [hi, hi]
        exact ⟨k, hs, rfl⟩
      · rw [hi, hi]
        exact ⟨k.poke programStart bytes, hs.poke _ _, rfl⟩
  | reset => exact ⟨k.reset, hs.reset, rfl⟩
  | step =>
      obtain ⟨k', hs', hstep⟩ := step_withMemory h hs (hr rfl)
      refine ⟨k', hs', ?_⟩
      show stepped (m.withMemory k).step = _
      rw [hstep]
      rfl
  | press key => exact ⟨k, (memory_onKey m key _ _).symm ▸ hs, onKey_withMemory m k key _ _⟩
  | release key => exact ⟨k, (memory_onKey m key _ _).symm ▸ hs, onKey_withMemory m k key _ _⟩
  | tick | releaseAll | flush | poll | takeFrame | snapshot => exact ⟨k, hs, rfl⟩
  | _ => simp only [Operation.isOrdinary, Bool.false_eq_true] at ho

/-! ## Runs -/

/-- A property holds whenever a run goes through a cycle. -/
def EachCycle (p : Machine → Prop) : Machine → List Operation → Prop
  | _, [] => True
  | m, o :: rest => (o = .step → m.Ready → p m) ∧ EachCycle p (m.perform o).machine rest

/-- What is noted and replied during a run. -/
def transcript : Machine → List Operation → List (List Entry × Except Refusal Reply)
  | _, [] => []
  | m, o :: rest =>
    ((m.perform o).entries, (m.perform o).result) :: transcript (m.perform o).machine rest

/-- If no cycle writes below the first program byte, then this part of memory stays as it is. -/
theorem memory_after_of_not_writes {m : Machine} (h : m.InRange) {ops : List Operation}
    (ho : ∀ o ∈ ops, o.isOrdinary = true)
    (hw : m.EachCycle (fun t => ∀ a, t.Writes a → programStart ≤ a) ops) {a : Nat}
    (ha : a < programStart) : (m.after ops).memory.byte a = m.memory.byte a := by
  induction ops generalizing m with
  | nil => rfl
  | cons o rest ih =>
      have hfirst := ho o List.mem_cons_self
      have hmore := fun p hp => ho p (List.mem_cons_of_mem o hp)
      -- from the end: the later operations keep the byte that the first one has kept
      have hrest := ih (inRange_perform h hfirst) hmore hw.2
      refine hrest.trans (memory_perform_of_not_writes h hfirst ha fun hstep hready hwrites => ?_)
      exact absurd (hw.1 hstep hready a hwrites) (Nat.not_le.2 ha)

/-- A run goes the same way with another memory, if this has all the bytes that its cycles read;
and the two memories agree until the end. -/
theorem after_withMemory {m : Machine} (h : m.InRange) {ops : List Operation}
    (ho : ∀ o ∈ ops, o.isOrdinary = true) {s : Nat → Prop} {k : Memory}
    (hs : m.memory.AgreeOn s k) (hr : m.EachCycle (fun t => ∀ a, t.Reads a → s a) ops) :
    (m.withMemory k).transcript ops = m.transcript ops ∧
      ∃ k', (m.after ops).memory.AgreeOn s k' ∧
        (m.withMemory k).after ops = (m.after ops).withMemory k' := by
  induction ops generalizing m k with
  | nil => exact ⟨rfl, k, hs, rfl⟩
  | cons o rest ih =>
      have hfirst := ho o List.mem_cons_self
      have hmore := fun p hp => ho p (List.mem_cons_of_mem o hp)
      -- the agreement after the first operation is what the rest starts from
      obtain ⟨k', hs', hperform⟩ := perform_withMemory h hfirst hs hr.1
      obtain ⟨htranscript, hafter⟩ := ih (inRange_perform h hfirst) hmore hs' hr.2
      rw [transcript, transcript, after_cons, after_cons, hperform]
      exact ⟨congrArg _ htranscript, hafter⟩

end Machine

end Chip8
