import Chip8.Proofs.Memory.Storage

/-!
# Reading blocks

What a block access answers for all addresses and counts, also for those below zero. An access that
passes the check answers with the bytes between the block's first address and its end
(`Memory.readBlock_eq_ok_iff`). These are the bytes of the block, unless the end is negative: then
it counts from the end of memory, and a longer block is read (`Memory.isBlock_between`,
`Memory.isBlock_between_iff`). `Memory.readBlock_answers` says which accesses answer with their
block.
-/

set_option autoImplicit false

namespace Chip8

namespace Memory

/-- The bytes at the addresses from `a` up to `a + count`, one for each. There are none if the
count is not positive. -/
structure IsBlock (m : Memory) (a count : Int) (bytes : List Byte) : Prop where
  length : (bytes.length : Int) = max 0 count
  byte : ∀ i : Nat, i < count → bytes[i]? = m.bytes[(a + i).toNat]?

/-- Lists that are blocks of two counts at once are as long as either. -/
theorem IsBlock.max_eq {m k : Memory} {a b count other : Int} {bytes : List Byte}
    (h : m.IsBlock a count bytes) (h' : k.IsBlock b other bytes) : max 0 count = max 0 other :=
  h.length.symm.trans h'.length

/-- A block without bytes is one at every address, of every count that is not positive. -/
theorem IsBlock.of_nonpos {m k : Memory} {a b count other : Int} {bytes : List Byte}
    (h : m.IsBlock a count bytes) (hcount : count ≤ 0) (hother : other ≤ 0) :
    k.IsBlock b other bytes where
  length := by
    rw [h.length]
    omega
  byte := by
    intro i hi
    omega

/-- A slice that ends in memory is a block. If it ends before it begins, it is empty. -/
theorem isBlock_slice (m : Memory) {a stop : Int} (ha : 0 ≤ a) (hstop : stop ≤ memorySize) :
    m.IsBlock a (stop - a) (m.slice a.toNat stop.toNat) where
  length := by
    rw [slice, List.length_map, List.length_range']
    omega
  byte := by
    intro i hi
    have hlast : (a + i).toNat < memorySize := by omega
    rw [slice, List.getElem?_map, List.getElem?_range' (by omega), Vector.getElem?_eq_getElem hlast,
      ← byte_of_lt m hlast, show a.toNat + 1 * i = (a + i).toNat by omega]
    rfl

/-- Between the two ends of an access lies its block, or a longer one if the second end is
negative. -/
theorem isBlock_between (m : Memory) {a count : Int} (h : Fits a count) :
    m.IsBlock a (if a + count < 0 then memorySize + count else count)
      (m.between a (a + count)) := by
  obtain ⟨ha, hend⟩ := h
  unfold between
  by_cases hneg : a + count < 0
  · rw [if_pos hneg, if_pos hneg]
    have hblock : m.IsBlock a (a + count + memorySize - a) _ := m.isBlock_slice ha (by omega)
    rwa [show a + count + (memorySize : Int) - a = memorySize + count by omega] at hblock
  · rw [if_neg hneg, if_neg hneg]
    have hblock := m.isBlock_slice ha hend
    rwa [show a + count - a = count by omega] at hblock

/-- What lies between the two ends is the block, unless the block ends below zero. It may end so far
below that nothing comes before that end; then it is the block too. -/
theorem isBlock_between_iff (m : Memory) {a count : Int} (h : Fits a count) :
    m.IsBlock a count (m.between a (a + count)) ↔ 0 ≤ a + count ∨ count ≤ -memorySize := by
  have hbetween := m.isBlock_between h
  by_cases hneg : a + count < 0
  · rw [if_pos hneg] at hbetween
    rw [or_iff_right (Int.not_le.2 hneg)]
    have ha := h.1
    constructor
    · intro hblock
      -- a block that ends below zero has no bytes, so the longer one may not have any either
      have hmax := hblock.max_eq hbetween
      omega
    · intro hfar
      exact hbetween.of_nonpos (by omega) (by omega)
  · rw [if_neg hneg] at hbetween
    exact iff_of_true hbetween (Or.inl (Int.not_lt.1 hneg))

/-- An access is refused exactly if its block does not lie in memory. -/
theorem readBlock_eq_error_iff {m : Memory} {a count : Int} :
    (∃ z, m.readBlock a count = .error (.fault (.outOfRange .data z))) ↔ ¬ Fits a count := by
  constructor
  · rintro ⟨z, hz⟩ ⟨ha, hend⟩
    rw [readBlock, check_of_fits ha hend] at hz
    cases hz
  · intro h
    obtain ⟨z, hz⟩ := check_of_not_fits h
    refine ⟨z, ?_⟩
    rw [readBlock, hz]
    rfl

/-- Any other access is answered, with what lies between its ends. -/
theorem readBlock_eq_ok_iff {m : Memory} {a count : Int} {bytes : List Byte} :
    m.readBlock a count = .ok bytes ↔ Fits a count ∧ bytes = m.between a (a + count) := by
  by_cases h : Fits a count
  · have hok : m.readBlock a count = .ok (m.between a (a + count)) := by
      rw [readBlock, check_of_fits h.1 h.2]
      rfl
    rw [hok, Except.ok.injEq, and_iff_right h, eq_comm]
  · obtain ⟨z, hz⟩ := readBlock_eq_error_iff.2 h
    refine iff_of_false (fun hok => ?_) fun hok => h hok.1
    rw [hz] at hok
    cases hok

/-- What a block access answers. It is refused exactly if its block begins below zero or ends
behind memory, and otherwise answers with a block at the same address: the one that was asked for
if that ends in memory, and one that is longer by the size of memory if it ends below zero. So
exactly the bytes that were asked for come back if the block ends in memory, or if it is so far
below zero that the longer one is empty too. -/
theorem readBlock_answers (m : Memory) (a count : Int) :
    ((∃ z, m.readBlock a count = .error (.fault (.outOfRange .data z))) ↔
      a < 0 ∨ 0x1000 < a + count) ∧
    ((∃ bytes, m.readBlock a count = .ok bytes ∧
        m.IsBlock a (if a + count < 0 then 0x1000 + count else count) bytes) ↔
      0 ≤ a ∧ a + count ≤ 0x1000) ∧
    ((∃ bytes, m.readBlock a count = .ok bytes ∧ m.IsBlock a count bytes) ↔
      (0 ≤ a ∧ a + count ≤ 0x1000) ∧ (0 ≤ a + count ∨ count ≤ -0x1000)) := by
  have hanswer : Fits a count → ∃ bytes, m.readBlock a count = .ok bytes ∧
      m.IsBlock a (if a + count < 0 then 0x1000 + count else count) bytes := fun h =>
    ⟨_, readBlock_eq_ok_iff.2 ⟨h, rfl⟩, m.isBlock_between h⟩
  -- the three conditions speak of the same check, and the last one of the negative end as well
  refine ⟨readBlock_eq_error_iff.trans ?_, ⟨?_, hanswer⟩, ?_, ?_⟩
  · show ¬ (0 ≤ a ∧ a + count ≤ 0x1000) ↔ _
    omega
  · rintro ⟨bytes, hok, -⟩
    exact (readBlock_eq_ok_iff.1 hok).1
  · rintro ⟨bytes, hok, hblock⟩
    obtain ⟨hfits, rfl⟩ := readBlock_eq_ok_iff.1 hok
    exact ⟨hfits, (m.isBlock_between_iff hfits).1 hblock⟩
  · rintro ⟨hfits, hend⟩
    exact ⟨_, readBlock_eq_ok_iff.2 ⟨hfits, rfl⟩, (m.isBlock_between_iff hfits).2 hend⟩

/-- A block that ends below zero: one byte less than none is asked for at the start of a new memory,
and all its bytes but the last come back. -/
theorem readBlock_beyond_request :
    ∃ bytes, fresh.readBlock 0 (-1) = .ok bytes ∧ bytes.length = 4095 ∧
      ¬ fresh.IsBlock 0 (-1) bytes := by
  have hfits : Fits 0 (-1) := by decide
  refine ⟨_, readBlock_eq_ok_iff.2 ⟨hfits, rfl⟩, ?_, fun h => ?_⟩
  · exact Int.ofNat.inj (fresh.isBlock_between hfits).length
  · exact absurd ((fresh.isBlock_between_iff hfits).1 h) (by decide)

end Memory

end Chip8
