import Chip8.Memory

/-!
# Blocks of memory

What the accesses to memory do, byte by byte. A memory is known by its bytes (`Memory.ext_byte`);
`Memory.byte_poke` and `Memory.byte_reset` give the bytes after a change. A block access is
carried out exactly if the block lies in memory, and an overrun is reported with the address of
the block's last byte (`Memory.writeBlock_of_fits`, `Memory.writeBlock_of_overrun`,
`Memory.readBlock_of_fits`, `Memory.readBlock_of_overrun`).
-/

set_option autoImplicit false

namespace Chip8

/-! ## Integers that are bytes -/

/-- Integers that a byte can hold. -/
def Byte.IsValue (z : Int) : Prop :=
  0 ≤ z ∧ z < 256

namespace Byte

instance : DecidablePred IsValue :=
  fun _ => inferInstanceAs (Decidable (_ ∧ _))

theorem isValue_toNat (b : Byte) : IsValue b.toNat := by
  have h := b.toNat_lt
  constructor <;> omega

/-- A byte that was made of a value gives the value back. -/
theorem toNat_ofNat_of_isValue {z : Int} (h : IsValue z) :
    ((UInt8.ofNat z.toNat).toNat : Int) = z := by
  obtain ⟨h0, h1⟩ := h
  rw [UInt8.toNat_ofNat_of_lt' (show z.toNat < 256 by omega), Int.toNat_of_nonneg h0]

theorem values_ofNat {zs : List Int} (h : ∀ z ∈ zs, IsValue z) :
    values (zs.map fun z => UInt8.ofNat z.toNat) = zs := by
  rw [values, List.map_map]
  refine (List.map_congr_left fun z hz => ?_).trans (List.map_id zs)
  exact toNat_ofNat_of_isValue (h z hz)

theorem ofInt?_of_isValue {z : Int} (h : IsValue z) :
    ofInt? z = some (UInt8.ofNat z.toNat) :=
  if_pos h

/-- Values of bytes are all taken over. -/
theorem ofInts_of_isValue {zs : List Int} (h : ∀ z ∈ zs, IsValue z) :
    ofInts zs = .ok (zs.map fun z => UInt8.ofNat z.toNat) := by
  induction zs with
  | nil => rfl
  | cons z rest ih =>
      have hz : IsValue z := h z List.mem_cons_self
      have hrest := ih fun y hy => h y (List.mem_cons_of_mem z hy)
      rw [ofInts, ofInt?_of_isValue hz, hrest]
      rfl

/-- Nothing else is taken over. -/
theorem isValue_of_ofInts {zs : List Int} {bytes : List Byte} (h : ofInts zs = .ok bytes) :
    ∀ z ∈ zs, IsValue z := by
  induction zs generalizing bytes with
  | nil => exact List.forall_mem_nil _
  | cons z rest ih =>
      rw [ofInts] at h
      by_cases hz : IsValue z
      · rw [ofInt?_of_isValue hz] at h
        cases hrest : ofInts rest with
        | error bad =>
            rw [hrest] at h
            cases h
        | ok others => exact List.forall_mem_cons.2 ⟨hz, ih hrest⟩
      · have hnone : ofInt? z = none := if_neg hz
        rw [hnone] at h
        cases h

end Byte

namespace Memory

/-! ## Single bytes -/

theorem byte_of_lt (m : Memory) {a : Nat} (h : a < memorySize) : m.byte a = m.bytes[a] :=
  dif_pos h

theorem byte_of_le (m : Memory) {a : Nat} (h : memorySize ≤ a) : m.byte a = 0 :=
  dif_neg (Nat.not_lt.2 h)

/-- Two memories with the same bytes are the same. -/
theorem ext_byte {m n : Memory} (h : ∀ a, a < memorySize → m.byte a = n.byte a) : m = n := by
  -- `byte` is total, the entries of the vector are not
  have hb : m.bytes = n.bytes := by
    apply Vector.ext
    intro a ha
    have hab := h a ha
    rwa [byte_of_lt m ha, byte_of_lt n ha] at hab
  cases m with
  | mk bytes => exact congrArg Memory.mk hb

/-- One byte after a single byte has been put in place; beyond the end of memory none is. -/
theorem byte_set (m : Memory) (a : Nat) (b : Byte) (i : Nat) :
    (if h : a < memorySize then (⟨m.bytes.set a b h⟩ : Memory) else m).byte i =
      if a = i ∧ i < memorySize then b else m.byte i := by
  by_cases hi : memorySize ≤ i
  · rw [if_neg (by omega), byte_of_le _ hi, byte_of_le _ hi]
  · have hlt : i < memorySize := Nat.lt_of_not_le hi
    by_cases hai : a = i
    · subst hai
      rw [if_pos ⟨rfl, hlt⟩, dif_pos hlt, byte_of_lt _ hlt]
      exact Vector.getElem_set_self hlt
    · rw [if_neg fun h => hai h.1]
      by_cases ha : a < memorySize
      · rw [dif_pos ha, byte_of_lt _ hlt, byte_of_lt _ hlt]
        exact Vector.getElem_set_ne ha hlt hai
      · rw [dif_neg ha]

/-- One byte after a block has been put in place. -/
theorem byte_poke (m : Memory) (a : Nat) (bytes : List Byte) (i : Nat) :
    (m.poke a bytes).byte i =
      if a ≤ i ∧ i < a + bytes.length ∧ i < memorySize then bytes[i - a]?.getD 0
      else m.byte i := by
  induction bytes generalizing m a with
  | nil =>
      rw [if_neg (by simp only [List.length_nil]; omega)]
      rfl
  | cons b rest ih =>
      rw [poke, ih, byte_set, List.length_cons]
      by_cases hai : a = i
      -- the first byte of the block: the rest of the block lies behind it
      · subst hai
        rw [if_neg (by omega), Nat.sub_self, List.getElem?_cons_zero]
        by_cases ha : a < memorySize
        · rw [if_pos ⟨rfl, ha⟩, if_pos ⟨Nat.le_refl a, by omega, ha⟩]
          rfl
        · rw [if_neg (by omega), if_neg (by omega)]
      -- any other byte comes from the rest of the block, or it was there before
      · rw [if_neg (c := a = i ∧ i < memorySize) (by omega)]
        by_cases hin : a ≤ i ∧ i < a + (rest.length + 1) ∧ i < memorySize
        · obtain ⟨k, hk⟩ : ∃ k, i - a = k + 1 := ⟨i - a - 1, by omega⟩
          rw [if_pos hin, if_pos (by omega), hk, show i - (a + 1) = k by omega,
            List.getElem?_cons_succ]
        · rw [if_neg hin, if_neg (by omega)]

/-- What lies below the first program byte survives, and the rest is zero. -/
theorem byte_reset (m : Memory) (a : Nat) :
    m.reset.byte a = if a < programStart then m.byte a else 0 := by
  by_cases ha : a < memorySize
  · rw [byte_of_lt _ ha, byte_of_lt _ ha]
    exact getElem_tabulate _ a ha
  · rw [byte_of_le _ (by omega), byte_of_le m (by omega), ite_self]

/-- A new memory is zero behind the glyphs. -/
theorem byte_fresh_of_le {a : Nat} (h : 16 * glyphSize ≤ a) : fresh.byte a = 0 := by
  by_cases ha : a < memorySize
  · rw [byte_of_lt _ ha]
    have hl : glyphs.length ≤ a := by rwa [length_glyphs]
    exact (List.getElem_append_right hl).trans (List.getElem_replicate ..)
  · exact byte_of_le _ (by omega)

/-! ## Blocks -/

/-- A block that lies in memory has all its bytes. -/
theorem length_slice (m : Memory) {a n : Nat} (h : a + n ≤ memorySize) :
    (m.slice a (a + n)).length = n := by
  rw [slice, List.length_map, List.length_range']
  omega

theorem getElem?_slice (m : Memory) {a n i : Nat} (h : a + n ≤ memorySize) (hi : i < n) :
    (m.slice a (a + n))[i]? = some (m.byte (a + i)) := by
  rw [slice, List.getElem?_map, List.getElem?_range' (by omega), Nat.one_mul]
  rfl

/-- A block that lies in memory passes the check. -/
theorem check_of_fits {a count : Int} (ha : 0 ≤ a) (h : a + count ≤ memorySize) :
    check a count = .ok () := by
  rw [check, if_neg (by omega), if_neg (by omega)]

/-- A block that leaves memory at its end is refused with its last address. -/
theorem check_of_overrun {a count : Int} (ha : 0 ≤ a) (h : (memorySize : Int) < a + count) :
    check a count = .error (.fault (.outOfRange .data (a + count - 1))) := by
  rw [check, if_neg (by omega), if_pos (by omega)]

/-- A block of bytes is written if it lies in memory. -/
theorem writeBlock_of_fits (m : Memory) {a : Int} (values : List Int) (ha : 0 ≤ a)
    (h : a + values.length ≤ memorySize) (hv : ∀ z ∈ values, Byte.IsValue z) :
    m.writeBlock a values = .ok (m.poke a.toNat (values.map fun z => UInt8.ofNat z.toNat)) := by
  rw [writeBlock, check_of_fits ha h, Byte.ofInts_of_isValue hv]
  rfl

/-- A block that overruns memory is refused, whatever its values are. -/
theorem writeBlock_of_overrun (m : Memory) {a : Int} (values : List Int) (ha : 0 ≤ a)
    (h : (memorySize : Int) < a + values.length) :
    m.writeBlock a values = .error (.fault (.outOfRange .data (a + values.length - 1))) := by
  rw [writeBlock, check_of_overrun ha h]
  rfl

/-- A block that lies in memory is read. -/
theorem readBlock_of_fits (m : Memory) {a count : Int} (ha : 0 ≤ a) (hc : 0 ≤ count)
    (h : a + count ≤ memorySize) :
    m.readBlock a count = .ok (m.slice a.toNat (a + count).toNat) := by
  rw [readBlock, check_of_fits ha h]
  show Except.ok (m.between a (a + count)) = _
  rw [between, if_neg (by omega)]

/-- A block that overruns memory is not read. -/
theorem readBlock_of_overrun (m : Memory) {a count : Int} (ha : 0 ≤ a)
    (h : (memorySize : Int) < a + count) :
    m.readBlock a count = .error (.fault (.outOfRange .data (a + count - 1))) := by
  rw [readBlock, check_of_overrun ha h]
  rfl

/-! ## Memories that agree -/

/-- Another memory holds the same bytes at the addresses of a set. -/
def AgreeOn (s : Nat → Prop) (m k : Memory) : Prop :=
  ∀ a, s a → k.byte a = m.byte a

section Agree

variable {s : Nat → Prop} {m k : Memory}

theorem AgreeOn.poke (h : AgreeOn s m k) (start : Nat) (bytes : List Byte) :
    AgreeOn s (m.poke start bytes) (k.poke start bytes) := by
  intro a ha
  rw [byte_poke, byte_poke, h a ha]

theorem AgreeOn.reset (h : AgreeOn s m k) : AgreeOn s m.reset k.reset := by
  intro a ha
  rw [byte_reset, byte_reset, h a ha]

/-- A block within the set is the same in both. -/
theorem AgreeOn.slice (h : AgreeOn s m k) {start stop : Nat}
    (hs : ∀ a, start ≤ a → a < stop → s a) : k.slice start stop = m.slice start stop := by
  refine List.map_congr_left fun a ha => ?_
  obtain ⟨hstart, hstop⟩ := List.mem_range'_1.1 ha
  exact h a (hs a hstart (by omega))

end Agree

/-- Whether a program is loaded does not depend on what is in memory. -/
theorem load_cases (program : List Int) :
    (∃ reason, ∀ m : Memory, m.load program = .error reason) ∨
      ∃ bytes, ∀ m : Memory, m.load program = .ok (m.poke programStart bytes) := by
  -- the three checks look at the program only
  by_cases hempty : program.isEmpty
  · exact Or.inl ⟨_, fun m => if_pos hempty⟩
  · by_cases hlarge : programLimit < program.length
    · exact Or.inl ⟨_, fun m => (if_neg hempty).trans (if_pos hlarge)⟩
    · cases hb : Byte.ofInts program with
      | error z => exact Or.inl ⟨_, fun m => by rw [load, if_neg hempty, if_neg hlarge, hb]⟩
      | ok bytes => exact Or.inr ⟨bytes, fun m => by rw [load, if_neg hempty, if_neg hlarge, hb]⟩

end Memory

end Chip8
