import Chip8.Instruction.Listing
import Chip8.Proofs.Machine.Cycle
import Chip8.Proofs.Memory.Program

/-!
# Listings and what is fetched

A listing reads a program two bytes at a time, and so does a machine that has the program loaded.
Both see the same words (`Machine.listing_of_init`): the entry of a listing at an address is the
word that is fetched there, and together the words hold every byte of the program except for a last
odd one.
-/

set_option autoImplicit false

namespace Chip8

/-! ## Words of two bytes -/

theorem Word.toNat_ofBytes (high low : Byte) :
    (Word.ofBytes high low).toNat = high.toNat * 256 + low.toNat := by
  have hhigh := high.toNat_lt
  have hlow := low.toNat_lt
  rw [Word.ofBytes, UInt16.toNat_ofNat']
  omega

/-- Joined neighbours are the word that they spell. -/
theorem Bits.or_bytes (high low : Byte) :
    Bits.or ((high.toNat : Int) * 256) low.toNat = (Word.ofBytes high low).toNat := by
  have hlow : low.toNat < 2 ^ 8 := low.toNat_lt
  have hor := Nat.two_pow_add_eq_or_of_lt hlow high.toNat
  rw [Word.toNat_ofBytes]
  show ((high.toNat * 256 ||| low.toNat : Nat) : Int) = _
  rw [Nat.mul_comm, show 256 = 2 ^ 8 from rfl, ← hor]

theorem ListingLine.ofPair_bytes (address : Int) (high low : Byte) :
    ListingLine.ofPair address high.toNat low.toNat =
      ⟨address, (Word.ofBytes high low).toNat, disassemble (Word.ofBytes high low).toNat⟩ := by
  rw [ListingLine.ofPair, Bits.or_bytes]

/-! ## Listings -/

/-- The line at an address that is moved on by a distance. -/
def ListingLine.shift (line : ListingLine) (distance : Int) : ListingLine :=
  { line with address := line.address + distance }

/-- The two bytes of a line's word, the most significant first. -/
def ListingLine.bytes (line : ListingLine) : List Int :=
  [line.opcode / 256, line.opcode % 256]

theorem ListingLine.bytes_ofPair (address : Int) (high low : Byte) :
    (ListingLine.ofPair address high.toNat low.toNat).bytes =
      [(high.toNat : Int), (low.toNat : Int)] := by
  have hlow := low.toNat_lt
  rw [ListingLine.ofPair_bytes, Word.toNat_ofBytes]
  simp only [ListingLine.bytes, List.cons.injEq, and_true]
  omega

theorem length_listing (origin : Int) : ∀ values : List Int,
    (listing origin values).length = values.length / 2
  | [] => rfl
  | [_] => (Nat.div_eq_of_lt Nat.one_lt_two).symm
  | _ :: _ :: rest => by
      have hrest := length_listing (origin + 2) rest
      rw [listing, List.length_cons, hrest, List.length_cons, List.length_cons]
      omega

/-- The line of the `i`th pair of neighbours. -/
theorem getElem?_listing (origin : Int) {values : List Int} {i : Nat} {high low : Int}
    (hhigh : values[2 * i]? = some high) (hlow : values[2 * i + 1]? = some low) :
    (listing origin values)[i]? = some (.ofPair (origin + 2 * i) high low) := by
  induction i generalizing origin values with
  | zero =>
      match values, hhigh, hlow with
      | _ :: _ :: rest, hhigh, hlow =>
          cases hhigh
          cases hlow
          simp [listing]
  | succ i ih =>
      match values, hhigh, hlow with
      | _ :: _ :: rest, hhigh, hlow =>
          have hline : (listing (origin + 2) rest)[i]? = _ := ih (origin + 2) hhigh hlow
          rw [listing, List.getElem?_cons_succ, hline]
          congr 2
          omega

/-- For another origin the addresses are moved, and nothing else. -/
theorem listing_shift (origin distance : Int) : ∀ values : List Int,
    listing (origin + distance) values =
      (listing origin values).map fun line => line.shift distance
  | [] => rfl
  | [_] => rfl
  | high :: low :: rest => by
      have hrest := listing_shift (origin + 2) distance rest
      have hnext : origin + distance + 2 = origin + 2 + distance := by omega
      rw [listing, listing, List.map_cons, hnext, hrest]
      rfl

/-- The bytes of the listed words are the program, except for a last odd one. -/
theorem bytes_listing (origin : Int) : ∀ program : List Byte,
    (listing origin (Byte.values program)).flatMap ListingLine.bytes =
      (Byte.values program).take (2 * (program.length / 2))
  | [] => rfl
  | [only] => by
      show [] = (Byte.values [only]).take (2 * (1 / 2))
      rw [Nat.div_eq_of_lt Nat.one_lt_two, List.take_zero]
  | high :: low :: rest => by
      have hcount : 2 * ((high :: low :: rest).length / 2) = 2 * (rest.length / 2) + 2 := by
        rw [List.length_cons, List.length_cons]
        omega
      have hrest := bytes_listing (origin + 2) rest
      rw [hcount]
      show (ListingLine.ofPair origin high.toNat low.toNat).bytes ++
        (listing (origin + 2) (Byte.values rest)).flatMap ListingLine.bytes = _
      rw [hrest, ListingLine.bytes_ofPair]
      rfl

/-! ## Fetching -/

namespace Machine

/-- The bytes of a loaded program. -/
theorem byte_withProgram (m : Machine) {program : List Byte} {i : Nat} {b : Byte}
    (hfits : program.length ≤ programLimit) (hb : program[i]? = some b) :
    (m.withProgram program).memory.byte (programStart + i) = b := by
  have hsize : programLimit = memorySize - programStart := rfl
  have hstart : programStart ≤ memorySize := by decide
  obtain ⟨hi, -⟩ := List.getElem?_eq_some_iff.1 hb
  show (m.memory.poke programStart program).byte (programStart + i) = b
  rw [Memory.byte_poke, if_pos (by omega), Nat.add_sub_cancel_left, hb]
  rfl

/-- A machine that points to two bytes of its program fetches the word that they spell. -/
theorem fetch_withProgram (m : Machine) {program : List Byte} {i : Nat} {high low : Byte}
    (hfits : program.length ≤ programLimit) (hhigh : program[i]? = some high)
    (hlow : program[i + 1]? = some low) :
    ({ m.withProgram program with pc := programStart + i } : Machine).fetch =
      .ok ({ m.withProgram program with pc := programStart + i + 2 }, .ofBytes high low) := by
  have hlimit : programLimit = 0xE00 := rfl
  have hstart : programStart = 0x200 := rfl
  obtain ⟨hi, -⟩ := List.getElem?_eq_some_iff.1 hlow
  have hpc : ((programStart : Int) + i).toNat = programStart + i := by omega
  have hword : ({ m.withProgram program with pc := programStart + i } : Machine).word =
      .ofBytes high low := by
    rw [word, hpc, byte_withProgram m hfits hhigh, Nat.add_assoc, byte_withProgram m hfits hlow]
  rw [← hword]
  apply fetch_of_lt
  · show (0 : Int) ≤ programStart + i
    omega
  · show (programStart + i : Int) < 0xFFF
    omega

/-- A program of 1 to 0xE00 bytes can be loaded, and its listing shows what is then fetched: the
listing has a line for every two bytes, the `i`th line has the address `0x200 + 2i`, and its word
is the one that a machine which points there fetches. For another origin only the addresses are
others, by the distance of the origins. The bytes of the words, in order, are the program without
a last odd byte. -/
theorem listing_of_init (m : Machine) {program : List Byte} (hnonempty : 1 ≤ program.length)
    (hfits : program.length ≤ 0xE00) :
    let values := Byte.values program
    ∃ loaded, m.init values = .ok loaded ∧
      (listing 0x200 values).length = program.length / 2 ∧
      (∀ i : Nat, i < program.length / 2 →
        ∃ w : Word, ({ loaded with pc := 0x200 + 2 * i } : Machine).fetch =
            .ok ({ loaded with pc := 0x200 + 2 * i + 2 }, w) ∧
          (listing 0x200 values)[i]? = some ⟨0x200 + 2 * i, w.toNat, disassemble w.toNat⟩) ∧
      (∀ origin, listing origin values =
        (listing 0x200 values).map fun line => line.shift (origin - 0x200)) ∧
      (listing 0x200 values).flatMap ListingLine.bytes =
        values.take (2 * (program.length / 2)) := by
  intro values
  have hlength : values.length = program.length := List.length_map _
  have haccepts : Memory.Accepts values := by
    refine ⟨?_, hlength ▸ hfits, fun z => Byte.isValue_of_mem_values⟩
    intro hnil
    rw [hnil] at hlength
    exact absurd hlength.symm (Nat.ne_of_gt hnonempty)
  have hloaded := m.init_of_accepts haccepts
  rw [Byte.ofNat_values] at hloaded
  refine ⟨_, hloaded, ?_, ?_, ?_, bytes_listing 0x200 program⟩
  · rw [length_listing, hlength]
  · intro i hi
    have hhigh := List.getElem?_eq_getElem (l := program) (i := 2 * i) (by omega)
    have hlow := List.getElem?_eq_getElem (l := program) (i := 2 * i + 1) (by omega)
    refine ⟨_, fetch_withProgram m hfits hhigh hlow, ?_⟩
    have hvalue {k : Nat} {b : Byte} (hb : program[k]? = some b) :
        values[k]? = some (b.toNat : Int) := by
      show (program.map fun b => (b.toNat : Int))[k]? = _
      rw [List.getElem?_map, hb]
      rfl
    rw [getElem?_listing 0x200 (hvalue hhigh) (hvalue hlow), ListingLine.ofPair_bytes]
  · intro origin
    have horigin : origin = 0x200 + (origin - 0x200) := by omega
    rw [← listing_shift, ← horigin]

/-- A program of five bytes: two words are listed and fetched, the fifth byte is left over. -/
theorem listing_of_init_odd :
    let program : List Byte := [0x60, 0x0A, 0xF0, 0x29, 0xD0]
    let values := Byte.values program
    listing 0x200 values = [⟨0x200, 0x600A, "LD V0, 0A"⟩, ⟨0x202, 0xF029, "LD F, V0"⟩] ∧
      ∃ loaded, (fresh .idle ⟨fun _ => 0, 0⟩).init values = .ok loaded ∧
        ∃ w : Word, ({ loaded with pc := 0x202 } : Machine).fetch =
            .ok ({ loaded with pc := 0x204 }, w) ∧
          (listing 0x200 values)[1]? = some ⟨0x202, w.toNat, disassemble w.toNat⟩ := by
  intro program values
  obtain ⟨loaded, hloaded, hlength, hlines, -, -⟩ :=
    @listing_of_init (fresh .idle ⟨fun _ => 0, 0⟩) program (by decide) (by decide)
  exact ⟨by decide +kernel, loaded, hloaded, hlines 1 (by decide)⟩

end Machine

end Chip8
