import Chip8.Journal
import Chip8.Proofs.Instruction.Disassembly

/-!
# The trace in a journal

One kind of entry tells of an instruction that has been fetched. Its line can be told from all
other lines (`Entry.isTraceLine_print`), so that the trace can be found again in what is written.

The first switch of a journal makes a printer and attaches it; later switches find it in place. So
a journal that has been switched any number of times is orderly (`Journal.orderly_switched`): it
has one printer at most, and writes each entry that it takes once (`Journal.Orderly.write_eq`). A
journal and what it has written make a `Record`. What is added to the trace of a record depends on
whether the journal is on, and on nothing that was written before (`Record.traced_write`).
-/

set_option autoImplicit false

namespace Chip8

/-! ## Lines of the trace -/

/-- The fetched instruction that an entry tells of: its address and its word. -/
def Entry.fetch? : Entry → Option (Int × Word)
  | .executing address w => some (address, w)
  | _ => none

/-- The instructions that some entries tell of. -/
def fetchesOf (entries : List Entry) : List (Int × Word) :=
  entries.filterMap Entry.fetch?

theorem fetchesOf_append (first rest : List Entry) :
    fetchesOf (first ++ rest) = fetchesOf first ++ fetchesOf rest :=
  List.filterMap_append

/-- How a line of the trace begins. -/
def traceHead : String := "[DEBUG] chip8.cpu: "

/-- The line of a fetched instruction: its address, its word and the word's text. -/
def traceLine (fetch : Int × Word) : String :=
  traceHead ++ (Hex.padded 3 fetch.1 ++ ": [" ++ Hex.padded 4 fetch.2.toNat ++ "] " ++
    disassemble fetch.2.toNat)

/-- What follows a head in a text, if the text begins with it. -/
def Text.behind? : List Char → List Char → Option (List Char)
  | [], cs => some cs
  | h :: head, c :: cs => if h = c then behind? head cs else none
  | _ :: _, [] => none

/-- Whether a text begins like a hexadecimal numeral. -/
def Hex.begins (cs : List Char) : Bool :=
  cs.head?.any fun c => c = '-' || (digit? c).isSome

/-- Whether a line belongs to the trace: a numeral follows the head of such a line. -/
def isTraceLine (line : String) : Bool :=
  (Text.behind? traceHead.toList line.toList).any Hex.begins

theorem Text.behind?_append (head cs : List Char) : behind? head (head ++ cs) = some cs := by
  induction head with
  | nil => rfl
  | cons c head ih => rw [List.cons_append, behind?, if_pos rfl, ih]

theorem isTraceLine_append (text : String) :
    isTraceLine (traceHead ++ text) = Hex.begins text.toList := by
  rw [isTraceLine, String.toList_append, Text.behind?_append, Option.any_some]

theorem Hex.begins_fixed (w n : Nat) (hw : 0 < w) (rest : List Char) :
    begins ((fixed w n).toList ++ rest) = true := by
  rw [fixed, String.toList_ofList]
  cases hd : fixedDigits w n with
  | nil =>
      have hlength := length_fixedDigits w n
      rw [hd] at hlength
      exact absurd hlength (Nat.ne_of_lt hw)
  | cons c cs =>
      obtain ⟨d, rfl⟩ := eq_digit_of_mem_fixedDigits (hd ▸ List.mem_cons_self)
      rw [List.cons_append, begins, List.head?_cons, Option.any_some, digit?_digit,
        Option.isSome_some, Bool.or_true]

theorem Hex.begins_padded (w : Nat) (z : Int) (rest : List Char) :
    begins ((padded w z).toList ++ rest) = true := by
  have hwidth : 0 < width z.natAbs := Nat.succ_pos _
  unfold padded
  dsimp only
  split
  · rw [String.toList_append, List.append_assoc]
    rfl
  · exact begins_fixed _ _ (by omega) rest

namespace Entry

/-- An entry of the processor that only matters for debugging has the head of the trace. -/
theorem print_of_debug {e : Entry} (hs : e.severity = .debug) (hc : e.source = "chip8.cpu") :
    e.print = traceHead ++ e.text := by
  have hhead : "[" ++ Severity.debug.name ++ "] " ++ "chip8.cpu" ++ ": " = traceHead := by decide
  rw [print, hs, hc, hhead]

/-- What is noted about a fetched instruction is its line. -/
theorem print_of_fetch? {e : Entry} {fetch : Int × Word} (h : e.fetch? = some fetch) :
    e.print = traceLine fetch := by
  cases e with
  | executing address w =>
      cases h
      rw [print_of_debug rfl rfl, traceLine, disassemble_word]
      rfl
  | _ => cases h

/-- A line belongs to the trace exactly if it is that of a fetched instruction. -/
theorem isTraceLine_print (e : Entry) : isTraceLine e.print = e.fetch?.isSome := by
  cases e with
  | executing address w =>
      rw [print_of_fetch? rfl, traceLine, isTraceLine_append, String.append_assoc,
        String.append_assoc, String.append_assoc, String.toList_append, Hex.begins_padded]
      rfl
  | sysIgnored target | awaitingKey x | keyDelivered k x =>
      -- the text begins with a letter that is no digit
      rw [print_of_debug rfl rfl, isTraceLine_append, text.eq_def]
      dsimp only
      simp only [String.toList_append, List.append_assoc]
      rfl
  | _ =>
      -- another severity or another source
      simp [isTraceLine, traceHead, Text.behind?, print, severity, Severity.name, source, fetch?]

end Entry

/-! ## Printers -/

/-- Whether an outlet makes lines. -/
def Outlet.isPrinter : Outlet → Bool
  | nowhere => false
  | printer _ => true

namespace Journal

/-- The printer that the switch remembers is attached, once, and no other one is; and everything is
taken only if there is one. -/
structure Orderly (j : Journal) : Prop where
  printers : j.outlets.filter Outlet.isPrinter = (j.printer.map Outlet.printer).toList
  opened : j.isOn = true → j.printer ≠ none

theorem orderly_closed : closed.Orderly where
  printers := rfl
  opened := nofun

/-- A printer is attached by the first switch, and by no later one. -/
theorem Orderly.install {j : Journal} (h : j.Orderly) :
    j.install.printer ≠ none ∧
      j.install.outlets.filter Outlet.isPrinter =
        (j.install.printer.map Outlet.printer).toList := by
  have hprinters := h.printers
  unfold Journal.install
  cases hp : j.printer with
  | some number =>
      rw [hp] at hprinters
      dsimp only
      rw [hp]
      exact ⟨nofun, hprinters⟩
  | none =>
      rw [hp] at hprinters
      -- no printer at all was attached before, hence not this one
      have hnew : Outlet.printer j.made ∉ j.outlets := by
        intro hmem
        have hfilter : Outlet.printer j.made ∈ j.outlets.filter Outlet.isPrinter :=
          List.mem_filter.2 ⟨hmem, rfl⟩
        rw [hprinters] at hfilter
        cases hfilter
      dsimp only [attach]
      rw [if_neg hnew]
      refine ⟨nofun, ?_⟩
      rw [List.filter_append, hprinters]
      rfl

theorem Orderly.switch {j : Journal} (h : j.Orderly) (on : Bool) : (j.switch on).Orderly where
  printers := h.install.2
  opened _ := h.install.1

/-- The journal after it has been switched a number of times. -/
def switched (switches : List Bool) : Journal :=
  switches.foldl switch closed

theorem orderly_switched (switches : List Bool) : (switched switches).Orderly := by
  suffices h : ∀ j : Journal, j.Orderly → (switches.foldl switch j).Orderly from
    h closed orderly_closed
  induction switches with
  | nil => exact fun _ h => h
  | cons on rest ih => exact fun j h => ih (j.switch on) (h.switch on)

/-- The lines of an entry come from the printers. -/
theorem flatMap_lines (outlets : List Outlet) (e : Entry) :
    outlets.flatMap (·.lines e) = (outlets.filter Outlet.isPrinter).map fun _ => e.print := by
  induction outlets with
  | nil => rfl
  | cons o rest ih =>
      rw [List.flatMap_cons, ih]
      cases o <;> rfl

/-- An orderly journal with a printer writes each entry that it takes, once; without a printer it
writes nothing. -/
theorem Orderly.write_eq {j : Journal} (h : j.Orderly) (entries : List Entry) :
    j.write entries =
      if j.printer.isSome then (entries.filter fun e => j.takes e.severity).map Entry.print
      else [] := by
  have hlines (e : Entry) :
      j.outlets.flatMap (·.lines e) = if j.printer.isSome then [e.print] else [] := by
    rw [flatMap_lines, h.printers]
    cases j.printer <;> rfl
  simp only [write, hlines]
  cases j.printer with
  | none => exact List.flatMap_eq_nil_iff.2 fun _ _ => rfl
  | some number => exact List.map_eq_flatMap.symm

end Journal

/-! ## Writing -/

namespace Journal

theorem takes_of_isOn {j : Journal} (h : j.isOn = true) (s : Severity) : j.takes s = true := by
  have hleast : j.least.rank ≤ 0 := of_decide_eq_true h
  exact decide_eq_true (Nat.le_trans hleast (Nat.zero_le _))

/-- The trace is taken if everything is. -/
theorem takes_of_fetch? (j : Journal) {e : Entry} {fetch : Int × Word}
    (h : e.fetch? = some fetch) : j.takes e.severity = j.isOn := by
  cases e with
  | executing address w => rfl
  | _ => cases h

/-- The trace among the lines of some entries: the fetches that they tell of. -/
theorem filter_map_print (entries : List Entry) :
    (entries.map Entry.print).filter isTraceLine = (fetchesOf entries).map traceLine := by
  induction entries with
  | nil => rfl
  | cons e rest ih =>
      have htrace := e.isTraceLine_print
      rw [List.map_cons, List.filter_cons, ih, htrace, fetchesOf, fetchesOf]
      cases hf : e.fetch? with
      | none => rw [List.filterMap_cons_none hf]; rfl
      | some fetch => rw [List.filterMap_cons_some hf, Entry.print_of_fetch? hf]; rfl

/-- The trace in what an orderly journal writes for some entries: the fetches that they tell of,
each one once, if the journal is on, and otherwise nothing. -/
theorem Orderly.filter_write {j : Journal} (h : j.Orderly) (entries : List Entry) :
    (j.write entries).filter isTraceLine =
      if j.isOn then (fetchesOf entries).map traceLine else [] := by
  rw [h.write_eq]
  cases hon : j.isOn with
  | true =>
      have hall : (entries.filter fun e => j.takes e.severity) = entries :=
        List.filter_eq_self.2 fun e _ => takes_of_isOn hon e.severity
      rw [if_pos (Option.isSome_iff_ne_none.2 (h.opened hon)), hall, filter_map_print]
      rfl
  | false =>
      -- what is taken is no fetch
      have hnone : fetchesOf (entries.filter fun e => j.takes e.severity) = [] := by
        refine List.filterMap_eq_nil_iff.2 fun e hmem => ?_
        cases hf : e.fetch? with
        | none => rfl
        | some fetch =>
            have htaken := (List.mem_filter.1 hmem).2
            rw [j.takes_of_fetch? hf, hon] at htaken
            cases htaken
      split
      · rw [filter_map_print, hnone]
        rfl
      · rfl

end Journal

/-- A journal and the lines that it has written, the newest first. -/
structure Record where
  journal : Journal
  lines : List String

namespace Record

/-- The record after some entries, the oldest first. -/
def write (r : Record) (entries : List Entry) : Record :=
  { r with lines := (r.journal.write entries).reverse ++ r.lines }

theorem write_append (r : Record) (first rest : List Entry) :
    r.write (first ++ rest) = (r.write first).write rest := by
  simp only [write, Journal.write, List.filter_append, List.flatMap_append, List.reverse_append,
    List.append_assoc]

/-- The record after its journal has been switched, which is noted. -/
def switch (r : Record) (on : Bool) : Record :=
  { r with journal := r.journal.switch on }.write [.switched on]

/-- The lines of the trace, the oldest first. -/
def traced (r : Record) : List String :=
  r.lines.reverse.filter isTraceLine

/-- What some entries add to the trace. -/
theorem traced_write {r : Record} (h : r.journal.Orderly) (entries : List Entry) :
    (r.write entries).traced = r.traced ++
      if r.journal.isOn then (fetchesOf entries).map traceLine else [] := by
  rw [traced, write, List.reverse_append, List.reverse_reverse, List.filter_append,
    h.filter_write]
  rfl

/-- To switch the journal adds nothing to the trace. -/
theorem traced_switch {r : Record} (h : r.journal.Orderly) (on : Bool) :
    (r.switch on).traced = r.traced := by
  rw [switch, traced_write (h.switch on)]
  cases on <;> exact List.append_nil _

end Record

end Chip8
