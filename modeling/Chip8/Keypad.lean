/-!
# Keypad

Sixteen keys that are up or down, and a queue of the keys that went down. A key that is pressed
while it is down joins the queue no second time. The queue is what an instruction that waits for a
key reads, so that it gets the next press and not a key that happens to be held.
-/

set_option autoImplicit false

namespace Chip8

/-- One of the keys `0` to `F`. -/
abbrev Key := Fin 16

/-- The key with a given number, if there is one. -/
def Key.ofInt? (z : Int) : Option Key :=
  if h : 0 ≤ z ∧ z < 16 then some ⟨z.toNat, by omega⟩ else none

/-- The number of a key that the keypad does not have. -/
structure NoSuchKey where
  key : Int
  deriving DecidableEq, Repr

/-- The text that names a missing key. -/
def NoSuchKey.message (e : NoSuchKey) : String :=
  "no such key: " ++ toString e.key

/-- The keys that are down, and those that went down since, oldest first. -/
structure Keypad where
  held : Vector Bool 16
  presses : List Key
  deriving DecidableEq

namespace Keypad

/-- A keypad with every key up and no press in the queue. -/
def idle : Keypad :=
  ⟨Vector.replicate 16 false, []⟩

/-- The keypad after a key has been pressed. -/
def press (p : Keypad) (k : Key) : Keypad :=
  if p.held[k] then p else ⟨p.held.set k true, p.presses ++ [k]⟩

/-- The keypad after a key has been let go. -/
def release (p : Keypad) (k : Key) : Keypad :=
  { p with held := p.held.set k false }

/-- Which keys of a keypad are down. -/
def down (p : Keypad) (k : Key) : Bool :=
  p.held[k]

theorem down_set (p : Keypad) (presses : List Key) (k j : Key) (b : Bool) :
    (⟨p.held.set k b, presses⟩ : Keypad).down j = if k = j then b else p.down j := by
  show (p.held.set k.val b k.isLt)[j.val] = if k = j then b else p.held[j.val]
  rw [Vector.getElem_set]
  simp only [Fin.ext_iff]

/-- Whether the key with a given number is down; a missing key never is. -/
def isPressed (p : Keypad) (key : Int) : Bool :=
  match Key.ofInt? key with
  | none => false
  | some k => p.held[k]

/-- The keypad with its queue emptied. -/
def flush (p : Keypad) : Keypad :=
  { p with presses := [] }

/-- Takes the oldest press from the queue. -/
def poll (p : Keypad) : Keypad × Option Key :=
  match p.presses with
  | [] => (p, none)
  | k :: rest => ({ p with presses := rest }, some k)

end Keypad

end Chip8
