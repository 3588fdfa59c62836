import Chip8.Text.Hex

/-!
# Faults and misfits

What can go wrong when the machine touches memory, the display or the return stack. A *fault* is
what a program can run into by itself; it has a text, and the engine knows how to answer it. A
*misfit* is a value that does not fit where it has to go. Only direct access can bring one about:
by asking for it, or by setting a register, a counter or the stack's depth to a value that no
program would have put there.
-/

set_option autoImplicit false

namespace Chip8

/-- The purpose of a memory access. -/
inductive Access where
  | data
  | sprite
  | fetch
  deriving DecidableEq, Repr

/-- The wording of an access in a message. -/
def Access.name : Access → String
  | .data => "memory access"
  | .sprite => "sprite read"
  | .fetch => "PC"

/-- What a program can run into. -/
inductive Fault where
  | outOfRange (access : Access) (address : Int)
  | stackOverflow (site : Int)
  | stackUnderflow (site : Int)
  deriving DecidableEq, Repr

/-- The text of a fault. -/
def Fault.message : Fault → String
  | .outOfRange access address => access.name ++ " out of range: 0x" ++ Hex.padded 4 address
  | .stackOverflow site => "Stack overflow on CALL at 0x" ++ Hex.padded 3 site
  | .stackUnderflow site => "Stack underflow on RET at 0x" ++ Hex.padded 3 site

/-- A value that does not fit where it has to go. -/
inductive Misfit where
  /-- A return address that no stack slot holds. -/
  | notAWord (value : Int)
  /-- A value that no memory cell holds. -/
  | notAByte (value : Int)
  /-- A position that no coordinate of the display has. -/
  | notACoordinate (value : Int)
  /-- A number of sprite rows that does not go with the sprite's bytes. -/
  | notAHeight (rows : Int)
  /-- A sprite on a display without cells. -/
  | noCells
  /-- A position at which the return stack has no slot. -/
  | noSlot (position : Int)
  /-- A position so far beyond the return stack that it fits 64 bits only without a sign. -/
  | slotTooFar (position : Int)
  deriving DecidableEq, Repr

/-- Why an instruction or a direct access came to no end. -/
inductive Failure where
  | fault (reason : Fault)
  | misfit (reason : Misfit)
  deriving DecidableEq, Repr

end Chip8
