/-!
# Load errors

Why a program was not loaded. A program that comes from a file carries the file's path.
-/

set_option autoImplicit false

namespace Chip8

/-- Why the bytes behind a path could not be read. -/
inductive ReadError where
  | missing
  | isDirectory
  | notDirectory
  | nameTooLong
  | other (details : String)
  deriving DecidableEq, Repr

/-- The system's wording of a read error. -/
def ReadError.message : ReadError → String
  | .missing => "No such file or directory"
  | .isDirectory => "Is a directory"
  | .notDirectory => "Not a directory"
  | .nameTooLong => "File name too long"
  | .other details => details

/-- Why a program was not loaded. -/
inductive LoadError where
  | unreadable (path : String) (reason : ReadError)
  | truncated (path : String)
  | empty (path : Option String)
  | tooLarge (size limit : Nat) (path : Option String)
  | notAByte (value : Int)
  | notAPath (path : String)
  deriving DecidableEq, Repr

/-- The text of a load error. -/
def LoadError.message : LoadError → String
  | .unreadable path reason => "Could not read ROM " ++ path ++ ": " ++ reason.message
  | .truncated path => "Could not completely read ROM " ++ path
  | .empty _ => "Program is empty"
  | .tooLarge size limit _ =>
    "Program is " ++ toString size ++ " bytes, limit is " ++ toString limit
  | .notAByte value => "Program holds " ++ toString value ++ ", which is no byte"
  | .notAPath path => "Not a path: " ++ path

end Chip8
