import Chip8.Journal
import Chip8.LoadError

/-!
# Program files

A program file holds the bytes of a program and nothing else. This module finds the file behind a
path in a tree of directories, in the way a system call does, and checks what was read: all bytes
that the file claims to have must be there, and there must be at least one and not too many.
-/

set_option autoImplicit false

namespace Chip8

/-- A file: its bytes, and the size that it claims to have if that is not their number. -/
structure StoredFile where
  bytes : List Byte
  claimedSize : Option Nat
  deriving DecidableEq, Repr

/-- The size that a file claims to have. -/
def StoredFile.size (f : StoredFile) : Nat :=
  f.claimedSize.getD f.bytes.length

/-- A place in a tree of files. -/
inductive Node where
  | file (contents : StoredFile)
  | directory (entries : List (String × Node))

namespace Node

/-- A directory without entries. -/
def emptyDirectory : Node :=
  directory []

/-- The entry of a given name in a list of entries. -/
def find? (name : String) : List (String × Node) → Option Node
  | [] => none
  | (other, node) :: rest => if other = name then some node else find? name rest

/-- The entries with one entry put in, in place of one of the same name. -/
def put (name : String) (node : Node) (entries : List (String × Node)) : List (String × Node) :=
  (name, node) :: entries.filter (·.1 ≠ name)

/-- The tree with a node put at the place that a list of names leads to. Where a name leads
nowhere or into a file, nothing changes. -/
def insert (tree : Node) (names : List String) (node : Node) : Node :=
  match names, tree with
  | [], _ => node
  | name :: rest, directory entries =>
    match rest, find? name entries with
    | [], _ => directory (put name node entries)
    | _, none => directory entries
    | _, some child => directory (put name (child.insert rest node) entries)
  | _ :: _, file contents => file contents

end Node

/-- The most bytes that a name may have. -/
def nameLimit : Nat := 255

/-- The most bytes that a path may have. -/
def pathLimit : Nat := 4095

namespace Path

/-- The names of a path. An empty name, which two slashes or a slash at the end make, stands for
the directory it is looked up in. -/
def names (path : String) : List String :=
  path.splitOn "/"

/-- The last name of a path. -/
def baseName (path : String) : String :=
  (names path).getLast?.getD path

/-- Follows names through the tree. `above` holds the directories that were passed on the way
down, the nearest first; above the root of the tree there is nothing to be found. -/
def follow (above : List Node) (here : Node) : List String → Except ReadError Node
  | [] => .ok here
  | name :: rest =>
    match here with
    | .file _ => .error .notDirectory
    | .directory entries =>
      if name = "" ∨ name = "." then follow above here rest
      else if name = ".." then
        match above with
        | [] => follow [] .emptyDirectory rest
        | parent :: higher => follow higher parent rest
      else if nameLimit < name.utf8ByteSize then .error .nameTooLong
      else
        match Node.find? name entries with
        | none => .error .missing
        | some child => follow (here :: above) child rest

/-- Reads the file behind a path. A path that starts with a slash leads out of the tree. -/
def read (tree : Node) (path : String) : Except ReadError StoredFile := do
  if path.isEmpty then throw .missing
  if pathLimit < path.utf8ByteSize then throw .nameTooLong
  let start := if path.startsWith "/" then Node.emptyDirectory else tree
  match ← follow [] start (names path) with
  | .file contents => return contents
  | .directory _ => throw .isDirectory

end Path

namespace Rom

/-- The program in a file that was read from a path. -/
def check (path : String) (f : StoredFile) : Except LoadError (List Byte) :=
  if f.bytes.length < f.size then .error (.truncated path)
  else if f.bytes.isEmpty then .error (.empty (some path))
  else if programLimit < f.bytes.length then
    .error (.tooLarge f.bytes.length programLimit (some path))
  else .ok f.bytes

/-- The program in the file behind a path. -/
def load (tree : Node) (path : String) : Except LoadError (List Byte) :=
  if path.contains '\x00' then .error (.notAPath path)
  else
    match Path.read tree path with
    | .error reason => .error (.unreadable path reason)
    | .ok contents => check path contents

/-- What loading a file notes, given how it ended. -/
def entries (path : String) : Except LoadError (List Byte) → List Entry
  | .error _ => [.readingFile path]
  | .ok bytes => [.readingFile path, .fileRead bytes.length (Path.baseName path)]

end Rom

end Chip8
