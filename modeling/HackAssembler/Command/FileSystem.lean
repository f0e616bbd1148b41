/-!
# A file system: what a run can read and write

A file system says what stands at each place.  A path is followed name by name, from the root or
from the current directory, and every name but the last must lead to a directory.  Paths and names
have a greatest length, in bytes.

* `FileFault`          what can go wrong with a file;
* `FileSystem.read`    the bytes of a file;
* `FileSystem.write`   makes a file or replaces its bytes; no other place changes
                       (`node?_set_of_ne`).
-/

namespace HackAssembler

inductive FileFault where
  | openFailed (path : String)
  | readFailed
  | createFailed (path : String)
  | writeFailed (path : String)
  deriving DecidableEq, Repr

def FileFault.message : FileFault → String
  | openFailed path => "Failed to open file: " ++ path
  | readFailed => "Failed to read line"
  | createFailed path => "Failed to create file: " ++ path
  | writeFailed path => "Failed to write file: " ++ path

/-- the names that lead from the root to a node -/
abbrev Place := List String

inductive Device where
  /-- takes every byte, and is empty when it is read -/
  | null
  /-- takes every byte, and comes to no end when it is read -/
  | zero
  /-- takes no byte, and comes to no end when it is read -/
  | full
  deriving DecidableEq, Repr

inductive Node where
  | file (bytes : ByteArray)
  | directory
  | device (device : Device)

structure FileSystem where
  /-- the current directory -/
  current : Place
  node? : Place → Option Node

namespace FileSystem

/-! ## paths -/

def maxPathBytes : Nat := 4095

def maxNameBytes : Nat := 255

/-- the parts of a path between its slashes -/
def pathParts : List Char → List (List Char)
  | [] => [[]]
  | c :: cs =>
    if c = '/' then
      [] :: pathParts cs
    else
      match pathParts cs with
      | [] => [[c]]
      | part :: parts => (c :: part) :: parts

/-- the place that `part` leads to from a directory -/
def enter (directory : Place) (part : List Char) : Place :=
  if part = [] ∨ part = ['.'] then
    directory
  else if part = ['.', '.'] then
    directory.dropLast
  else
    directory ++ [String.ofList part]

def follow (fs : FileSystem) : Place → List (List Char) → Option Place
  | place, [] => some place
  | place, part :: parts =>
    match fs.node? place with
    | some .directory =>
      if (String.ofList part).utf8ByteSize ≤ maxNameBytes then
        fs.follow (enter place part) parts
      else
        none
    | _ => none

/-- where a path leads; the last name need not exist -/
def resolve? (fs : FileSystem) (path : String) : Option Place :=
  if path.utf8ByteSize ≤ maxPathBytes then
    match path.toList with
    | [] => none
    | c :: cs => fs.follow (if c = '/' then [] else fs.current) (pathParts (c :: cs))
  else
    none

/-! ## reading and writing -/

def set (fs : FileSystem) (place : Place) (node : Node) : FileSystem :=
  { fs with node? := fun other => if other = place then some node else fs.node? other }

def read (fs : FileSystem) (path : String) : Except FileFault ByteArray :=
  match (fs.resolve? path).bind fs.node? with
  | some (.file bytes) => .ok bytes
  | some .directory => .error .readFailed
  | some (.device .null) => .ok .empty
  | some (.device .zero) => .error .readFailed
  | some (.device .full) => .error .readFailed
  | none => .error (.openFailed path)

def write (fs : FileSystem) (path : String) (bytes : ByteArray) : Except FileFault FileSystem :=
  match fs.resolve? path with
  | none => .error (.createFailed path)
  | some place =>
    match fs.node? place with
    | some .directory => .error (.createFailed path)
    | some (.device .full) => if bytes.isEmpty then .ok fs else .error (.writeFailed path)
    | some (.device _) => .ok fs
    | some (.file _) => .ok (fs.set place (.file bytes))
    | none => .ok (fs.set place (.file bytes))

@[simp] theorem node?_set_self (fs : FileSystem) (place : Place) (node : Node) :
    (fs.set place node).node? place = some node := if_pos rfl

theorem node?_set_of_ne (fs : FileSystem) {place other : Place} (h : other ≠ place)
    (node : Node) : (fs.set place node).node? other = fs.node? other := if_neg h

end FileSystem

end HackAssembler
