/-!
# The path of the output

Unless it is given, the output stands beside the input, under the same name with the extension
`hack`.  A dot that starts a name starts no extension, and slashes and `/.` at the end of a path
are not part of its name.

The extension of the input is taken off first, its dot left; then `hack` takes the place of the
extension of what remains.  So the dot decides where the name is cut, and what remains of `..a` is
`..`: no name of a file, and left alone.

Paths are looked at from their end, so all functions but the last take them in reverse.
-/

namespace HackAssembler

/-- the path without the slashes and dots after its last name -/
def dropTail : List Char → List Char
  | '/' :: cs => dropTail cs
  | '.' :: '/' :: cs => dropTail cs
  | cs => cs

def lastName (path : List Char) : List Char := (dropTail path).takeWhile (· ≠ '/')

/-- what stands before the last name, with the slash between them -/
def beforeName (path : List Char) : List Char := (dropTail path).dropWhile (· ≠ '/')

/-- `.` and `..` are directories, not names -/
def isFileName (name : List Char) : Bool := name ≠ [] ∧ name ≠ ['.'] ∧ name ≠ ['.', '.']

/-- the stem of a name and what follows its last dot, if that dot does not start the name -/
def cutExtension (name : List Char) : List Char × List Char :=
  match name.dropWhile (· ≠ '.') with
  | '.' :: c :: cs => (c :: cs, name.takeWhile (· ≠ '.'))
  | _ => (name, [])

def stem (name : List Char) : List Char := (cutExtension name).1

def extension (name : List Char) : List Char :=
  if isFileName name then (cutExtension name).2 else []

/-- the path with `hack` for the extension of its last name, if it has a last name -/
def withHack (path : List Char) : List Char :=
  if isFileName (lastName path) then
    "hack".toList.reverse ++ '.' :: stem (lastName path) ++ beforeName path
  else
    path

def defaultOutput (input : String) : String :=
  let path := input.toList.reverse
  String.ofList (withHack (path.drop (extension (lastName path)).length)).reverse

end HackAssembler
