import HackAssembler.Instruction.Text
import HackAssembler.Program.Assembly

/-!
# Reports: what a run shows of a program

* `diagnostic`      what went wrong, and the source line it went wrong on;
* `symbolListing`   the names a program added, with their addresses;
* `listing`         its source lines beside the words they became.

A listing has a row for each source line, between a header that names the source and a footer.  A
row shows the number of its line and its comment; the row of an instruction shows the address, the
word and the instruction, that of a label its name.

The code is in the order of its lines, so the rows take it from the front: `takeAt` hands out the
instruction placed on a line when the walk gets there.
-/

namespace HackAssembler

/-! ## diagnostics -/

def errorRow (message : String) : List Span :=
  [⟨{ color := some .red, weight := .bold }, "error"⟩, .plain (": " ++ message)]

/-- an error with its place; a line that does not exist is shown empty -/
def diagnostic (message file : String) (lines : List String) (line : Nat) : List (List Span) :=
  let number := toString (line + 1)
  [errorRow message,
    [.plain "     ", .colored .blue "-->", .plain " ",
      ⟨{ underlined := true }, file ++ ":" ++ number⟩],
    [.plain "      ", .colored .blue "|"],
    [.plain " ", .colored .blue (alignRight 4 number ++ " |"), .plain " ",
      .plain (lines[line]?.getD "")],
    [.plain "      ", .colored .blue "|"]]

/-! ## symbols -/

def SymbolKind.span : SymbolKind → Span
  | .label => .colored .green "label"
  | .variable => .colored .cyan "var  "
  | .predefined => .colored .yellow "const"

/-- the address in both bases -/
def symbolRow (name : String) (b : Binding) : List Span :=
  [.plain "  ", b.kind.span,
    .plain (" 0x" ++ b.address.hex ++ " " ++ alignRight 5 (toString b.address.toNat) ++ "  "
      ++ name)]

def symbolListing (t : SymbolTable) : List (List Span) :=
  t.entries.map fun (name, b) => symbolRow name b

/-! ## listings -/

namespace Listing

/-- what a row shows besides its number and comment -/
inductive Content where
  | word (placed : Placed)
  | label (name : String)
  | empty
  deriving DecidableEq, Repr

structure Row where
  /-- counted from one -/
  number : Nat
  content : Content
  comment : Option String
  deriving DecidableEq, Repr

/-! ## rows -/

/-- the first of the code, if it was placed on `line`, and the rest -/
def takeAt (line : Nat) : List Placed → Option Placed × List Placed
  | [] => (none, [])
  | placed :: code => if placed.line = line then (some placed, code) else (none, placed :: code)

def content (raw : String) (placed? : Option Placed) : Content :=
  match Line.parse raw, placed? with
  | .ok (.instruction _), some placed => .word placed
  | .ok (.label name), _ => .label name
  | _, _ => .empty

def row (line : Nat) (raw : String) (placed? : Option Placed) : Row :=
  ⟨line + 1, content raw placed?, commentOf raw⟩

/-- `acc` holds the rows above, the last one first -/
def rowsFrom (acc : List Row) (line : Nat) : List String → List Placed → List Row
  | [], _ => acc.reverse
  | raw :: raws, code =>
    let (placed?, rest) := takeAt line code
    rowsFrom (row line raw placed? :: acc) (line + 1) raws rest

def rows (lines : List String) (code : List Placed) : List Row := rowsFrom [] 0 lines code

theorem rowsFrom_eq (acc : List Row) (line : Nat) (raws : List String) (code : List Placed) :
    rowsFrom acc line raws code = acc.reverse ++ rowsFrom [] line raws code := by
  induction raws generalizing acc line code with
  | nil => simp [rowsFrom]
  | cons raw raws ih =>
    show rowsFrom (_ :: acc) _ _ _ = acc.reverse ++ rowsFrom [_] _ _ _
    rw [ih, ih [_], List.reverse_cons, List.append_assoc]
    rfl

theorem length_rowsFrom (acc : List Row) (line : Nat) (raws : List String) (code : List Placed) :
    (rowsFrom acc line raws code).length = acc.length + raws.length := by
  induction raws generalizing acc line code with
  | nil => simp [rowsFrom]
  | cons raw raws ih =>
    show (rowsFrom (_ :: acc) _ _ _).length = _
    rw [ih, List.length_cons, List.length_cons, Nat.add_right_comm, Nat.add_assoc]

/-! ## the written form -/

/-- the column of addresses and words -/
def wordWidth : Nat := 27

/-- the column of the source -/
def sourceWidth : Nat := 53

def commentSpans : Option String → List Span
  | some text => [⟨{ weight := .dim }, "//" ++ text⟩]
  | none => []

namespace Row

def numberColumn (r : Row) : String := "| " ++ alignRight 4 (toString r.number) ++ ":"

def spans (r : Row) : List Span :=
  match r.content with
  | .word placed =>
    [.plain ("[" ++ placed.address.hex ++ "] " ++ placed.instruction.binary ++ " "
        ++ r.numberColumn ++ "   ")]
      ++ placed.instruction.spans ++ [.plain " "] ++ commentSpans r.comment
  | .label name =>
    [.plain (alignRight wordWidth "" ++ r.numberColumn ++ " "),
        .colored .green ("(" ++ name ++ ")"), .plain " "]
      ++ commentSpans r.comment
  | .empty =>
    [.plain (alignRight wordWidth "" ++ r.numberColumn ++ " ")] ++ commentSpans r.comment

end Row

/-- the dashes after the path end where the footer does, if the path has one byte a character -/
def header (path : String) : String :=
  rule wordWidth ++ "+------[" ++ path ++ "]" ++ rule (sourceWidth - 8 - path.utf8ByteSize)

def footer : String := rule wordWidth ++ "+" ++ rule sourceWidth

end Listing

/-- the listing of `lines`, with the code they became -/
def listing (path : String) (lines : List String) (code : List Placed) : List (List Span) :=
  [.plain (Listing.header path)] :: (Listing.rows lines code).map (·.spans)
    ++ [[.plain Listing.footer]]

end HackAssembler
