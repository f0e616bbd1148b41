import HackAssembler.Program.Walk
import HackAssembler.Source.Operand

/-!
# Surveys: the symbols of a program

The first pass binds each label to the number of instructions above it, and takes down every other
name that an instruction mentions.  When the walk is over, the names that are still unbound are the
variables; they get data cells in the order of their first mention.  So a label may be used above
the line that defines it.

* `survey`            the symbol table of a program;
* `Survey.allocate`   the variables, each with the line of its first mention.
-/

namespace HackAssembler

/-- the symbol that an instruction mentions; a compute statement mentions none -/
def mention? (text : String) : Except Fault (Option String) :=
  match operandText? text with
  | none => .ok none
  | some operand =>
    match Operand.parse operand with
    | .error f => .error f
    | .ok (.literal _) => .ok none
    | .ok (.symbol name) => .ok (some name)

/-- what is known of the lines walked so far -/
structure Survey where
  table : SymbolTable
  /-- the mentioned names, each with the line of its first mention -/
  mentions : Directory Nat
  /-- the number of instructions -/
  count : UInt32

namespace Survey

def empty : Survey := ⟨.empty, .empty, 0⟩

/-- a label stands for the address of the instruction after it, which must be one that an
instruction can carry -/
def addLabel (name : String) : Survey → Except Fault Survey
  | ⟨table, mentions, count⟩ =>
    if count ≤ maxAddress.toUInt32 then
      match table.add name ⟨.label, count.toUInt16⟩ with
      | .error f => .error f
      | .ok table => .ok ⟨table, mentions, count⟩
    else
      .error ⟨.outOfRange, name⟩

def addInstruction (line : Nat) (text : String) : Survey → Except Fault Survey
  | ⟨table, mentions, count⟩ =>
    match mention? text with
    | .error f => .error f
    | .ok none => .ok ⟨table, mentions, count + 1⟩
    | .ok (some name) => .ok ⟨table, mentions.insertIfNew name line, count + 1⟩

def step (line : Nat) : Line → Survey → Except Fault Survey
  | .blank, s => .ok s
  | .label name, s => s.addLabel name
  | .instruction text, s => s.addInstruction line text

/-- binds the names that are not bound yet to data cells -/
def allocate : List (String × Nat) → SymbolTable → Except LocatedFault SymbolTable
  | [], table => .ok table
  | (name, line) :: mentions, table =>
    if table.contains name then
      allocate mentions table
    else
      let (address, table) := table.takeVariable
      if address ≤ maxAddress then
        match table.add name ⟨.variable, address⟩ with
        | .error f => .error ⟨line, f⟩
        | .ok table => allocate mentions table
      else
        .error ⟨line, ⟨.outOfRange, name⟩⟩

/-! ## the steps as sequences -/

theorem addLabel_eq (name : String) (s : Survey) :
    s.addLabel name =
      if s.count ≤ maxAddress.toUInt32 then
        (s.table.add name ⟨.label, s.count.toUInt16⟩).bind fun t => .ok ⟨t, s.mentions, s.count⟩
      else
        .error ⟨.outOfRange, name⟩ := by
  obtain ⟨table, mentions, count⟩ := s
  rw [addLabel]
  cases table.add name ⟨.label, count.toUInt16⟩ <;> rfl

theorem addInstruction_eq (line : Nat) (text : String) (s : Survey) :
    s.addInstruction line text =
      (mention? text).bind fun m =>
        .ok ⟨s.table, m.elim s.mentions fun name => s.mentions.insertIfNew name line, s.count + 1⟩ := by
  obtain ⟨table, mentions, count⟩ := s
  rw [addInstruction]
  rcases mention? text with x | _ | name <;> rfl

end Survey

def survey (lines : List String) : Except LocatedFault SymbolTable :=
  match walk Survey.step 0 lines .empty with
  | .error f => .error f
  | .ok s => Survey.allocate s.mentions.toList s.table

end HackAssembler
