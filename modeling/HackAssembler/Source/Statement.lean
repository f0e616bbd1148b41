import HackAssembler.Instruction.Basic
import HackAssembler.Source.Operand
import HackAssembler.Symbol.Table
import HackAssembler.Text.Split

/-!
# Statements: instructions as they are written

A statement is `@operand` or `dest=comp;jump`, of which the destination and the jump may be
missing.  Reading it needs no symbol table; a table turns it into an instruction.

* `Fields`              the three parts of a compute statement, cut at the first `=` and at the
                        first `;` after it;
* `Statement.parse`     faults come in the order destination, computation, jump;
* `Statement.resolve`   looks up the symbol of an address statement;
* `Instruction.parse`   both in one.
-/

namespace HackAssembler

/-! ## fields -/

structure Fields where
  dest : Option String
  comp : String
  jump : Option String
  deriving DecidableEq, Repr

/-- what stands before the first `=`, if there is one, and the rest -/
def cutDestination (cs : List Char) : Option (List Char) × List Char :=
  match splitOnce? ['='] cs with
  | some (dest, rest) => (some dest, rest)
  | none => (none, cs)

/-- what stands before the first `;`, and what follows it, if there is one -/
def cutJump (cs : List Char) : List Char × Option (List Char) :=
  match splitOnce? [';'] cs with
  | some (comp, jump) => (comp, some jump)
  | none => (cs, none)

namespace Fields

/-- `;` belongs after `=`, and `=` occurs at most once -/
def misordered (dest : Option (List Char)) (rest : List Char) : Bool :=
  dest.any (·.contains ';') || rest.contains '='

def parse (text : String) : Except Fault Fields :=
  let (dest, rest) := cutDestination text.toList
  let (comp, jump) := cutJump rest
  if misordered dest rest then
    .error ⟨.malformedInstruction, text⟩
  else
    .ok
      { dest := dest.map fun cs => String.ofList (trim cs)
        comp := String.ofList (trim comp)
        jump := jump.map fun cs => String.ofList (trim cs) }

/-- no destination is the empty one, but one that is written must name a store -/
def destination (f : Fields) : Except Fault Destination :=
  match f.dest with
  | some text => (Destination.parse text).mapError fun _ => ⟨.unknownDestination, text⟩
  | none => .ok .none

def computation (f : Fields) : Except Fault Computation :=
  (Computation.parse f.comp).mapError fun _ => ⟨.unknownComputation, f.comp⟩

def jumpCondition (f : Fields) : Except Fault JumpCondition :=
  match f.jump with
  | some text => (JumpCondition.parse text).mapError fun _ => ⟨.unknownJump, text⟩
  | none => .ok .never

end Fields

/-! ## statements -/

inductive Statement where
  | address (operand : Operand)
  | compute (dest : Destination) (comp : Computation) (jump : JumpCondition)
  deriving DecidableEq, Repr

namespace Statement

def ofFields (f : Fields) : Except Fault Statement := do
  let dest ← f.destination
  let comp ← f.computation
  let jump ← f.jumpCondition
  return .compute dest comp jump

def parse (text : String) : Except Fault Statement :=
  match operandText? text with
  | some operand => (Operand.parse operand).map address
  | none => Fields.parse text >>= ofFields

/-- a symbol may be bound to an address that no instruction can carry -/
def resolve (t : SymbolTable) : Statement → Except Fault Instruction
  | address operand => do
    let value ← operand.resolve t
    (Instruction.ofAddress value).mapError fun _ => ⟨.outOfRange, operand.text⟩
  | compute dest comp jump => .ok (.compute dest comp jump)

end Statement

/-- the instruction that `text` stands for under a symbol table -/
def Instruction.parse (t : SymbolTable) (text : String) : Except Fault Instruction :=
  Statement.parse text >>= Statement.resolve t

end HackAssembler
