import HackAssembler.Program.Survey
import HackAssembler.Source.Statement

/-!
# Assemblies: the instructions of a program, in place

The second pass reads each instruction under a complete symbol table and gives it the next address
of the instruction memory, which holds `maxAddress + 1` words.

* `assemble`       both passes; a fault of the first one comes before any of the second;
* `Assembly.binary`   the words, one text per instruction;
* `assembleText`   the words of a program given as one text.
-/

namespace HackAssembler

/-- an instruction, the line it was written on, and its address -/
structure Placed where
  line : Nat
  address : Word
  instruction : Instruction
  deriving DecidableEq, Repr

structure Assembly where
  table : SymbolTable
  code : List Placed

namespace Assembly

def place (t : SymbolTable) (line : Nat) : Line → Array Placed → Except Fault (Array Placed)
  | .blank, code => .ok code
  | .label _, code => .ok code
  | .instruction text, code =>
    if code.size ≤ maxAddress.toNat then
      match Instruction.parse t text with
      | .error f => .error f
      | .ok instruction => .ok (code.push ⟨line, .ofNat code.size, instruction⟩)
    else
      .error ⟨.outOfRange, toString code.size⟩

/-- places the instructions of a program whose symbols are known -/
def generate (t : SymbolTable) (lines : List String) : Except LocatedFault Assembly :=
  match walk (place t) 0 lines #[] with
  | .error f => .error f
  | .ok code => .ok ⟨t, code.toList⟩

def binary (a : Assembly) : List String := a.code.map (·.instruction.binary)

end Assembly

def assemble (lines : List String) : Except LocatedFault Assembly :=
  match survey lines with
  | .error f => .error f
  | .ok t => Assembly.generate t lines

/-- the lines of a text -/
def sourceLines (text : String) : List String := (lines text.toList).map String.ofList

def assembleText (text : String) : Except LocatedFault (List String) :=
  (assemble (sourceLines text)).map (·.binary)

end HackAssembler
