import HackAssembler.Machine.MemoryMap

/-!
# Faults: what can be wrong with a field, and with a program

A field of an instruction has faults of its own.  A fault of a program is a cause and the piece of
the program it quotes.  A located fault adds the line it was found on, counted from zero; messages
count lines from one.
-/

namespace HackAssembler

/-! ## fields -/

inductive FieldFault where
  | unknownComputation (text : String)
  | unknownDestination (text : String)
  | emptyDestination
  | unknownJump (text : String)
  | addressTooLarge (value : Word)
  deriving DecidableEq, Repr

def FieldFault.message : FieldFault → String
  | unknownComputation text => "Unknown computation: `" ++ text ++ "`"
  | unknownDestination text => "Unknown destination: `" ++ text ++ "`"
  | emptyDestination => "Empty destination"
  | unknownJump text => "Unknown jump: `" ++ text ++ "`"
  | addressTooLarge value => "Value out of range: " ++ toString value.toNat ++ " > "
      ++ toString maxAddress.toNat

/-! ## programs -/

inductive Cause where
  | undefinedSymbol
  | invalidSymbol
  | redefinedLabel
  | malformedLabel
  | unknownComputation
  | unknownDestination
  | unknownJump
  | malformedInstruction
  | outOfRange
  deriving DecidableEq, Repr

structure Fault where
  cause : Cause
  quoted : String
  deriving DecidableEq, Repr

def Fault.message (f : Fault) : String :=
  match f.cause with
  | .undefinedSymbol => "Undefined symbol: `" ++ f.quoted ++ "`"
  | .invalidSymbol => "Invalid symbol name: `" ++ f.quoted ++ "`"
  | .redefinedLabel => "Re-defined label: `" ++ f.quoted ++ "`"
  | .malformedLabel => "Malformed label: `" ++ f.quoted ++ "`"
  | .unknownComputation => "Unknown computation: `" ++ f.quoted ++ "`"
  | .unknownDestination => "Unknown destination: `" ++ f.quoted ++ "`"
  | .unknownJump => "Unknown jump: `" ++ f.quoted ++ "`"
  | .malformedInstruction => "Syntax Error: Cannot parse `" ++ f.quoted ++ "`"
  | .outOfRange => "Value out of range: `" ++ f.quoted ++ "` (max 32767)"

/-- a fault of line `line` of a program -/
structure LocatedFault where
  line : Nat
  fault : Fault
  deriving DecidableEq, Repr

/-- a message about line `line` -/
def onLine (line : Nat) (message : String) : String :=
  "line " ++ toString (line + 1) ++ ": " ++ message

def LocatedFault.message (f : LocatedFault) : String := onLine f.line f.fault.message

end HackAssembler
