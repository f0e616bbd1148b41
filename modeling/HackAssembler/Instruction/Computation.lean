import HackAssembler.Fault
import HackAssembler.Text.Blank

/-!
# Computations: the twenty-eight functions of the ALU

The first input of the ALU is register `D`.  The second is register `A` or the memory word that
`A` addresses, which the highest bit of the code selects; the other six bits steer the ALU.

* `Computation.all`        every computation once, in the order of the reference card;
* `ofCode?_code`, `ofMnemonic?_mnemonic`   a computation is known by its code and by its mnemonic.
-/

namespace HackAssembler

/-- the second input of the ALU: the register, or the word it addresses -/
inductive Selector where
  | a
  | m
  deriving DecidableEq, Repr

def Selector.letter : Selector → String
  | a => "A"
  | m => "M"

inductive Computation where
  | zero
  | one
  | minusOne
  | d
  | notD
  | negD
  | succD
  | predD
  | second (s : Selector)
  | notSecond (s : Selector)
  | negSecond (s : Selector)
  | succSecond (s : Selector)
  | predSecond (s : Selector)
  | sum (s : Selector)
  | dMinus (s : Selector)
  | minusD (s : Selector)
  | and (s : Selector)
  | or (s : Selector)
  deriving DecidableEq, Repr

namespace Computation

/-- a computation that reads `D` alone, or nothing, selects the register -/
def selector : Computation → Selector
  | zero | one | minusOne | d | notD | negD | succD | predD => .a
  | second s | notSecond s | negSecond s | succSecond s | predSecond s => s
  | sum s | dMinus s | minusD s | and s | or s => s

/-- the six control bits of the ALU -/
def control : Computation → BitVec 6
  | zero => 0b101010#6
  | one => 0b111111#6
  | minusOne => 0b111010#6
  | d => 0b001100#6
  | notD => 0b001101#6
  | negD => 0b001111#6
  | succD => 0b011111#6
  | predD => 0b001110#6
  | second _ => 0b110000#6
  | notSecond _ => 0b110001#6
  | negSecond _ => 0b110011#6
  | succSecond _ => 0b110111#6
  | predSecond _ => 0b110010#6
  | sum _ => 0b000010#6
  | dMinus _ => 0b010011#6
  | minusD _ => 0b000111#6
  | and _ => 0b000000#6
  | or _ => 0b010101#6

def code (c : Computation) : BitVec 7 :=
  BitVec.ofBool (c.selector == .m) ++ c.control

def mnemonic : Computation → String
  | zero => "0"
  | one => "1"
  | minusOne => "-1"
  | d => "D"
  | notD => "!D"
  | negD => "-D"
  | succD => "D+1"
  | predD => "D-1"
  | second s => s.letter
  | notSecond s => "!" ++ s.letter
  | negSecond s => "-" ++ s.letter
  | succSecond s => s.letter ++ "+1"
  | predSecond s => s.letter ++ "-1"
  | sum s => "D+" ++ s.letter
  | dMinus s => "D-" ++ s.letter
  | minusD s => s.letter ++ "-D"
  | and s => "D&" ++ s.letter
  | or s => "D|" ++ s.letter

def all : List Computation :=
  [zero, one, minusOne, d, second .a, second .m, notD, notSecond .a, notSecond .m,
    negD, negSecond .a, negSecond .m, succD, succSecond .a, succSecond .m,
    predD, predSecond .a, predSecond .m, sum .a, sum .m, dMinus .a, dMinus .m,
    minusD .a, minusD .m, and .a, and .m, or .a, or .m]

/-- the computation a field of any width stands for -/
def ofCode? {n : Nat} (field : BitVec n) : Option Computation :=
  all.find? fun c => c.code.toNat == field.toNat

def ofMnemonic? (text : String) : Option Computation := all.find? fun c => c.mnemonic == text

/-- reads a mnemonic between blanks -/
def parse (text : String) : Except FieldFault Computation :=
  match ofMnemonic? (trimmed text) with
  | some c => .ok c
  | none => .error (.unknownComputation text)

/-! ## the list, the codes and the mnemonics -/

theorem mem_all (c : Computation) : c ∈ all := by
  cases c with
  | second s | notSecond s | negSecond s | succSecond s | predSecond s | sum s | dMinus s
  | minusD s | and s | or s => cases s <;> decide
  | _ => decide

theorem ofCode?_code (c : Computation) : ofCode? c.code = some c := by
  have h : ∀ c ∈ all, ofCode? c.code = some c := by decide
  exact h c (mem_all c)

theorem ofMnemonic?_mnemonic (c : Computation) : ofMnemonic? c.mnemonic = some c := by
  have h : ∀ c ∈ all, ofMnemonic? c.mnemonic = some c := by decide
  exact h c (mem_all c)

theorem ofCode?_eq_some_iff {n : Nat} {field : BitVec n} {c : Computation} :
    ofCode? field = some c ↔ c.code.toNat = field.toNat := by
  constructor
  · intro h
    simpa using List.find?_some h
  · intro h
    have hc := ofCode?_code c
    simp only [ofCode?, h] at hc
    exact hc

theorem ofMnemonic?_eq_some_iff {text : String} {c : Computation} :
    ofMnemonic? text = some c ↔ c.mnemonic = text := by
  constructor
  · intro h
    simpa using List.find?_some h
  · rintro rfl
    exact ofMnemonic?_mnemonic c

end Computation

end HackAssembler
