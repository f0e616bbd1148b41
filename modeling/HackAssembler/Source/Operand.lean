import HackAssembler.Source.Line
import HackAssembler.Symbol.Table

/-!
# Operands: what an address instruction loads

An operand is a decimal numeral of any length whose value an instruction can carry, or a symbol
name.
-/

namespace HackAssembler

inductive Operand where
  | literal (value : Word)
  | symbol (name : String)
  deriving DecidableEq, Repr

/-- the operand of an address instruction, and nothing for the other instructions -/
def operandText? (text : String) : Option String :=
  match text.toList with
  | [] => none
  | c :: cs => if c = '@' then some (String.ofList (trim cs)) else none

def isNumeral (cs : List Char) : Bool := !cs.isEmpty && cs.all Char.isDigit

/-- the value of a decimal numeral -/
def numeralValue (cs : List Char) : Nat := Nat.ofDigitChars 10 cs 0

def Operand.parse (s : String) : Except Fault Operand :=
  if isNumeral s.toList then
    if numeralValue s.toList ≤ maxAddress.toNat then
      .ok (.literal (.ofNat (numeralValue s.toList)))
    else
      .error ⟨.outOfRange, s⟩
  else if isName s then
    .ok (.symbol s)
  else
    .error ⟨.invalidSymbol, s⟩

namespace Operand

def text : Operand → String
  | literal value => toString value.toNat
  | symbol name => name

/-- the value that an address instruction with this operand loads -/
def resolve (t : SymbolTable) : Operand → Except Fault Word
  | literal value => .ok value
  | symbol name => t.address name

/-! ## the three outcomes -/

theorem parse_numeral {s : String} (h : isNumeral s.toList) :
    parse s =
      if numeralValue s.toList ≤ maxAddress.toNat then
        .ok (.literal (.ofNat (numeralValue s.toList)))
      else
        .error ⟨.outOfRange, s⟩ := by
  rw [parse, if_pos h]

/-- a digit starts no name -/
theorem isDigit_of_isNameStart {c : Char} (h : isNameStart c) : c.isDigit = false := by
  have hletter : '9'.toNat < c.toNat → c.isDigit = false := by
    intro hlt
    rw [← Bool.not_eq_true, Char.isDigit_iff_toNat]
    omega
  simp only [isNameStart, Bool.or_eq_true, beq_iff_eq] at h
  rcases h with (((ha | rfl) | rfl) | rfl) | rfl
  · rcases Bool.or_eq_true_iff.mp ha with hu | hl
    · have hle : 'A'.val ≤ c.val ∧ c.val ≤ 'Z'.val := of_decide_eq_true hu
      exact hletter (Nat.lt_of_lt_of_le (by decide) hle.1)
    · have hle : 'a'.val ≤ c.val := of_decide_eq_true (Bool.and_eq_true_iff.mp hl).1
      exact hletter (Nat.lt_of_lt_of_le (by decide) hle)
  all_goals rfl

theorem isNumeral_of_isName {s : String} (h : isName s) : isNumeral s.toList = false := by
  rw [isName] at h
  cases hs : s.toList with
  | nil => rfl
  | cons c cs =>
    rw [hs, isNameChars_cons] at h
    simp [isNumeral, isDigit_of_isNameStart h.1]

theorem parse_name {s : String} (h : isName s) : parse s = .ok (.symbol s) := by
  rw [parse, if_neg (by simp [isNumeral_of_isName h]), if_pos h]

end Operand

end HackAssembler
