import HackAssembler.Fault
import HackAssembler.Text.Blank

/-!
# Flags: where a result is stored and on which signs it jumps

A destination is a set of the three stores `A`, `D`, `M`; a jump condition is a set of the three
signs of the ALU output.  Both are three bits of the word.

* `Destination.ofBits_bits`, `JumpCondition.ofBits_bits`   the bits determine the flags;
* `Destination.ofLetters?`   the letters of a destination come in any order, repeated or not;
* `JumpCondition.ofMnemonic?_eq_some_iff`   each condition but `never` has one mnemonic.
-/

namespace HackAssembler

/-! ## destinations -/

structure Destination where
  a : Bool
  d : Bool
  m : Bool
  deriving DecidableEq, Repr

namespace Destination

def none : Destination := ⟨false, false, false⟩

def bits (s : Destination) : BitVec 3 :=
  BitVec.ofBool s.a ++ BitVec.ofBool s.d ++ BitVec.ofBool s.m

/-- the three low bits of a field of any width -/
def ofBits {n : Nat} (field : BitVec n) : Destination :=
  ⟨field.getLsbD 2, field.getLsbD 1, field.getLsbD 0⟩

def isLetter (c : Char) : Bool := c == 'A' || c == 'D' || c == 'M'

/-- the set of the letters in `cs`, if all of them name a store -/
def ofLetters? (cs : List Char) : Option Destination :=
  if cs.all isLetter then
    some ⟨cs.contains 'A', cs.contains 'D', cs.contains 'M'⟩
  else
    Option.none

/-- reads a set of letters between blanks; the set must not be empty -/
def parse (text : String) : Except FieldFault Destination :=
  if trim text.toList = [] then
    .error .emptyDestination
  else
    match ofLetters? (trim text.toList) with
    | some s => .ok s
    | Option.none => .error (.unknownDestination (trimmed text))

/-- the letters in the order of the bits -/
def text (s : Destination) : String :=
  (if s.a then "A" else "") ++ (if s.d then "D" else "") ++ (if s.m then "M" else "")

theorem ofBits_bits (s : Destination) : ofBits s.bits = s := by
  obtain ⟨a, d, m⟩ := s
  cases a <;> cases d <;> cases m <;> rfl

theorem bits_ofBits (b : BitVec 3) : (ofBits b).bits = b := by
  revert b; decide

theorem ofLetters?_text (s : Destination) : ofLetters? s.text.toList = some s := by
  obtain ⟨a, d, m⟩ := s
  cases a <;> cases d <;> cases m <;> decide

end Destination

/-! ## jump conditions -/

/-- jump when the output is negative, zero, positive -/
structure JumpCondition where
  lt : Bool
  eq : Bool
  gt : Bool
  deriving DecidableEq, Repr

namespace JumpCondition

def never : JumpCondition := ⟨false, false, false⟩

def bits (j : JumpCondition) : BitVec 3 :=
  BitVec.ofBool j.lt ++ BitVec.ofBool j.eq ++ BitVec.ofBool j.gt

/-- the three low bits of a field of any width -/
def ofBits {n : Nat} (field : BitVec n) : JumpCondition :=
  ⟨field.getLsbD 2, field.getLsbD 1, field.getLsbD 0⟩

def mnemonic? : JumpCondition → Option String
  | ⟨false, false, false⟩ => none
  | ⟨false, false, true⟩ => some "JGT"
  | ⟨false, true, false⟩ => some "JEQ"
  | ⟨false, true, true⟩ => some "JGE"
  | ⟨true, false, false⟩ => some "JLT"
  | ⟨true, false, true⟩ => some "JNE"
  | ⟨true, true, false⟩ => some "JLE"
  | ⟨true, true, true⟩ => some "JMP"

/-- the conditions that can be written -/
def written : List JumpCondition :=
  [⟨false, false, true⟩, ⟨false, true, false⟩, ⟨false, true, true⟩, ⟨true, false, false⟩,
    ⟨true, false, true⟩, ⟨true, true, false⟩, ⟨true, true, true⟩]

def ofMnemonic? (text : String) : Option JumpCondition :=
  written.find? fun j => j.mnemonic? == some text

/-- reads a mnemonic between blanks -/
def parse (text : String) : Except FieldFault JumpCondition :=
  match ofMnemonic? (trimmed text) with
  | some j => .ok j
  | none => .error (.unknownJump text)

/-- the mnemonic, and nothing for `never` -/
def text (j : JumpCondition) : String := j.mnemonic?.getD ""

theorem ofBits_bits (j : JumpCondition) : ofBits j.bits = j := by
  obtain ⟨a, d, m⟩ := j
  cases a <;> cases d <;> cases m <;> rfl

theorem bits_ofBits (b : BitVec 3) : (ofBits b).bits = b := by
  revert b; decide

theorem mem_written (j : JumpCondition) : j ∈ written ↔ j ≠ never := by
  obtain ⟨a, d, m⟩ := j
  cases a <;> cases d <;> cases m <;> decide

theorem ofMnemonic?_eq_some_iff {text : String} {j : JumpCondition} :
    ofMnemonic? text = some j ↔ j.mnemonic? = some text := by
  constructor
  · intro h
    simpa using List.find?_some h
  · intro h
    have key : ∀ i ∈ written, ∀ t ∈ i.mnemonic?, ofMnemonic? t = some i := by decide
    refine key j ((mem_written j).mpr ?_) text h
    rintro rfl
    simp [never, mnemonic?] at h

end JumpCondition

end HackAssembler
