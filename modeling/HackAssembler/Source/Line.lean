import HackAssembler.Fault
import HackAssembler.Text.Blank
import HackAssembler.Text.Split

/-!
# Source lines

A line is code, blanks around it, and perhaps a comment: all that follows the first `//`.  By its
code a line is blank, a label `(name)`, or an instruction, whose text is looked at later.

A name starts with a letter or one of `_ . $ :`, and goes on with these or digits.  Letters and
digits are ASCII ones.
-/

namespace HackAssembler

/-! ## names -/

def isNameStart (c : Char) : Bool :=
  c.isAlpha || c == '_' || c == '.' || c == '$' || c == ':'

def isNameRest (c : Char) : Bool := isNameStart c || c.isDigit

def isNameChars : List Char → Bool
  | [] => false
  | c :: cs => isNameStart c && cs.all isNameRest

def isName (s : String) : Bool := isNameChars s.toList

theorem isNameChars_cons (c : Char) (cs : List Char) :
    isNameChars (c :: cs) ↔ isNameStart c ∧ ∀ d ∈ cs, isNameRest d := by
  simp [isNameChars]

/-! ## code and comment -/

/-- the code of a line, and the text of its comment -/
def splitComment (raw : String) : String × Option String :=
  match splitOnce? ['/', '/'] raw.toList with
  | some (before, after) => (String.ofList (trim before), some (String.ofList after))
  | none => (trimmed raw, none)

def codeOf (raw : String) : String := (splitComment raw).1

def commentOf (raw : String) : Option String := (splitComment raw).2

inductive Line where
  | blank
  | label (name : String)
  | instruction (text : String)
  deriving DecidableEq, Repr

namespace Line

/-- the name of a label whose opening parenthesis has been read -/
def labelName? (cs : List Char) : Option String :=
  if cs.getLast? = some ')' ∧ isNameChars cs.dropLast then
    some (String.ofList cs.dropLast)
  else
    none

def ofCode (code : String) : Except Fault Line :=
  match code.toList with
  | [] => .ok .blank
  | c :: cs =>
    if c = '(' then
      match labelName? cs with
      | some name => .ok (.label name)
      | none => .error ⟨.malformedLabel, code⟩
    else
      .ok (.instruction code)

def parse (raw : String) : Except Fault Line := ofCode (codeOf raw)

theorem labelName?_eq_some_iff {cs : List Char} {name : String} :
    labelName? cs = some name ↔ cs = name.toList ++ [')'] ∧ isName name := by
  rw [labelName?]
  constructor
  · intro h
    split at h
    · next hc =>
      cases h
      obtain ⟨ys, rfl⟩ := List.getLast?_eq_some_iff.mp hc.1
      simpa [isName] using hc.2
    · cases h
  · rintro ⟨rfl, hn⟩
    have hn : isNameChars name.toList := hn
    simp [hn]

/-! ## the three kinds of code -/

section
variable {code : String} {cs : List Char}

theorem ofCode_label {name : String} (h : isName name) :
    ofCode ("(" ++ name ++ ")") = .ok (.label name) := by
  have hchars : ("(" ++ name ++ ")").toList = '(' :: (name.toList ++ [')']) := by simp
  have hname : labelName? (name.toList ++ [')']) = some name := labelName?_eq_some_iff.mpr ⟨rfl, h⟩
  rw [ofCode, hchars]
  simp only [if_true, hname]

theorem ofCode_malformed (h : code.toList = '(' :: cs) (hname : labelName? cs = none) :
    ofCode code = .error ⟨.malformedLabel, code⟩ := by
  rw [ofCode, h]
  simp only [if_true, hname]

theorem ofCode_instruction {c : Char} (h : code.toList = c :: cs) (hc : c ≠ '(') :
    ofCode code = .ok (.instruction code) := by
  rw [ofCode, h]
  exact if_neg hc

end

end Line

end HackAssembler
