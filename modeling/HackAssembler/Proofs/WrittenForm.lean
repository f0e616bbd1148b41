import HackAssembler.Instruction.Text
import HackAssembler.Proofs.FieldCuts
import HackAssembler.Proofs.Operands
import HackAssembler.Proofs.Statements

/-!
# Written forms: lines that are read as they are meant

* `isPlain`                    a character that is neither blank nor part of a comment mark;
* `Line.parse_label`, `Line.parse_instruction`   a label or an instruction written in plain
                               characters is read as such;
* `Fields.parse_written`       the three fields of a compute statement are cut where they were joined;
* `Instruction.parse_text`     the text of an instruction stands for it under any table.
-/

namespace HackAssembler

/-! ## plain characters -/

/-- a character that is neither dropped from a line nor starts a comment -/
def isPlain (c : Char) : Bool := !isBlank c && c != '/'

def Plain (cs : List Char) : Prop := ∀ c ∈ cs, isPlain c

instance : DecidablePred Plain := fun cs => decidable_of_iff (cs.all isPlain) List.all_eq_true

section
variable {cs ds : List Char}

theorem Plain.append (h : Plain cs) (h' : Plain ds) : Plain (cs ++ ds) :=
  List.forall_mem_append.mpr ⟨h, h'⟩

theorem Plain.cons {c : Char} (hc : isPlain c) (h : Plain cs) : Plain (c :: cs) :=
  List.forall_mem_cons.mpr ⟨hc, h⟩

theorem Plain.not_isBlank (h : Plain cs) {c : Char} (hc : c ∈ cs) : ¬ isBlank c := by
  have hp := h c hc
  rw [isPlain, Bool.and_eq_true, Bool.not_eq_true'] at hp
  simp [hp.1]

theorem Plain.slash_not_mem (h : Plain cs) : '/' ∉ cs := by
  intro hc
  have hp := h '/' hc
  revert hp
  decide

theorem Plain.noBlankEnds (h : Plain cs) : NoBlankEnds cs :=
  noBlankEnds_of_forall fun _ hc => h.not_isBlank hc

theorem Plain.trim_eq (h : Plain cs) : trim cs = cs := trim_eq_self h.noBlankEnds

/-- a plain text is its own code -/
theorem Plain.codeOf_eq {raw : String} (h : Plain raw.toList) : codeOf raw = raw := by
  rw [codeOf, splitComment, splitOnce?_eq_none h.slash_not_mem]
  show trimmed raw = raw
  rw [trimmed, h.trim_eq, String.ofList_toList]

end

theorem isPlain_of_toNat {c : Char} (hl : 0x21 ≤ c.toNat) (hu : c.toNat ≤ 0x7E) (hs : c ≠ '/') :
    isPlain c := by
  have hblank : isBlank c = false := by
    simp only [isBlank, blankRanges, List.any_cons, List.any_nil, Bool.or_false,
      Bool.or_eq_false_iff, Bool.and_eq_false_iff, decide_eq_false_iff_not]
    omega
  simp [isPlain, hblank, hs]

theorem isPlain_of_isDigit {c : Char} (h : c.isDigit) : isPlain c := by
  obtain ⟨hl, hu⟩ := Char.isDigit_iff_toNat.mp h
  refine isPlain_of_toNat (Nat.le_trans (by decide) hl) (Nat.le_trans hu (by decide)) ?_
  rintro rfl
  cases h

theorem isPlain_of_isAlpha {c : Char} (h : c.isAlpha) : isPlain c := by
  rcases Bool.or_eq_true_iff.mp h with hu | hl
  · have hc : 'A'.val ≤ c.val ∧ c.val ≤ 'Z'.val := of_decide_eq_true hu
    refine isPlain_of_toNat (Nat.le_trans (by decide) hc.1) (Nat.le_trans hc.2 (by decide)) ?_
    rintro rfl
    cases h
  · obtain ⟨hlow, hhigh⟩ := Bool.and_eq_true_iff.mp hl
    have hlow : 'a'.val ≤ c.val := of_decide_eq_true hlow
    have hhigh : c.val ≤ 'z'.val := of_decide_eq_true hhigh
    refine isPlain_of_toNat (Nat.le_trans (by decide) hlow) (Nat.le_trans hhigh (by decide)) ?_
    rintro rfl
    cases h

theorem isPlain_of_isNameRest {c : Char} (h : isNameRest c) : isPlain c := by
  simp only [isNameRest, isNameStart, Bool.or_eq_true, beq_iff_eq] at h
  rcases h with ((((ha | rfl) | rfl) | rfl) | rfl) | hd
  · exact isPlain_of_isAlpha ha
  · decide
  · decide
  · decide
  · decide
  · exact isPlain_of_isDigit hd

theorem isNameRest_of_isName {name : String} (h : isName name) : ∀ c ∈ name.toList, isNameRest c := by
  rw [isName] at h
  cases hs : name.toList with
  | nil => exact List.forall_mem_nil _
  | cons c cs =>
    rw [hs, isNameChars_cons] at h
    have hstart : isNameRest c := by simp [isNameRest, h.1]
    exact List.forall_mem_cons.mpr ⟨hstart, h.2⟩

theorem plain_of_isName {name : String} (h : isName name) : Plain name.toList := fun c hc =>
  isPlain_of_isNameRest (isNameRest_of_isName h c hc)

/-! ## lines -/

namespace Line

theorem parse_label {name : String} (h : isName name) :
    parse ("(" ++ name ++ ")") = .ok (.label name) := by
  have hchars : ("(" ++ name ++ ")").toList = '(' :: (name.toList ++ [')']) := by simp
  have hplain : Plain ("(" ++ name ++ ")").toList := by
    rw [hchars]
    exact .cons (by decide) ((plain_of_isName h).append (by decide))
  rw [parse, hplain.codeOf_eq]
  exact ofCode_label h

/-- a plain text that starts no label is an instruction -/
theorem parse_instruction {text : String} {c : Char} {cs : List Char} (h : text.toList = c :: cs)
    (hc : c ≠ '(') (hplain : Plain text.toList) : parse text = .ok (.instruction text) := by
  rw [parse, hplain.codeOf_eq]
  exact ofCode_instruction h hc

end Line

/-! ## address statements -/

section
variable {operand : String}

theorem toList_at_append (operand : String) : ("@" ++ operand).toList = '@' :: operand.toList := by
  simp

theorem Line.parse_at (h : Plain operand.toList) :
    Line.parse ("@" ++ operand) = .ok (.instruction ("@" ++ operand)) := by
  have hplain : Plain ("@" ++ operand).toList := by
    rw [toList_at_append]
    exact .cons (by decide) h
  exact Line.parse_instruction (toList_at_append operand) (by decide) hplain

theorem operandText?_at (h : Plain operand.toList) : operandText? ("@" ++ operand) = some operand := by
  rw [operandText?, toList_at_append]
  show some (String.ofList (trim operand.toList)) = _
  rw [h.trim_eq, String.ofList_toList]

end

/-- the decimal digits of a number are a numeral of its value -/
theorem isNumeral_toString (n : Nat) :
    isNumeral (toString n).toList ∧ numeralValue (toString n).toList = n ∧
      Plain (toString n).toList := by
  have hdigits : (toString n).toList = Nat.toDigits 10 n := by
    rw [Nat.toString_eq_ofList_toDigits, String.toList_ofList]
  have hall : ∀ c ∈ Nat.toDigits 10 n, c.isDigit := fun c =>
    Nat.isDigit_of_mem_toDigits (by decide) (Nat.le_refl 10)
  rw [hdigits]
  refine ⟨?_, Nat.ofDigitChars_ten_toDigits, fun c hc => isPlain_of_isDigit (hall c hc)⟩
  simp [isNumeral, Nat.toDigits_ne_nil, List.all_eq_true.mpr hall]

theorem Operand.parse_toString {value : Word} (h : value ≤ maxAddress) :
    Operand.parse (toString value.toNat) = .ok (.literal value) := by
  obtain ⟨hnum, hvalue, -⟩ := isNumeral_toString value.toNat
  refine Operand.parse_eq_literal_iff.mpr ⟨hnum, ?_, ?_⟩
  · rw [hvalue]
    exact UInt16.le_iff_toNat_le.mp h
  · rw [hvalue, UInt16.ofNat_toNat]

/-! ## compute statements -/

/-- a plain character that starts no label and no address statement -/
def isTextChar (c : Char) : Bool := isPlain c && !(['(', '@'].contains c)

/-- a text that can be a field of a compute statement as it is -/
def isField (s : String) : Bool := s.toList.all fun c => isTextChar c && !(['=', ';'].contains c)

section
variable {s : String} (h : isField s)
include h

theorem isTextChar_of_isField : ∀ c ∈ s.toList, isTextChar c := fun c hc =>
  (Bool.and_eq_true_iff.mp (List.all_eq_true.mp h c hc)).1

theorem plain_of_isField : Plain s.toList := fun c hc =>
  (Bool.and_eq_true_iff.mp (isTextChar_of_isField h c hc)).1

/-- a field does not contain what separates fields -/
theorem not_mem_of_isField {c : Char} (hc : c ∈ ['=', ';']) : c ∉ s.toList := by
  intro hs
  have hf := (Bool.and_eq_true_iff.mp (List.all_eq_true.mp h c hs)).2
  rw [List.contains_iff_mem.mpr hc] at hf
  cases hf

end

/-- three fields, joined as they are written -/
def joinFields (dest : Option String) (comp : String) (jump : Option String) : String :=
  dest.elim "" (· ++ "=") ++ comp ++ jump.elim "" (";" ++ ·)

theorem isTextChar_joinFields {dest : Option String} {comp : String} {jump : Option String}
    (hd : ∀ d ∈ dest, isField d) (hc : isField comp) (hj : ∀ j ∈ jump, isField j) :
    ∀ c ∈ (joinFields dest comp jump).toList, isTextChar c := by
  have hdest : ∀ c ∈ (dest.elim "" (· ++ "=")).toList, isTextChar c := by
    cases dest with
    | none => exact List.forall_mem_nil _
    | some d =>
      rw [Option.elim_some, String.toList_append]
      have hequals : ∀ c ∈ "=".toList, isTextChar c := List.all_eq_true.mp (by decide)
      exact List.forall_mem_append.mpr ⟨isTextChar_of_isField (hd d rfl), hequals⟩
  have hjump : ∀ c ∈ (jump.elim "" (";" ++ ·)).toList, isTextChar c := by
    cases jump with
    | none => exact List.forall_mem_nil _
    | some j =>
      rw [Option.elim_some, String.toList_append]
      have hsemicolon : ∀ c ∈ ";".toList, isTextChar c := List.all_eq_true.mp (by decide)
      exact List.forall_mem_append.mpr ⟨hsemicolon, isTextChar_of_isField (hj j rfl)⟩
  rw [joinFields, String.toList_append, String.toList_append]
  simp only [List.forall_mem_append]
  exact ⟨⟨hdest, isTextChar_of_isField hc⟩, hjump⟩

namespace Fields

theorem trim_field {s : String} (h : isField s) : String.ofList (trim s.toList) = s := by
  rw [(plain_of_isField h).trim_eq, String.ofList_toList]

theorem map_trim_field {o : Option String} (h : ∀ s ∈ o, isField s) :
    ((o.map String.toList).map fun cs => String.ofList (trim cs)) = o := by
  cases o with
  | none => rfl
  | some s => exact congrArg some (trim_field (h s rfl))

section
variable {dest : Option String} {comp : String} {jump : Option String}

theorem ofParts_written (hd : ∀ d ∈ dest, isField d) (hc : isField comp)
    (hj : ∀ j ∈ jump, isField j) :
    ofParts (dest.map String.toList) comp.toList (jump.map String.toList) = ⟨dest, comp, jump⟩ := by
  rw [ofParts, map_trim_field hd, trim_field hc, map_trim_field hj]

theorem cut_written (hd : ∀ d ∈ dest, isField d) (hc : isField comp) (hj : ∀ j ∈ jump, isField j) :
    Cut (joinFields dest comp jump).toList (dest.map String.toList) comp.toList
      (jump.map String.toList) where
  eq := by cases dest <;> cases jump <;> simp [joinFields, destinationPart, jumpPart]
  dest ds h := by
    obtain ⟨d, hm, rfl⟩ := Option.map_eq_some_iff.mp h
    exact ⟨not_mem_of_isField (hd d hm) (by decide), not_mem_of_isField (hd d hm) (by decide)⟩
  comp := ⟨not_mem_of_isField hc (by decide), not_mem_of_isField hc (by decide)⟩
  jump js h := by
    obtain ⟨j, hm, rfl⟩ := Option.map_eq_some_iff.mp h
    exact not_mem_of_isField (hj j hm) (by decide)

theorem parse_written (hd : ∀ d ∈ dest, isField d) (hc : isField comp) (hj : ∀ j ∈ jump, isField j) :
    parse (joinFields dest comp jump) = .ok ⟨dest, comp, jump⟩ := by
  rw [parse_of_cut (cut_written hd hc hj), ofParts_written hd hc hj]

end

end Fields

/-! ## instructions -/

theorem Destination.isField_text (s : Destination) : isField s.text := by
  obtain ⟨a, d, m⟩ := s
  cases a <;> cases d <;> cases m <;> decide

theorem Destination.parse_text {s : Destination} (h : s ≠ none) : parse s.text = .ok s := by
  have hne : s.text.toList ≠ [] := by
    obtain ⟨a, d, m⟩ := s
    revert h
    cases a <;> cases d <;> cases m <;> decide
  rw [parse, (plain_of_isField s.isField_text).trim_eq, if_neg hne, ofLetters?_text]

theorem Computation.isField_mnemonic (c : Computation) : isField c.mnemonic ∧ c.mnemonic ≠ "" := by
  have h : ∀ c ∈ all, isField c.mnemonic ∧ c.mnemonic ≠ "" := by decide
  exact h c (mem_all c)

theorem Computation.parse_mnemonic (c : Computation) : parse c.mnemonic = .ok c := by
  rw [parse, trimmed, Fields.trim_field c.isField_mnemonic.1, ofMnemonic?_mnemonic]

theorem JumpCondition.isField_mnemonic (j : JumpCondition) : ∀ t ∈ j.mnemonic?, isField t := by
  obtain ⟨lt, eq, gt⟩ := j
  cases lt <;> cases eq <;> cases gt <;> decide

theorem JumpCondition.parse_mnemonic {j : JumpCondition} {t : String} (h : j.mnemonic? = some t) :
    parse t = .ok j := by
  rw [parse, trimmed, Fields.trim_field (j.isField_mnemonic t h), ofMnemonic?_eq_some_iff.mpr h]

theorem JumpCondition.eq_never {j : JumpCondition} (h : j.mnemonic? = none) : j = never := by
  by_contra hne
  have hw := (mem_written j).mpr hne
  have key : ∀ i ∈ written, i.mnemonic? ≠ none := by decide
  exact key j hw h

/-- a destination as a field, which the empty one does not need -/
def Destination.field (s : Destination) : Option String := if s = none then Option.none else some s.text

theorem Destination.isField_field (s : Destination) : ∀ t ∈ s.field, isField t := by
  intro t ht
  rw [field] at ht
  split at ht
  · cases ht
  · cases ht
    exact s.isField_text

namespace Fields

theorem destination_field (s : Destination) (comp : String) (jump : Option String) :
    destination ⟨s.field, comp, jump⟩ = .ok s := by
  rw [destination, Destination.field]
  by_cases h : s = .none
  · simp [h]
  · rw [if_neg h]
    exact mapError_eq_ok_iff.mpr (Destination.parse_text h)

theorem computation_mnemonic (dest : Option String) (c : Computation) (jump : Option String) :
    computation ⟨dest, c.mnemonic, jump⟩ = .ok c :=
  mapError_eq_ok_iff.mpr c.parse_mnemonic

theorem jumpCondition_mnemonic (dest : Option String) (comp : String) (j : JumpCondition) :
    jumpCondition ⟨dest, comp, j.mnemonic?⟩ = .ok j := by
  rw [jumpCondition]
  cases h : j.mnemonic? with
  | none => rw [JumpCondition.eq_never h]
  | some t => exact mapError_eq_ok_iff.mpr (JumpCondition.parse_mnemonic h)

end Fields

namespace Instruction

theorem text_address (value : Word) : (address value).text = "@" ++ toString value.toNat := rfl

theorem text_compute (dest : Destination) (comp : Computation) (jump : JumpCondition) :
    (compute dest comp jump).text = joinFields dest.field comp.mnemonic jump.mnemonic? := by
  simp only [text, joinFields, Destination.field]
  by_cases hd : dest = .none <;> cases jump.mnemonic? <;> simp [hd]

section
variable (dest : Destination) (comp : Computation) (jump : JumpCondition)

theorem isTextChar_text_compute : ∀ c ∈ (compute dest comp jump).text.toList, isTextChar c := by
  rw [text_compute]
  exact isTextChar_joinFields dest.isField_field comp.isField_mnemonic.1 jump.isField_mnemonic

theorem text_compute_eq_cons : ∃ c cs,
    (compute dest comp jump).text.toList = c :: cs ∧ c ≠ '(' ∧ c ≠ '@' := by
  cases h : (compute dest comp jump).text.toList with
  | nil =>
    have hcomp : comp.mnemonic.toList = [] := by
      rw [text_compute, joinFields, String.toList_append, String.toList_append,
        List.append_eq_nil_iff, List.append_eq_nil_iff] at h
      exact h.1.2
    exact absurd (String.toList_eq_nil_iff.mp hcomp) comp.isField_mnemonic.2
  | cons c cs =>
    have hc := isTextChar_text_compute dest comp jump c (h ▸ List.mem_cons_self)
    refine ⟨c, cs, rfl, ?_, ?_⟩
    · rintro rfl
      cases hc
    · rintro rfl
      cases hc

theorem plain_text_compute : Plain (compute dest comp jump).text.toList := fun c hc =>
  (Bool.and_eq_true_iff.mp (isTextChar_text_compute dest comp jump c hc)).1

theorem operandText?_text_compute : operandText? (compute dest comp jump).text = none := by
  obtain ⟨c, cs, h, -, hat⟩ := text_compute_eq_cons dest comp jump
  rw [operandText?, h]
  exact if_neg hat

theorem statement_of_text_compute :
    Statement.parse (compute dest comp jump).text = .ok (.compute dest comp jump) := by
  rw [Statement.parse_compute (operandText?_text_compute dest comp jump), text_compute,
    Fields.parse_written dest.isField_field comp.isField_mnemonic.1 jump.isField_mnemonic]
  show Statement.ofFields _ = _
  rw [Statement.ofFields_eq, Fields.destination_field, Fields.computation_mnemonic,
    Fields.jumpCondition_mnemonic]
  rfl

end

variable {i : Instruction}

/-- the text of an instruction is one instruction line -/
theorem line_of_text (i : Instruction) : Line.parse i.text = .ok (.instruction i.text) := by
  cases i with
  | address value => exact Line.parse_at (isNumeral_toString value.toNat).2.2
  | compute dest comp jump =>
    obtain ⟨c, cs, h, hparen, -⟩ := text_compute_eq_cons dest comp jump
    exact Line.parse_instruction h hparen (plain_text_compute dest comp jump)

/-- the text of an instruction stands for it, whatever the symbols of the program -/
theorem parse_text (h : i.Encodable) (t : SymbolTable) : parse t i.text = .ok i := by
  cases i with
  | address value =>
    have ho : operandText? (address value).text = some (toString value.toNat) :=
      operandText?_at (isNumeral_toString value.toNat).2.2
    exact parse_address ho (Operand.parse_toString h) rfl h
  | compute dest comp jump =>
    rw [parse_eq, statement_of_text_compute]
    rfl

/-- the text of an instruction mentions no symbol -/
theorem mention?_text (h : i.Encodable) : mention? i.text = .ok none := by
  cases i with
  | address value =>
    have hplain := (isNumeral_toString value.toNat).2.2
    simp only [mention?, text_address, operandText?_at hplain, Operand.parse_toString h]
  | compute dest comp jump => rw [mention?, operandText?_text_compute]

end Instruction

end HackAssembler
