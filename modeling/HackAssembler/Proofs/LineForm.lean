import HackAssembler.Proofs.Layout

/-!
# The form of a line

* `NameForm`                 `[A-Za-z_.$:][A-Za-z0-9_.$:]*`, and `isName_iff`, that the check tells
                             just these texts;
* `Commented`                a text, what stands before its comment, and the comment, which starts
                             at the first `//`; there is one such cut (`Commented.uncommented_eq`);
* `CodeForm`, `LineForm`     what a line is read as, by its form alone;
* `Line.form`, `LineForm.parse_eq`   the reader follows the form, and the form the reader;
* `line_form`                a line is read as its form says, and its code as the line.
-/

namespace HackAssembler

/-! ## names -/

/-- `[A-Za-z_.$:]` -/
def NameHead (c : Char) : Prop :=
  ('A' ≤ c ∧ c ≤ 'Z') ∨ ('a' ≤ c ∧ c ≤ 'z') ∨ c ∈ ['_', '.', '$', ':']

/-- `[A-Za-z0-9_.$:]` -/
def NameTail (c : Char) : Prop := NameHead c ∨ ('0' ≤ c ∧ c ≤ '9')

inductive NameForm : List Char → Prop
  | intro {c : Char} {cs : List Char} (hc : NameHead c) (hcs : ∀ d ∈ cs, NameTail d) :
      NameForm (c :: cs)

theorem isNameStart_iff (c : Char) : isNameStart c ↔ NameHead c := by
  have halpha : c.isAlpha ↔ c.isUpper ∨ c.isLower := Bool.or_eq_true_iff
  have hupper : c.isUpper ↔ 'A' ≤ c ∧ c ≤ 'Z' := decide_eq_true_iff
  have hlower : c.isLower ↔ 'a' ≤ c ∧ c ≤ 'z' := by
    show (decide ('a' ≤ c) && decide (c ≤ 'z')) = true ↔ _
    rw [Bool.and_eq_true, decide_eq_true_eq, decide_eq_true_eq]
  simp only [isNameStart, Bool.or_eq_true, halpha, hupper, hlower, beq_iff_eq, NameHead,
    List.mem_cons, List.not_mem_nil, or_false, or_assoc]

theorem isNameRest_iff (c : Char) : isNameRest c ↔ NameTail c := by
  rw [isNameRest, Bool.or_eq_true, isNameStart_iff, NameTail, Char.isDigit, Bool.and_eq_true,
    decide_eq_true_eq, decide_eq_true_eq]
  rfl

theorem isName_iff (name : String) : isName name ↔ NameForm name.toList := by
  rw [isName]
  cases name.toList with
  | nil =>
    constructor
    · intro h
      cases h
    · intro h
      cases h
  | cons c cs =>
    rw [isNameChars_cons, isNameStart_iff]
    constructor
    · rintro ⟨hc, hcs⟩
      exact .intro hc fun d hd => (isNameRest_iff d).mp (hcs d hd)
    · rintro ⟨hc, hcs⟩
      exact ⟨hc, fun d hd => (isNameRest_iff d).mpr (hcs d hd)⟩

/-! ## comments -/

/-- `cs` is `body`, and a comment from the first `//` on, if there is one -/
structure Commented (cs body : List Char) (comment : Option (List Char)) : Prop where
  eq : cs = body ++ comment.elim [] fun text => '/' :: '/' :: text
  first : ∀ xs ys, cs = xs ++ '/' :: '/' :: ys → body.length ≤ xs.length

/-- the text behind the first `//` -/
def commentText? (cs : List Char) : Option (List Char) := (splitOnce? ['/', '/'] cs).map (·.2)

theorem commented (cs : List Char) : Commented cs (uncommented cs) (commentText? cs) := by
  unfold uncommented commentText?
  cases h : splitOnce? ['/', '/'] cs with
  | none =>
    refine ⟨(List.append_nil cs).symm, ?_⟩
    rintro xs ys rfl
    have hnot := (splitOnce?_eq_none_iff (List.cons_ne_nil '/' ['/'])).mp h
    exact absurd ⟨xs, ys, by simp⟩ hnot
  | some p =>
    obtain ⟨before, after⟩ := p
    refine ⟨?_, fun xs ys e => ?_⟩
    · rw [append_of_splitOnce? h, List.append_assoc]
      rfl
    · apply length_le_of_splitOnce? h
      rw [e, List.append_assoc]
      rfl

theorem commentOf_eq (raw : String) :
    commentOf raw = (commentText? raw.toList).map String.ofList := by
  rw [commentOf, splitComment, commentText?]
  cases splitOnce? ['/', '/'] raw.toList <;> rfl

namespace Commented

variable {cs body body' : List Char} {comment comment' : Option (List Char)}

theorem isPrefix (h : Commented cs body comment) : body <+: cs := ⟨_, h.eq.symm⟩

theorem length_le (h : Commented cs body comment) (h' : Commented cs body' comment') :
    body'.length ≤ body.length := by
  cases comment with
  | none =>
    have hbody : cs = body := h.eq.trans (List.append_nil body)
    rw [← hbody]
    exact h'.isPrefix.length_le
  | some text => exact h'.first body text h.eq

/-- a text can be cut in one way only -/
theorem body_eq (h : Commented cs body comment) (h' : Commented cs body' comment') :
    body = body' := by
  have hlen : body.length = body'.length := Nat.le_antisymm (h'.length_le h) (h.length_le h')
  have hprefix := List.prefix_of_prefix_length_le h.isPrefix h'.isPrefix (Nat.le_of_eq hlen)
  exact hprefix.eq_of_length hlen

theorem uncommented_eq (h : Commented cs body comment) : uncommented cs = body :=
  (commented cs).body_eq h

theorem codeOf_eq {raw : String} (h : Commented raw.toList body comment) :
    codeOf raw = String.ofList (trim body) := by
  rw [HackAssembler.codeOf_eq, h.uncommented_eq]

theorem not_mark_isInfix (h : Commented cs body comment) : ¬ ['/', '/'] <:+: body := by
  rintro ⟨xs, ys, rfl⟩
  have hlen : (xs ++ ['/', '/'] ++ ys).length ≤ xs.length :=
    h.first xs (ys ++ comment.elim [] fun text => '/' :: '/' :: text) (by simpa using h.eq)
  simp only [List.length_append, List.length_cons, List.length_nil] at hlen
  omega

/-- a text without `//` has no comment -/
theorem of_not_isInfix (h : ¬ ['/', '/'] <:+: cs) : Commented cs cs none where
  eq := (List.append_nil cs).symm
  first xs ys e := absurd ⟨xs, ys, by simp [e]⟩ h

end Commented

theorem codeOf_codeOf (raw : String) : codeOf (codeOf raw) = codeOf raw := by
  have hcode := (commented raw.toList).codeOf_eq
  have hplain : ¬ ['/', '/'] <:+: trim (uncommented raw.toList) := fun h =>
    (commented raw.toList).not_mark_isInfix (h.trans (padded_trim _).isInfix)
  rw [hcode]
  have hcut : Commented (String.ofList (trim (uncommented raw.toList))).toList _ none :=
    .of_not_isInfix (by rwa [String.toList_ofList])
  rw [hcut.codeOf_eq, String.toList_ofList, trim_trim]

/-! ## lines -/

/-- what may stand between the blanks of a line -/
structure CodeForm (cs : List Char) : Prop where
  ne_nil : cs ≠ []
  ends : NoBlankEnds cs
  plain : ¬ ['/', '/'] <:+: cs

/-- what a line is read as, by its form: blanks, perhaps a comment, and perhaps a code, with blanks
around it -/
inductive LineForm (raw : String) : Except Fault Line → Prop
  | blank {body : List Char} {comment : Option (List Char)}
      (h : Commented raw.toList body comment) (hbody : ∀ c ∈ body, isBlank c) :
      LineForm raw (.ok .blank)
  | label {body : List Char} {comment : Option (List Char)} {name : String}
      (h : Commented raw.toList body comment)
      (hbody : Padded ("(" ++ name ++ ")").toList body) (hname : NameForm name.toList) :
      LineForm raw (.ok (.label name))
  | instruction {body : List Char} {comment : Option (List Char)} {text : String}
      (h : Commented raw.toList body comment) (hbody : Padded text.toList body)
      (hcode : CodeForm text.toList) (hopen : text.toList.head? ≠ some '(') :
      LineForm raw (.ok (.instruction text))
  | malformed {body : List Char} {comment : Option (List Char)} {text : String}
      (h : Commented raw.toList body comment) (hbody : Padded text.toList body)
      (hcode : CodeForm text.toList) (hopen : text.toList.head? = some '(')
      (hname : ∀ name : String, NameForm name.toList → text ≠ "(" ++ name ++ ")") :
      LineForm raw (.error ⟨.malformedLabel, text⟩)

section
variable {raw text : String} {body : List Char} {comment : Option (List Char)}

theorem Commented.codeOf_eq_of_padded (h : Commented raw.toList body comment)
    (hbody : Padded text.toList body) (hends : NoBlankEnds text.toList) : codeOf raw = text := by
  rw [h.codeOf_eq, hbody.trim_eq hends, String.ofList_toList]

theorem padded_codeOf (raw : String) : Padded (codeOf raw).toList (uncommented raw.toList) := by
  rw [codeOf_eq, String.toList_ofList]
  exact padded_trim _

theorem codeForm_codeOf {c : Char} {cs : List Char} (h : (codeOf raw).toList = c :: cs) :
    CodeForm (codeOf raw).toList where
  ne_nil := by
    rw [h]
    exact List.cons_ne_nil c cs
  ends := by
    rw [codeOf_eq, String.toList_ofList]
    exact noBlankEnds_trim _
  plain hmark :=
    (commented raw.toList).not_mark_isInfix (hmark.trans (padded_codeOf raw).isInfix)

end

theorem toList_parentheses (name : String) :
    ("(" ++ name ++ ")").toList = '(' :: (name.toList ++ [')']) := by
  simp

theorem noBlankEnds_parentheses (name : String) : NoBlankEnds ("(" ++ name ++ ")").toList := by
  rw [toList_parentheses]
  constructor
  · intro c hc
    cases hc
    decide
  · intro c hc
    rw [← List.cons_append, List.getLast?_concat] at hc
    cases hc
    decide

theorem Line.form (raw : String) : LineForm raw (Line.parse raw) := by
  have hcut := commented raw.toList
  have hbody := padded_codeOf raw
  rw [Line.parse]
  unfold Line.ofCode
  split
  · next hcode =>
    rw [hcode] at hbody
    refine .blank hcut fun c hc => ?_
    exact Decidable.by_contra fun hb => hbody.not_mem hb List.not_mem_nil hc
  · next c cs hcode =>
    have hform := codeForm_codeOf hcode
    split
    · next hc =>
      subst hc
      split
      · next name hname =>
        obtain ⟨rfl, hn⟩ := Line.labelName?_eq_some_iff.mp hname
        rw [hcode, ← toList_parentheses] at hbody
        exact .label hcut hbody ((isName_iff name).mp hn)
      · next hnone =>
        refine .malformed hcut hbody hform (by rw [hcode]; rfl) fun name hname e => ?_
        rw [e, toList_parentheses] at hcode
        obtain ⟨-, rfl⟩ := List.cons_eq_cons.mp hcode
        rw [Line.labelName?_eq_some_iff.mpr ⟨rfl, (isName_iff name).mpr hname⟩] at hnone
        cases hnone
    · next hc =>
      refine .instruction hcut hbody hform fun hopen => hc ?_
      rw [hcode] at hopen
      exact Option.some.inj hopen

theorem LineForm.parse_eq {raw : String} {r : Except Fault Line} (h : LineForm raw r) :
    Line.parse raw = r := by
  rw [Line.parse]
  cases h with
  | @blank body _ h hbody =>
    have hpadded : Padded "".toList body := ⟨body, [], hbody, List.forall_mem_nil _, by simp⟩
    rw [h.codeOf_eq_of_padded hpadded (noBlankEnds_of_forall (List.forall_mem_nil _))]
    rfl
  | label h hbody hname =>
    rw [h.codeOf_eq_of_padded hbody (noBlankEnds_parentheses _)]
    exact Line.ofCode_label ((isName_iff _).mpr hname)
  | instruction h hbody hcode hopen =>
    rw [h.codeOf_eq_of_padded hbody hcode.ends]
    obtain ⟨c, cs, hc⟩ := List.exists_cons_of_ne_nil hcode.ne_nil
    rw [hc] at hopen
    exact Line.ofCode_instruction hc fun e => hopen (congrArg some e)
  | @malformed _ _ text h hbody hcode hopen hname =>
    rw [h.codeOf_eq_of_padded hbody hcode.ends]
    obtain ⟨cs, hcs⟩ := List.head?_eq_some_iff.mp hopen
    apply Line.ofCode_malformed hcs
    cases hlabel : Line.labelName? cs with
    | none => rfl
    | some name =>
      obtain ⟨rfl, hn⟩ := Line.labelName?_eq_some_iff.mp hlabel
      rw [← toList_parentheses, String.toList_inj] at hcs
      exact absurd hcs (hname name ((isName_iff name).mp hn))

/-- a comment is what stands behind the code, the blanks around it and a `//` -/
theorem exists_before_comment {raw text : String} (h : text ∈ commentOf raw) :
    ∃ before, raw = before ++ "//" ++ text ∧ trimmed before = codeOf raw := by
  have hcut := commented raw.toList
  rw [commentOf_eq] at h
  obtain ⟨after, hafter, rfl⟩ := Option.map_eq_some_iff.mp h
  rw [hafter] at hcut
  refine ⟨String.ofList (uncommented raw.toList), ?_, ?_⟩
  · rw [← String.toList_inj]
    simpa using hcut.eq
  · rw [trimmed_ofList, codeOf_eq]

/-- **The reader of lines accepts exactly its grammar.**  A line is read as its form says, and as
nothing else; its code alone is read as the line is; and a comment is the text behind the first
`//`, with nothing but the code and blanks before it. -/
theorem line_form (raw : String) :
    (∀ r, Line.parse raw = r ↔ LineForm raw r) ∧
    Line.parse (codeOf raw) = Line.parse raw ∧
    ∀ text ∈ commentOf raw,
      ∃ before, raw = before ++ "//" ++ text ∧ trimmed before = codeOf raw := by
  refine ⟨fun r => ⟨?_, LineForm.parse_eq⟩, ?_, fun text => exists_before_comment⟩
  · rintro rfl
    exact Line.form raw
  · rw [Line.parse, codeOf_codeOf, Line.parse]

/-- a wide space and `///` around a label, one more parenthesis, and a comment of blanks -/
theorem line_form_parentheses :
    LineForm "\u2003(LOOP)\u00a0///" (.ok (.label "LOOP")) ∧
    LineForm "(LOOP) )// END" (.error ⟨.malformedLabel, "(LOOP) )"⟩) ∧
    ¬ LineForm "( LOOP)" (.ok (.label "LOOP")) ∧
    ∃ before, "D=A / /// " = before ++ "//" ++ "/ " ∧ trimmed before = "D=A /" := by
  refine ⟨?_, ?_, ?_, ?_⟩
  · exact ((line_form _).1 _).mp (by decide +kernel)
  · exact ((line_form _).1 _).mp (by decide +kernel)
  · intro h
    have hparse := ((line_form _).1 _).mpr h
    revert hparse
    decide +kernel
  · have hcode : codeOf "D=A / /// " = "D=A /" := by decide +kernel
    rw [← hcode]
    exact (line_form _).2.2 "/ " (by decide +kernel)

end HackAssembler
