import HackAssembler.Proofs.SecondPass
import HackAssembler.Proofs.SurveyTable
import HackAssembler.Report

/-!
# Quotations: a fault quotes the line it is reported on

Each fault quotes a piece of the code that it was found in, and a walk ties it to the line of this
code.  A variable without a data cell is found when all lines have been read; it is reported on the
line that mentions it first.

* `Piece`                     a contiguous piece of a text;
* `Instruction.quoted_of_parse`   what is quoted of an instruction;
* `Survey.quoted_of_readLine`, `Assembly.quoted_of_readLine`   what a step of a pass quotes of its line;
* `Survey.mem_of_allocate_error`, `firstUse?`   a variable without a cell;
* `fault_quotes_line`         the faults of both passes.
-/

namespace HackAssembler

/-! ## pieces -/

/-- `s` is a contiguous piece of `text` -/
def Piece (s text : String) : Prop := s.toList <:+: text.toList

namespace Piece

variable {text : String} {cs : List Char}

theorem refl (text : String) : Piece text text := List.infix_rfl

theorem of_trim (h : cs <:+: text.toList) : Piece (String.ofList (trim cs)) text := by
  rw [Piece, String.toList_ofList]
  exact (padded_trim cs).isInfix.trans h

end Piece

theorem isInfix_of_splitOnce? {sep cs before after : List Char}
    (h : splitOnce? sep cs = some (before, after)) : before <:+: cs ∧ after <:+: cs := by
  rw [append_of_splitOnce? h]
  constructor
  · rw [List.append_assoc]
    exact List.infix_append_left
  · exact List.infix_append_right

/-! ## lines -/

namespace Line

variable {raw : String}

theorem codeOf_of_instruction {text : String} (h : Line.parse raw = .ok (.instruction text)) :
    codeOf raw = text := by
  unfold Line.parse ofCode at h
  split at h
  · cases h
  · split at h
    · split at h <;> cases h
    · cases h
      rfl

theorem piece_of_label {name : String} (h : Line.parse raw = .ok (.label name)) :
    Piece name (codeOf raw) := by
  unfold Line.parse ofCode at h
  split at h
  · cases h
  · next c cs hcode =>
    split at h
    · split at h
      · next e =>
        cases h
        obtain ⟨rfl, -⟩ := labelName?_eq_some_iff.mp e
        rw [Piece, hcode, ← List.singleton_append]
        exact List.infix_append' ..
      · cases h
    · cases h

end Line

/-! ## operands -/

theorem piece_of_operandText? {text operand : String} (h : operandText? text = some operand) :
    Piece operand text := by
  unfold operandText? at h
  split at h
  · cases h
  · next c cs htext =>
    split at h
    · cases h
      apply Piece.of_trim
      rw [htext]
      exact List.infix_cons List.infix_rfl
    · cases h

theorem Operand.quoted_of_parse {s : String} {f : Fault} (h : parse s = .error f) :
    f.quoted = s := by
  unfold parse at h
  split at h
  · split at h
    · cases h
    · cases h
      rfl
  · split at h
    · cases h
    · cases h
      rfl

/-! ## compute statements -/

/-- the fields of a compute statement are pieces of it -/
structure Fields.Of (fs : Fields) (text : String) : Prop where
  dest : ∀ d, fs.dest = some d → Piece d text
  comp : Piece fs.comp text
  jump : ∀ j, fs.jump = some j → Piece j text

theorem cutDestination_isInfix (cs : List Char) :
    (∀ d ∈ (cutDestination cs).1, d <:+: cs) ∧ (cutDestination cs).2 <:+: cs := by
  unfold cutDestination
  split
  · next dest rest h =>
    obtain ⟨hdest, hrest⟩ := isInfix_of_splitOnce? h
    refine ⟨fun d hd => ?_, hrest⟩
    cases hd
    exact hdest
  · exact ⟨nofun, List.infix_rfl⟩

theorem cutJump_isInfix (cs : List Char) :
    (cutJump cs).1 <:+: cs ∧ ∀ j ∈ (cutJump cs).2, j <:+: cs := by
  unfold cutJump
  split
  · next comp jump h =>
    obtain ⟨hcomp, hjump⟩ := isInfix_of_splitOnce? h
    refine ⟨hcomp, fun j hj => ?_⟩
    cases hj
    exact hjump
  · exact ⟨List.infix_rfl, nofun⟩

namespace Fields

variable {fs : Fields} {text : String} {f : Fault}

theorem of_parse (h : parse text = .ok fs) : fs.Of text := by
  obtain ⟨hdest, hrest⟩ := cutDestination_isInfix text.toList
  obtain ⟨hcomp, hjump⟩ := cutJump_isInfix (cutDestination text.toList).2
  simp only [parse] at h
  split at h
  · cases h
  · cases h
    refine ⟨fun d hd => ?_, .of_trim (hcomp.trans hrest), fun j hj => ?_⟩
    · obtain ⟨cs, hcs, rfl⟩ := Option.map_eq_some_iff.mp hd
      exact .of_trim (hdest cs hcs)
    · obtain ⟨cs, hcs, rfl⟩ := Option.map_eq_some_iff.mp hj
      exact .of_trim ((hjump cs hcs).trans hrest)

theorem quoted_of_parse (h : parse text = .error f) : f.quoted = text := by
  simp only [parse] at h
  split at h
  · cases h
    rfl
  · cases h

theorem Of.destination (hfs : fs.Of text) (h : fs.destination = .error f) : Piece f.quoted text := by
  unfold Fields.destination at h
  split at h
  · next d hd =>
    obtain ⟨-, -, rfl⟩ := mapError_eq_error_iff.mp h
    exact hfs.dest d hd
  · cases h

theorem Of.computation (hfs : fs.Of text) (h : fs.computation = .error f) : Piece f.quoted text := by
  unfold Fields.computation at h
  obtain ⟨-, -, rfl⟩ := mapError_eq_error_iff.mp h
  exact hfs.comp

theorem Of.jumpCondition (hfs : fs.Of text) (h : fs.jumpCondition = .error f) :
    Piece f.quoted text := by
  unfold Fields.jumpCondition at h
  split at h
  · next j hj =>
    obtain ⟨-, -, rfl⟩ := mapError_eq_error_iff.mp h
    exact hfs.jump j hj
  · cases h

end Fields

theorem Statement.quoted_of_ofFields {fs : Fields} {text : String} (hfs : fs.Of text) {f : Fault}
    (h : ofFields fs = .error f) : Piece f.quoted text := by
  rw [ofFields_eq] at h
  rcases bind_eq_error_iff.mp h with hd | ⟨dest, -, h⟩
  · exact hfs.destination hd
  rcases bind_eq_error_iff.mp h with hc | ⟨comp, -, h⟩
  · exact hfs.computation hc
  rcases bind_eq_error_iff.mp h with hj | ⟨jump, -, h⟩
  · exact hfs.jumpCondition hj
  · cases h

/-! ## instructions -/

namespace Instruction

variable {t : SymbolTable} {text : String} {f : Fault}

theorem quoted_of_parse_compute (ho : operandText? text = none) (h : parse t text = .error f) :
    Piece f.quoted text := by
  rw [parse_eq, Statement.parse_compute ho] at h
  rcases bind_eq_error_iff.mp h with hs | ⟨s, hs, hr⟩
  · rcases bind_eq_error_iff.mp hs with hp | ⟨fs, hp, hf⟩
    · rw [Fields.quoted_of_parse hp]
      exact .refl text
    · exact Statement.quoted_of_ofFields (Fields.of_parse hp) hf
  · rw [← Statement.parse_compute ho] at hs
    obtain ⟨dest, comp, jump, rfl⟩ := Statement.parse_compute_eq_ok ho hs
    cases hr

/-- an address statement quotes its operand, whatever its symbol is bound to -/
theorem quoted_of_parse_address {operand : String} (ho : operandText? text = some operand)
    (h : parse t text = .error f) : f.quoted = operand := by
  cases hp : Operand.parse operand with
  | error g =>
    rw [parse_eq, Statement.parse_address ho, hp] at h
    cases h
    exact Operand.quoted_of_parse hp
  | ok o =>
    cases o with
    | literal value =>
      rw [parse_address ho hp rfl (Operand.le_maxAddress_of_parse hp).2] at h
      cases h
    | symbol name =>
      obtain ⟨hn, rfl⟩ := Operand.parse_eq_symbol_iff.mp hp
      rw [parse_symbol ho hn] at h
      rcases bind_eq_error_iff.mp h with hsymbol | ⟨value, -, hvalue⟩
      · unfold SymbolTable.address at hsymbol
        split at hsymbol
        · cases hsymbol
        · cases hsymbol
          rfl
      · obtain ⟨-, -, rfl⟩ := mapError_eq_error_iff.mp hvalue
        rfl

theorem quoted_of_parse (h : parse t text = .error f) : Piece f.quoted text := by
  cases ho : operandText? text with
  | none => exact quoted_of_parse_compute ho h
  | some operand =>
    rw [quoted_of_parse_address ho h]
    exact piece_of_operandText? ho

end Instruction

/-! ## steps -/

theorem quoted_of_line {raw : String} {f : Fault} (h : Line.parse raw = .error f) :
    Piece f.quoted (codeOf raw) := by
  rw [Line.parse_eq_error h]
  exact .refl _

namespace Survey

variable {s : Survey} {f : Fault}

theorem quoted_of_addLabel {name : String} (h : s.addLabel name = .error f) : f.quoted = name := by
  have hf := faultOf?_eq_some_iff.mpr h
  rw [faultOf?_addLabel] at hf
  split at hf
  · cases hf
    rfl
  · split at hf
    · cases hf
      rfl
    · cases hf

theorem quoted_of_addInstruction {line : Nat} {text : String}
    (h : s.addInstruction line text = .error f) : Piece f.quoted text := by
  have hf := faultOf?_eq_some_iff.mpr h
  rw [faultOf?_addInstruction, faultOf?_mention?] at hf
  obtain ⟨operand, ho, hp⟩ := Option.bind_eq_some_iff.mp hf
  rw [Operand.quoted_of_parse (faultOf?_eq_some_iff.mp hp)]
  exact piece_of_operandText? ho

/-- a fault of the first pass on a line -/
theorem quoted_of_readLine {i : Nat} {raw : String} (h : readLine step i raw s = .error f) :
    Line.parse raw ≠ .ok .blank ∧ Piece f.quoted (codeOf raw) := by
  unfold readLine at h
  cases hr : Line.parse raw with
  | error g =>
    rw [hr] at h
    cases h
    exact ⟨nofun, quoted_of_line hr⟩
  | ok line =>
    rw [hr] at h
    cases line with
    | blank => cases h
    | label name =>
      refine ⟨nofun, ?_⟩
      rw [quoted_of_addLabel h]
      exact Line.piece_of_label hr
    | instruction text =>
      refine ⟨nofun, ?_⟩
      rw [Line.codeOf_of_instruction hr]
      exact quoted_of_addInstruction h

end Survey

/-- a fault of the second pass on a line; the lack of a place is no fault of the line -/
theorem Assembly.quoted_of_readLine {t : SymbolTable} {i : Nat} {raw : String}
    {code : Array Placed} {f : Fault} (h : readLine (place t) i raw code = .error f) :
    Line.parse raw ≠ .ok .blank ∧
      (Piece f.quoted (codeOf raw) ∨ ∃ text, instructionText? raw = some text ∧
        32767 < code.size ∧ f = ⟨.outOfRange, toString code.size⟩) := by
  unfold readLine at h
  cases hr : Line.parse raw with
  | error g =>
    rw [hr] at h
    cases h
    exact ⟨nofun, .inl (quoted_of_line hr)⟩
  | ok line =>
    rw [hr] at h
    cases line with
    | blank => cases h
    | label name => cases h
    | instruction text =>
      refine ⟨nofun, ?_⟩
      have hf := faultOf?_eq_some_iff.mpr h
      rw [Except.bind, faultOf?_place] at hf
      split at hf
      · left
        rw [Line.codeOf_of_instruction hr]
        exact Instruction.quoted_of_parse (faultOf?_eq_some_iff.mp hf)
      · next hfull =>
        cases hf
        exact .inr ⟨text, instructionText?_eq_some_iff.mpr hr, Nat.lt_of_not_le hfull, rfl⟩

/-! ## variables without a cell -/

/-- an allocation fails for a name of its list, on the line that stands with it -/
theorem Survey.mem_of_allocate_error {ms : List (String × Nat)} {t : SymbolTable}
    {e : LocatedFault} (h : allocate ms t = .error e) : (e.fault.quoted, e.line) ∈ ms := by
  induction ms generalizing t with
  | nil => cases h
  | cons m ms ih =>
    obtain ⟨name, line⟩ := m
    by_cases hc : t.contains name
    · rw [allocate_bound hc] at h
      exact List.mem_cons_of_mem _ (ih h)
    · rw [allocate_unbound hc] at h
      split at h
      · rcases bind_eq_error_iff.mp h with hadd | ⟨u, -, hrest⟩
        · obtain ⟨f, hf, rfl⟩ := mapError_eq_error_iff.mp hadd
          obtain ⟨-, rfl⟩ := SymbolTable.add_eq_error_iff.mp hf
          exact List.mem_cons_self
        · exact List.mem_cons_of_mem _ (ih hrest)
      · cases h
        exact List.mem_cons_self

/-- the first line whose instruction has the operand `name` -/
def firstUse? (lines : List String) (name : String) : Option Nat :=
  lines.findIdx? fun raw => (instructionText? raw).bind operandText? == some name

theorem firstUse?_of_mentioned {lines : List String} {name : String}
    (h : name ∈ mentionedNames lines) : firstUse? lines name = some (firstMention lines name) := by
  have hn : isName name := isName_of_mem_mentionedNames h
  have huse : (fun raw => (instructionText? raw).bind operandText? == some name) =
      fun raw => mentionedSymbol? raw == some name := by
    funext raw
    rw [Bool.eq_iff_iff, beq_iff_eq, beq_iff_eq, mentionedSymbol?_eq_some_iff,
      Option.bind_eq_some_iff]
    simp only [hn, and_true]
  obtain ⟨raw, hmem, hm⟩ := mem_mentionedNames.mp h
  rw [firstUse?, huse]
  exact List.findIdx?_eq_some_of_exists ⟨raw, hmem, by simp [hm]⟩

/-! ## both passes -/

/-- line `i` of the program is `raw`, which is not blank, and a diagnostic of line `i` shows it -/
structure Shown (lines : List String) (i : Nat) (raw : String) : Prop where
  line : lines[i]? = some raw
  not_blank : Line.parse raw ≠ .ok .blank
  row : ∀ message file : String,
    [.plain " ", .colored .blue (alignRight 4 (toString (i + 1)) ++ " |"), .plain " ", .plain raw] ∈
      diagnostic message file lines i

theorem Shown.of_line {lines : List String} {i : Nat} {raw : String} (h : lines[i]? = some raw)
    (hraw : Line.parse raw ≠ .ok .blank) : Shown lines i raw := by
  refine ⟨h, hraw, fun message file => ?_⟩
  simp [diagnostic, h]

section
variable {lines : List String} {e : LocatedFault}

theorem survey_error_shown (h : survey lines = .error e) :
    ∃ raw, Shown lines e.line raw ∧ Piece e.fault.quoted (codeOf raw) ∧
      ∀ s, walk Survey.step 0 lines .empty = .ok s →
        firstUse? lines e.fault.quoted = some e.line := by
  cases hw : walk Survey.step 0 lines .empty with
  | error e' =>
    rw [survey, hw] at h
    cases h
    obtain ⟨raw, s, hraw, -, hread⟩ := line_of_walk_error hw
    obtain ⟨hblank, hpiece⟩ := Survey.quoted_of_readLine hread
    refine ⟨raw, .of_line hraw hblank, hpiece, fun s hs => ?_⟩
    cases hs
  | ok s =>
    rw [Survey.survey_of_walk hw] at h
    have hmem := Survey.mem_of_allocate_error h
    rw [(Survey.keeps.inv_of_walk Survey.describes_empty hw).mentions] at hmem
    obtain ⟨name, hname, hpair⟩ := List.mem_map.mp hmem
    obtain ⟨hquoted, hline⟩ := Prod.mk.inj hpair
    obtain ⟨raw, hraw, hm⟩ := getElem?_firstMention hname
    obtain ⟨text, ht, ho, -⟩ := mentionedSymbol?_eq_some_iff.mp hm
    have hparse := instructionText?_eq_some_iff.mp ht
    have hblank : Line.parse raw ≠ .ok .blank := by
      rw [hparse]
      intro h
      cases h
    rw [hline] at hraw
    refine ⟨raw, .of_line hraw hblank, ?_, fun _ _ => ?_⟩
    · rw [Line.codeOf_of_instruction hparse, ← hquoted]
      exact piece_of_operandText? ho
    · rw [← hquoted, ← hline]
      exact firstUse?_of_mentioned hname

theorem generate_error_shown {t : SymbolTable} (h : Assembly.generate t lines = .error e) :
    ∃ raw, Shown lines e.line raw ∧ (Piece e.fault.quoted (codeOf raw) ∨
      e.fault = ⟨.outOfRange, "32768"⟩ ∧
        ∃ text, (instructionLines lines)[32768]? = some (e.line, text)) := by
  rw [Assembly.generate] at h
  split at h
  · next e' hw =>
    cases h
    obtain ⟨raw, code, hraw, habove, hread⟩ := line_of_walk_error hw
    obtain ⟨hblank, hquoted⟩ := Assembly.quoted_of_readLine hread
    refine ⟨raw, .of_line hraw hblank, hquoted.imp_right ?_⟩
    rintro ⟨text, ht, hfull, hfault⟩
    -- the code above the line fills the memory
    have hplaces := (Assembly.keeps t).inv_of_walk (Assembly.places_empty t) habove
    have hsize : code.size = 32768 := Nat.le_antisymm hplaces.fits hfull
    have hcount : instructionCount (lines.take e.line) = 32768 := hplaces.size.symm.trans hsize
    refine ⟨?_, text, getElem?_instructionLines.mpr ⟨raw, hraw, ht, hcount⟩⟩
    rw [hfault, hsize]
    rfl
  · cases h

end

/-- **A fault quotes the line it is reported on**: the line exists, it is not blank, and what is
quoted is a piece of its code.  A variable without a cell is reported where it is first used.  Only
a program too long for the instruction memory is reported otherwise: by the number of its words,
on its first instruction without a place. -/
theorem fault_quotes_line (lines : List String) :
    (∀ e, survey lines = .error e →
      ∃ raw, Shown lines e.line raw ∧ Piece e.fault.quoted (codeOf raw) ∧
        ∀ s, walk Survey.step 0 lines .empty = .ok s →
          firstUse? lines e.fault.quoted = some e.line) ∧
    (∀ t e, Assembly.generate t lines = .error e →
      ∃ raw, Shown lines e.line raw ∧ (Piece e.fault.quoted (codeOf raw) ∨
        e.fault = ⟨.outOfRange, "32768"⟩ ∧
          ∃ text, (instructionLines lines)[32768]? = some (e.line, text))) ∧
    ∀ e, assemble lines = .error e →
      ∃ raw, Shown lines e.line raw ∧ (Piece e.fault.quoted (codeOf raw) ∨
        e.fault = ⟨.outOfRange, "32768"⟩ ∧
          ∃ text, (instructionLines lines)[32768]? = some (e.line, text)) := by
  refine ⟨fun e h => survey_error_shown h, fun t e h => generate_error_shown h, fun e h => ?_⟩
  rw [assemble] at h
  split at h
  · next e' hs =>
    cases h
    obtain ⟨raw, hraw, hpiece, -⟩ := survey_error_shown hs
    exact ⟨raw, hraw, .inl hpiece⟩
  · exact generate_error_shown h

/-- a label that cannot be read, and a symbol that an empty table does not bind -/
theorem fault_quotes_line_malformed :
    (survey ["@1", " (A b) // x"] = .error ⟨1, ⟨.malformedLabel, "(A b)"⟩⟩ ∧
      ∃ raw, Shown ["@1", " (A b) // x"] 1 raw ∧ Piece "(A b)" (codeOf raw)) ∧
    Assembly.generate .empty ["D=A", "@ x // x"] = .error ⟨1, ⟨.undefinedSymbol, "x"⟩⟩ ∧
      ∃ raw, Shown ["D=A", "@ x // x"] 1 raw ∧ Piece "x" (codeOf raw) := by
  constructor
  · have hrows : (survey ["@1", " (A b) // x"]).map (·.rows) =
        .error ⟨1, ⟨.malformedLabel, "(A b)"⟩⟩ := by decide +kernel
    have h := map_eq_error_iff.mp hrows
    obtain ⟨raw, hraw, hpiece, -⟩ := (fault_quotes_line _).1 _ h
    exact ⟨h, raw, hraw, hpiece⟩
  · have hwords : (Assembly.generate .empty ["D=A", "@ x // x"]).map (·.binary) =
        .error ⟨1, ⟨.undefinedSymbol, "x"⟩⟩ := by decide +kernel
    have h := map_eq_error_iff.mp hwords
    obtain ⟨raw, hraw, hpiece | ⟨hfull, -⟩⟩ := (fault_quotes_line _).2.1 _ _ h
    · exact ⟨h, raw, hraw, hpiece⟩
    · cases hfull

end HackAssembler
