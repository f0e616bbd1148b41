import HackAssembler.Proofs.FieldCuts
import HackAssembler.Proofs.WrittenForm

/-!
# The form of a compute statement

A compute statement is `[L =] m [; g]`, with blanks wherever there is room for them: letters, the
mnemonic of a computation, the mnemonic of a jump.

* `ComputeForm`      the texts of this form, and what they stand for;
* `PartsFault`, `ComputeFault`   the first thing that is wrong with any other text;
* `Fields.destination_eq_ok_iff` and the like   one part, read or refused;
* `parse_compute_iff`   a statement is read just when it has the form, and refused with its fault
                     just when it has not.
-/

namespace HackAssembler

/-! ## the form -/

/-- letters before a `=`, in any order, repeated or not; or nothing -/
inductive DestinationForm : List Char → Destination → Prop
  | missing : DestinationForm [] .none
  | letters {ls cs : List Char} (hne : ls ≠ []) (hls : ∀ c ∈ ls, c ∈ ['A', 'D', 'M'])
      (h : Padded ls cs) :
      DestinationForm (cs ++ ['=']) ⟨ls.contains 'A', ls.contains 'D', ls.contains 'M'⟩

/-- a mnemonic behind a `;`, or nothing -/
inductive JumpForm : List Char → JumpCondition → Prop
  | missing : JumpForm [] .never
  | mnemonic {j : JumpCondition} {g : String} {cs : List Char} (hg : j.mnemonic? = some g)
      (h : Padded g.toList cs) : JumpForm (';' :: cs) j

def ComputeForm (line : List Char) (dest : Destination) (comp : Computation)
    (jump : JumpCondition) : Prop :=
  ∃ ds cs js, line = ds ++ (cs ++ js) ∧ DestinationForm ds dest ∧ Padded comp.mnemonic.toList cs ∧
    JumpForm js jump

/-! ## faults -/

/-- the first part that has not its form -/
inductive PartsFault (dest : Option (List Char)) (comp : List Char) (jump : Option (List Char)) :
    Fault → Prop
  | destination {ds : List Char} (hds : dest = some ds)
      (h : ¬ ∃ d, DestinationForm (destinationPart dest) d) :
      PartsFault dest comp jump ⟨.unknownDestination, String.ofList (trim ds)⟩
  | computation (hd : ∃ d, DestinationForm (destinationPart dest) d)
      (h : ¬ ∃ c : Computation, Padded c.mnemonic.toList comp) :
      PartsFault dest comp jump ⟨.unknownComputation, String.ofList (trim comp)⟩
  | jump {js : List Char} (hd : ∃ d, DestinationForm (destinationPart dest) d)
      (hc : ∃ c : Computation, Padded c.mnemonic.toList comp) (hjs : jump = some js)
      (h : ¬ ∃ j, JumpForm (jumpPart jump) j) :
      PartsFault dest comp jump ⟨.unknownJump, String.ofList (trim js)⟩

inductive ComputeFault (line : String) : Fault → Prop
  | misordered (h : Misordered line.toList) : ComputeFault line ⟨.malformedInstruction, line⟩
  | part {dest jump : Option (List Char)} {comp : List Char} {f : Fault}
      (h : Cut line.toList dest comp jump) (hf : PartsFault dest comp jump f) : ComputeFault line f

/-! ## one part -/

theorem Destination.isLetter_iff {c : Char} : isLetter c ↔ c ∈ ['A', 'D', 'M'] := by
  simp [isLetter, or_assoc]

theorem Destination.ofLetters?_eq_some_iff {cs : List Char} {s : Destination} :
    ofLetters? cs = some s ↔ (∀ c ∈ cs, c ∈ ['A', 'D', 'M']) ∧
      ⟨cs.contains 'A', cs.contains 'D', cs.contains 'M'⟩ = s := by
  have hall : cs.all isLetter = true ↔ ∀ c ∈ cs, c ∈ ['A', 'D', 'M'] := by
    simp only [List.all_eq_true, isLetter_iff]
  rw [ofLetters?, ← hall]
  split
  · next h => simp [h]
  · next h => simp [h]

theorem noBlankEnds_of_letters {ls : List Char} (h : ∀ c ∈ ls, c ∈ ['A', 'D', 'M']) :
    NoBlankEnds ls := by
  have hletters : ∀ c ∈ ['A', 'D', 'M'], !isBlank c := List.all_eq_true.mp (by decide)
  exact noBlankEnds_of_all (List.all_eq_true.mpr fun c hc => hletters c (h c hc))

theorem Destination.parse_trim_eq_ok_iff {cs : List Char} {s : Destination} :
    parse (String.ofList (trim cs)) = .ok s ↔ DestinationForm (cs ++ ['=']) s := by
  have hparse : parse (String.ofList (trim cs)) = .ok s ↔
      trim cs ≠ [] ∧ ofLetters? (trim cs) = some s := by
    rw [parse, String.toList_ofList, trim_trim]
    by_cases hne : trim cs = []
    · simp [hne]
    · rw [if_neg hne]
      cases ofLetters? (trim cs) <;> simp [hne]
  rw [hparse, ofLetters?_eq_some_iff]
  constructor
  · rintro ⟨hne, hls, rfl⟩
    exact .letters hne hls (padded_trim cs)
  · generalize e : cs ++ ['='] = part
    rintro (_ | ⟨hne, hls, h⟩)
    · simp at e
    · obtain ⟨rfl, -⟩ := List.append_inj' e rfl
      rw [h.trim_eq (noBlankEnds_of_letters hls)]
      exact ⟨hne, hls, rfl⟩

theorem Computation.parse_trim_eq_ok_iff {cs : List Char} {c : Computation} :
    parse (String.ofList (trim cs)) = .ok c ↔ Padded c.mnemonic.toList cs := by
  have hparse : parse (String.ofList (trim cs)) = .ok c ↔ c.mnemonic = String.ofList (trim cs) := by
    rw [parse, trimmed_ofList, trim_trim, ← ofMnemonic?_eq_some_iff]
    cases ofMnemonic? (String.ofList (trim cs)) <;> simp
  rw [hparse]
  constructor
  · intro h
    rw [h, String.toList_ofList]
    exact padded_trim cs
  · intro h
    rw [h.trim_eq (plain_of_isField c.isField_mnemonic.1).noBlankEnds, String.ofList_toList]

theorem JumpCondition.parse_trim_eq_ok_iff {cs : List Char} {j : JumpCondition} :
    parse (String.ofList (trim cs)) = .ok j ↔ JumpForm (';' :: cs) j := by
  have hparse : parse (String.ofList (trim cs)) = .ok j ↔
      j.mnemonic? = some (String.ofList (trim cs)) := by
    rw [parse, trimmed_ofList, trim_trim, ← ofMnemonic?_eq_some_iff]
    cases ofMnemonic? (String.ofList (trim cs)) <;> simp
  rw [hparse]
  constructor
  · intro h
    refine .mnemonic h ?_
    rw [String.toList_ofList]
    exact padded_trim cs
  · rintro (_ | ⟨hg, h⟩)
    rw [h.trim_eq (plain_of_isField (j.isField_mnemonic _ hg)).noBlankEnds, String.ofList_toList]
    exact hg

namespace Fields

variable {dest jump : Option (List Char)} {comp ds js : List Char} {f : Fault}

theorem destination_ofParts : (ofParts (some ds) comp jump).destination =
    (Destination.parse (String.ofList (trim ds))).mapError
      fun _ => ⟨.unknownDestination, String.ofList (trim ds)⟩ := rfl

theorem computation_ofParts : (ofParts dest comp jump).computation =
    (Computation.parse (String.ofList (trim comp))).mapError
      fun _ => ⟨.unknownComputation, String.ofList (trim comp)⟩ := rfl

theorem jumpCondition_ofParts : (ofParts dest comp (some js)).jumpCondition =
    (JumpCondition.parse (String.ofList (trim js))).mapError
      fun _ => ⟨.unknownJump, String.ofList (trim js)⟩ := rfl

theorem destination_eq_ok_iff {d : Destination} :
    (ofParts dest comp jump).destination = .ok d ↔ DestinationForm (destinationPart dest) d := by
  cases dest with
  | none =>
    show Except.ok Destination.none = .ok d ↔ DestinationForm [] d
    constructor
    · intro h
      cases h
      exact .missing
    · generalize e : ([] : List Char) = part
      rintro (_ | _)
      · rfl
      · simp at e
  | some ds =>
    rw [destination_ofParts, mapError_eq_ok_iff]
    exact Destination.parse_trim_eq_ok_iff

theorem destination_eq_error_iff :
    (ofParts dest comp jump).destination = .error f ↔
      ∃ ds, dest = some ds ∧ (¬ ∃ d, DestinationForm (destinationPart dest) d) ∧
        f = ⟨.unknownDestination, String.ofList (trim ds)⟩ := by
  cases dest with
  | none => simp [ofParts, destination]
  | some ds =>
    rw [destination_ofParts, mapError_const_eq_error_iff]
    simp [Destination.parse_trim_eq_ok_iff, destinationPart]

theorem computation_eq_ok_iff {c : Computation} :
    (ofParts dest comp jump).computation = .ok c ↔ Padded c.mnemonic.toList comp := by
  rw [computation_ofParts, mapError_eq_ok_iff]
  exact Computation.parse_trim_eq_ok_iff

theorem computation_eq_error_iff :
    (ofParts dest comp jump).computation = .error f ↔
      (¬ ∃ c : Computation, Padded c.mnemonic.toList comp) ∧
        f = ⟨.unknownComputation, String.ofList (trim comp)⟩ := by
  rw [computation_ofParts, mapError_const_eq_error_iff]
  simp only [Computation.parse_trim_eq_ok_iff]

theorem jumpCondition_eq_ok_iff {j : JumpCondition} :
    (ofParts dest comp jump).jumpCondition = .ok j ↔ JumpForm (jumpPart jump) j := by
  cases jump with
  | none =>
    show Except.ok JumpCondition.never = .ok j ↔ JumpForm [] j
    constructor
    · intro h
      cases h
      exact .missing
    · intro h
      cases h
      rfl
  | some js =>
    rw [jumpCondition_ofParts, mapError_eq_ok_iff]
    exact JumpCondition.parse_trim_eq_ok_iff

theorem jumpCondition_eq_error_iff :
    (ofParts dest comp jump).jumpCondition = .error f ↔
      ∃ js, jump = some js ∧ (¬ ∃ j, JumpForm (jumpPart jump) j) ∧
        f = ⟨.unknownJump, String.ofList (trim js)⟩ := by
  cases jump with
  | none => simp [ofParts, jumpCondition]
  | some js =>
    rw [jumpCondition_ofParts, mapError_const_eq_error_iff]
    simp [JumpCondition.parse_trim_eq_ok_iff, jumpPart]

end Fields

/-! ## all parts -/

section
variable {dest jump : Option (List Char)} {comp : List Char}

theorem Statement.ofFields_ofParts_eq_ok_iff {s : Statement} :
    ofFields (.ofParts dest comp jump) = .ok s ↔
      ∃ d c j, s = .compute d c j ∧ DestinationForm (destinationPart dest) d ∧
        Padded c.mnemonic.toList comp ∧ JumpForm (jumpPart jump) j := by
  simp only [ofFields_eq, bind_eq_ok_iff, Fields.destination_eq_ok_iff,
    Fields.computation_eq_ok_iff, Fields.jumpCondition_eq_ok_iff, Except.ok.injEq]
  constructor
  · rintro ⟨d, hd, c, hc, j, hj, rfl⟩
    exact ⟨d, c, j, rfl, hd, hc, hj⟩
  · rintro ⟨d, c, j, rfl, hd, hc, hj⟩
    exact ⟨d, hd, c, hc, j, hj, rfl⟩

theorem Statement.ofFields_ofParts_eq_error_iff {f : Fault} :
    ofFields (.ofParts dest comp jump) = .error f ↔ PartsFault dest comp jump f := by
  simp only [ofFields_eq, bind_eq_error_iff, Fields.destination_eq_ok_iff,
    Fields.computation_eq_ok_iff, Fields.jumpCondition_eq_ok_iff, Fields.destination_eq_error_iff,
    Fields.computation_eq_error_iff, Fields.jumpCondition_eq_error_iff]
  constructor
  · rintro (⟨ds, hds, h, rfl⟩ | ⟨d, hd, ⟨h, rfl⟩ | ⟨c, hc, ⟨js, hjs, h, rfl⟩ | ⟨j, -, hj⟩⟩⟩)
    · exact .destination hds h
    · exact .computation ⟨d, hd⟩ h
    · exact .jump ⟨d, hd⟩ ⟨c, hc⟩ hjs h
    · cases hj
  · intro hf
    cases hf with
    | destination hds h => exact .inl ⟨_, hds, h, rfl⟩
    | computation hd h =>
      obtain ⟨d, hd⟩ := hd
      exact .inr ⟨d, hd, .inl ⟨h, rfl⟩⟩
    | jump hd hc hjs h =>
      obtain ⟨d, hd⟩ := hd
      obtain ⟨c, hc⟩ := hc
      exact .inr ⟨d, hd, .inr ⟨c, hc, .inl ⟨_, hjs, h, rfl⟩⟩⟩

end

/-- a text of the form is cut at the borders of its parts -/
theorem ComputeForm.exists_cut {line : List Char} {d : Destination} {c : Computation}
    {j : JumpCondition} (h : ComputeForm line d c j) :
    ∃ dest comp jump, Cut line dest comp jump ∧ DestinationForm (destinationPart dest) d ∧
      Padded c.mnemonic.toList comp ∧ JumpForm (jumpPart jump) j := by
  obtain ⟨ds, cs, js, rfl, hd, hc, hj⟩ := h
  have hcomp : '=' ∉ cs ∧ ';' ∉ cs :=
    ⟨hc.not_mem (by decide) (not_mem_of_isField c.isField_mnemonic.1 (by decide)),
      hc.not_mem (by decide) (not_mem_of_isField c.isField_mnemonic.1 (by decide))⟩
  have hdest : ∃ dest, ds = destinationPart dest ∧ ∀ ds ∈ dest, '=' ∉ ds ∧ ';' ∉ ds := by
    cases hd with
    | missing => exact ⟨none, rfl, nofun⟩
    | @letters ls cs hne hls h =>
      refine ⟨some cs, rfl, fun cs' hcs => ?_⟩
      cases hcs
      have hsep : ∀ c ∈ ['A', 'D', 'M'], c ≠ '=' ∧ c ≠ ';' := by simp
      exact ⟨h.not_mem (by decide) fun hm => (hsep _ (hls _ hm)).1 rfl,
        h.not_mem (by decide) fun hm => (hsep _ (hls _ hm)).2 rfl⟩
  have hjump : ∃ jump, js = jumpPart jump ∧ ∀ js ∈ jump, '=' ∉ js := by
    cases hj with
    | missing => exact ⟨none, rfl, nofun⟩
    | @mnemonic j g cs hg h =>
      refine ⟨some cs, rfl, fun cs' hcs => ?_⟩
      cases hcs
      exact h.not_mem (by decide) (not_mem_of_isField (j.isField_mnemonic g hg) (by decide))
  obtain ⟨dest, rfl, hdest⟩ := hdest
  obtain ⟨jump, rfl, hjump⟩ := hjump
  exact ⟨dest, cs, jump, ⟨rfl, hdest, hcomp, hjump⟩, hd, hc, hj⟩

/-! ## statements -/

theorem operandText?_eq_none_iff {line : String} :
    operandText? line = none ↔ line.toList.head? ≠ some '@' := by
  rw [operandText?]
  cases line.toList with
  | nil => simp
  | cons c cs => simp

namespace Instruction

variable {line : String} {t : SymbolTable}

theorem parse_of_cut (ho : operandText? line = none) {dest jump : Option (List Char)}
    {comp : List Char} (h : Cut line.toList dest comp jump) :
    parse t line = (Statement.ofFields (.ofParts dest comp jump)).bind (Statement.resolve t) := by
  rw [parse_eq, Statement.parse_compute ho, Fields.parse_of_cut h]
  rfl

theorem parse_of_misordered (ho : operandText? line = none) (h : Misordered line.toList) :
    parse t line = .error ⟨.malformedInstruction, line⟩ := by
  rw [parse_eq, Statement.parse_compute ho, Fields.parse_of_misordered h]
  rfl

/-- what is read has been cut before -/
theorem exists_cut_of_parse (ho : operandText? line = none) {i : Instruction}
    (h : parse t line = .ok i) : ∃ dest comp jump, Cut line.toList dest comp jump := by
  refine exists_cut fun hm => ?_
  rw [parse_of_misordered ho hm] at h
  cases h

theorem parse_eq_ok_iff_form (ho : operandText? line = none) {i : Instruction} :
    parse t line = .ok i ↔ ∃ dest comp jump, i = .compute dest comp jump ∧
      ComputeForm line.toList dest comp jump := by
  constructor
  · intro h
    obtain ⟨dest, comp, jump, hcut⟩ := exists_cut_of_parse ho h
    rw [parse_of_cut ho hcut] at h
    obtain ⟨s, hs, hi⟩ := bind_eq_ok_iff.mp h
    obtain ⟨d, c, j, rfl, hd, hc, hj⟩ := Statement.ofFields_ofParts_eq_ok_iff.mp hs
    cases hi
    exact ⟨d, c, j, rfl, _, _, _, hcut.eq, hd, hc, hj⟩
  · rintro ⟨d, c, j, rfl, hform⟩
    obtain ⟨dest, comp, jump, hcut, hparts⟩ := hform.exists_cut
    have hs : Statement.ofFields (.ofParts dest comp jump) = .ok (.compute d c j) :=
      Statement.ofFields_ofParts_eq_ok_iff.mpr ⟨d, c, j, rfl, hparts⟩
    rw [parse_of_cut ho hcut, hs]
    rfl

theorem parse_eq_error_iff_fault (ho : operandText? line = none) {f : Fault} :
    parse t line = .error f ↔ ComputeFault line f := by
  constructor
  · intro h
    by_cases hm : Misordered line.toList
    · rw [parse_of_misordered ho hm] at h
      cases h
      exact .misordered hm
    · obtain ⟨dest, comp, jump, hcut⟩ := exists_cut hm
      rw [parse_of_cut ho hcut] at h
      rcases bind_eq_error_iff.mp h with hf | ⟨s, hs, hi⟩
      · exact .part hcut (Statement.ofFields_ofParts_eq_error_iff.mp hf)
      · obtain ⟨d, c, j, rfl, -⟩ := Statement.ofFields_ofParts_eq_ok_iff.mp hs
        cases hi
  · intro hf
    cases hf with
    | misordered hm => exact parse_of_misordered ho hm
    | part hcut hf =>
      rw [parse_of_cut ho hcut, Statement.ofFields_ofParts_eq_error_iff.mpr hf]
      rfl

end Instruction

/-- **A compute statement is what its form says.**  A text without `@` in front is read just when
it has the form, as the letters, the computation and the jump that it is written with; any other
text is refused, for a misplaced separator or else for its first part out of form.  No table has a
say in it. -/
theorem parse_compute_iff {line : String} (h : line.toList.head? ≠ some '@') (t : SymbolTable) :
    (∀ i, Instruction.parse t line = .ok i ↔ ∃ dest comp jump, i = .compute dest comp jump ∧
      ComputeForm line.toList dest comp jump) ∧
    ∀ f, Instruction.parse t line = .error f ↔ ComputeFault line f := by
  have ho := operandText?_eq_none_iff.mpr h
  exact ⟨fun _ => Instruction.parse_eq_ok_iff_form ho,
    fun _ => Instruction.parse_eq_error_iff_fault ho⟩

/-- a repeated letter between blanks of several kinds, and a computation that is none -/
theorem parse_compute_iff_letters :
    "DAD\u00a0= M-1\t;JNE".toList.head? ≠ some '@' ∧
      Instruction.parse .empty "DAD\u00a0= M-1\t;JNE" =
        .ok (.compute ⟨true, true, false⟩ (.predSecond .m) ⟨true, false, true⟩) ∧
    "D = D+B ;JZ".toList.head? ≠ some '@' ∧
      Instruction.parse .empty "D = D+B ;JZ" = .error ⟨.unknownComputation, "D+B"⟩ := by
  have hok : "DAD\u00a0= M-1\t;JNE".toList.head? ≠ some '@' := by decide
  have hbad : "D = D+B ;JZ".toList.head? ≠ some '@' := by decide
  have hform : ComputeForm "DAD\u00a0= M-1\t;JNE".toList ⟨true, true, false⟩ (.predSecond .m)
      ⟨true, false, true⟩ := by
    have hletters : Padded ['D', 'A', 'D'] ['D', 'A', 'D', '\u00a0'] :=
      .of_all [] _ ['\u00a0'] rfl rfl
    have hdest : DestinationForm (['D', 'A', 'D', '\u00a0'] ++ ['=']) ⟨true, true, false⟩ :=
      .letters (by simp) (by simp) hletters
    have hcomp : Padded (Computation.predSecond .m).mnemonic.toList [' ', 'M', '-', '1', '\t'] :=
      .of_all [' '] ['M', '-', '1'] ['\t'] rfl rfl
    have hjump : JumpForm (';' :: ['J', 'N', 'E']) ⟨true, false, true⟩ :=
      .mnemonic (g := "JNE") rfl (.of_all [] ['J', 'N', 'E'] [] rfl rfl)
    have hline : "DAD\u00a0= M-1\t;JNE".toList = (['D', 'A', 'D', '\u00a0'] ++ ['=']) ++
      ([' ', 'M', '-', '1', '\t'] ++ (';' :: ['J', 'N', 'E'])) := rfl
    exact ⟨_, _, _, hline, hdest, hcomp, hjump⟩
  have hfault : ComputeFault "D = D+B ;JZ" ⟨.unknownComputation, "D+B"⟩ := by
    have hcut : Cut "D = D+B ;JZ".toList (some ['D', ' ']) [' ', 'D', '+', 'B', ' ']
        (some ['J', 'Z']) :=
      ⟨rfl, by decide, by decide, by decide⟩
    have hletters : Padded ['D'] ['D', ' '] := .of_all [] _ [' '] rfl rfl
    have hdest : DestinationForm (['D', ' '] ++ ['=']) ⟨false, true, false⟩ :=
      .letters (by simp) (by simp) hletters
    have hcomp : ¬ ∃ c : Computation, Padded c.mnemonic.toList [' ', 'D', '+', 'B', ' '] := by
      rintro ⟨c, hc⟩
      have hparse := Computation.parse_trim_eq_ok_iff.mpr hc
      have hrefused :
          (Computation.parse (String.ofList (trim [' ', 'D', '+', 'B', ' ']))).isOk = false := by
        decide
      rw [hparse] at hrefused
      cases hrefused
    exact .part hcut (.computation ⟨_, hdest⟩ hcomp)
  exact ⟨hok, ((parse_compute_iff hok .empty).1 _).mpr ⟨_, _, _, rfl, hform⟩, hbad,
    ((parse_compute_iff hbad .empty).2 _).mpr hfault⟩

end HackAssembler
