import HackAssembler.Proofs.Resolution

/-!
# The verdict: which fault an assembly reports

Three stages follow one another: the lines are surveyed, the variables get their cells, and the
instructions are encoded.  A fault of an early stage comes before any of a later one, wherever the
two stand in the program; within a stage the first line counts.

* `survey_of_firstFault`, `survey_of_crowded`, `survey_of_faultless`   the first two stages;
* `Surveyed.rejected_iff`     what the third one rejects;
* `assemble_verdict`          the three of them.
-/

namespace HackAssembler

section
variable {lines : List String}

/-! ## the first pass -/

theorem survey_of_firstFault (hn : instructionCount lines < UInt32.size) {i : Nat} {f : Fault}
    (h : FirstFault surveyFault? lines i f) : survey lines = .error ⟨i, f⟩ := by
  have hw := (Survey.agrees hn).walk_eq_error Survey.keeps Survey.describes_empty h
  rw [survey, hw]

theorem walk_of_faultless (hn : instructionCount lines < UInt32.size)
    (h : Faultless surveyFault? lines) :
    ∃ s : Survey, survey lines = Survey.allocate s.mentions.toList s.table ∧
      Survey.Describes lines s := by
  obtain ⟨s, hw⟩ := (Survey.agrees hn).walk_ok Survey.keeps Survey.describes_empty h
  exact ⟨s, Survey.survey_of_walk hw, Survey.keeps.inv_of_walk Survey.describes_empty hw⟩

/-- the first variable without a data cell is reported where it is first mentioned -/
theorem survey_of_crowded (hn : instructionCount lines < UInt32.size)
    (h : Faultless surveyFault? lines) {name : String}
    (hname : (variableNames lines)[32752]? = some name) :
    survey lines = .error ⟨firstMention lines name, ⟨.outOfRange, name⟩⟩ := by
  obtain ⟨s, hs, hd⟩ := walk_of_faultless hn h
  exact hs.trans (hd.allocate_error hname)

theorem survey_of_faultless (hn : instructionCount lines < UInt32.size)
    (h : Faultless surveyFault? lines) (hfit : (variableNames lines).length ≤ 32752) :
    ∃ t, survey lines = .ok t := by
  obtain ⟨s, hs, hd⟩ := walk_of_faultless hn h
  obtain ⟨t, ht, -⟩ := hd.allocate_ok hfit
  exact ⟨t, hs.trans ht⟩

/-! ## both passes -/

theorem assemble_of_survey_error {e : LocatedFault} (h : survey lines = .error e) :
    assemble lines = .error e := by
  rw [assemble, h]

theorem assemble_of_survey {t : SymbolTable} (h : survey lines = .ok t) :
    assemble lines = Assembly.generate t lines := by
  rw [assemble, h]

/-- the second pass rejects a compute line that cannot be read, and a program that is too long -/
theorem Surveyed.rejected_iff {t : SymbolTable} (h : Surveyed lines t) :
    (∃ e, Assembly.generate t lines = .error e) ↔
      (∃ raw ∈ lines, ∃ text f, instructionText? raw = some text ∧ operandText? text = none ∧
        Instruction.parse t text = .error f) ∨
      32768 < instructionCount lines := by
  constructor
  · rintro ⟨e, he⟩
    rcases (h.generate_eq_error_iff.mp he).encoding_cases with hcompute | ⟨-, text, hk⟩
    · obtain ⟨raw, text, hraw, ht, ho, hparse⟩ := hcompute
      exact .inl ⟨raw, List.mem_of_getElem? hraw, text, e.fault, ht, ho, hparse⟩
    · have hlt : 32768 < (instructionLines lines).length := (List.getElem?_eq_some_iff.mp hk).1
      rw [length_instructionLines] at hlt
      exact .inr hlt
  · intro hbad
    cases hg : Assembly.generate t lines with
    | error e => exact ⟨e, rfl⟩
    | ok a =>
      exfalso
      obtain ⟨-, code, -, hplaces⟩ := Assembly.places_of_generate hg
      rcases hbad with ⟨raw, hraw, text, f, ht, -, hparse⟩ | hlong
      · obtain ⟨i, hi⟩ := List.mem_iff_getElem?.mp hraw
        obtain ⟨p, -, -, -, hp⟩ :=
          hplaces.placed _ i text (getElem?_instructionLines.mpr ⟨raw, hi, ht, rfl⟩)
        rw [hp] at hparse
        cases hparse
      · have hfits := hplaces.size ▸ hplaces.fits
        omega

end

/-- **The verdict of an assembly**: the first fault of the first pass, whatever is wrong with the
compute lines above it; or the first variable without a data cell; or the first fault of the
encoding. -/
theorem assemble_verdict {lines : List String} (hn : instructionCount lines < UInt32.size) :
    (∀ i f, FirstFault surveyFault? lines i f →
      survey lines = .error ⟨i, f⟩ ∧ assemble lines = .error ⟨i, f⟩) ∧
    (Faultless surveyFault? lines → ∀ name, (variableNames lines)[32752]? = some name →
      survey lines = .error ⟨firstMention lines name, ⟨.outOfRange, name⟩⟩ ∧
        assemble lines = .error ⟨firstMention lines name, ⟨.outOfRange, name⟩⟩) ∧
    (Faultless surveyFault? lines → (variableNames lines).length ≤ 32752 →
      ∃ t, survey lines = .ok t ∧
        ((∃ e, assemble lines = .error e) ↔
          (∃ raw ∈ lines, ∃ text f, instructionText? raw = some text ∧
            operandText? text = none ∧ Instruction.parse t text = .error f) ∨
          32768 < instructionCount lines) ∧
        ∀ e, assemble lines = .error e ↔
          FirstFault (encodingFault? t) lines e.line e.fault) := by
  refine ⟨fun i f h => ?_, fun h name hname => ?_, fun h hfit => ?_⟩
  · have hs := survey_of_firstFault hn h
    exact ⟨hs, assemble_of_survey_error hs⟩
  · have hs := survey_of_crowded hn h hname
    exact ⟨hs, assemble_of_survey_error hs⟩
  · obtain ⟨t, ht⟩ := survey_of_faultless hn h hfit
    have hs := surveyed_of_survey ht
    rw [assemble_of_survey ht]
    exact ⟨t, ht, hs.rejected_iff, fun e => hs.generate_eq_error_iff⟩

/-- the second `(A)` is reported, and not the computation above it -/
theorem assemble_verdict_redefined :
    instructionCount ["D=Q", "(A)", "(A)"] < UInt32.size ∧
      survey ["D=Q", "(A)", "(A)"] = .error ⟨2, ⟨.redefinedLabel, "A"⟩⟩ ∧
      assemble ["D=Q", "(A)", "(A)"] = .error ⟨2, ⟨.redefinedLabel, "A"⟩⟩ := by
  have hn : instructionCount ["D=Q", "(A)", "(A)"] < UInt32.size := by decide +kernel
  have hfault : FirstFault surveyFault? ["D=Q", "(A)", "(A)"] 2 ⟨.redefinedLabel, "A"⟩ := by
    refine ⟨⟨"(A)", rfl, by decide +kernel⟩, fun j hj raw hraw => ?_⟩
    rcases j with _ | _ | j
    · cases hraw
      decide +kernel
    · cases hraw
      decide +kernel
    · omega
  exact ⟨hn, (assemble_verdict hn).1 2 _ hfault⟩

end HackAssembler
