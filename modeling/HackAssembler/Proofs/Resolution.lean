import HackAssembler.Proofs.SecondPass
import HackAssembler.Proofs.SurveyTable

/-!
# Resolution: the second pass under the table of the first

The table of a survey binds every symbol of the program to an address that an instruction can
carry, so the second pass finds no fault in an address statement.

* `Surveyed.lookup?_cases`      what a name can be bound to;
* `Surveyed.parse_address`      an address statement of a surveyed program has a value;
* `Surveyed.encodable_of_parse`   the instruction of a line fits into its word;
* `encodingFault?`              what is left to find wrong with a line;
* `FirstFault.encoding_cases`   where the second pass can stop;
* `Surveyed.firstFault_iff`     the second pass finds these faults and no others;
* `generate_after_survey`       what a second pass can come to.
-/

namespace HackAssembler

theorem mem_of_lookup {α : Type} {es : List (String × α)} {name : String} {b : α}
    (h : es.lookup name = some b) : (name, b) ∈ es := by
  obtain ⟨as, bs, rfl, -⟩ := List.lookup_eq_some_iff.mp h
  exact List.mem_append_right as List.mem_cons_self

/-! ## what a name is bound to -/

namespace Surveyed

variable {lines : List String} {t : SymbolTable}

/-- a bound name is predefined, a label or a variable -/
theorem lookup?_cases (h : Surveyed lines t) {name : String} {b : Binding}
    (hb : t.lookup? name = some b) :
    (∃ address, predefined.lookup name = some address ∧ b = ⟨.predefined, address⟩) ∨
    (∃ k, (name, k) ∈ labels lines ∧ b = ⟨.label, .ofNat k⟩) ∨
    ∃ j, (variableNames lines)[j]? = some name ∧ b = ⟨.variable, .ofNat (16 + j)⟩ := by
  cases hp : predefined.lookup name with
  | some a =>
    rw [SymbolTable.lookup?, hp] at hb
    cases hb
    exact .inl ⟨a, rfl, rfl⟩
  | none =>
    rw [SymbolTable.lookup?_eq, hp, Option.map_none, Option.none_or] at hb
    have hmem := mem_of_lookup hb
    rw [h.entries, List.mem_append] at hmem
    rcases hmem with hl | hv
    · obtain ⟨l, hmem, e⟩ := List.mem_map.mp hl
      cases e
      exact .inr (.inl ⟨l.2, hmem, rfl⟩)
    · obtain ⟨j, other, hj, e⟩ := mem_cells_iff.mp hv
      cases e
      exact .inr (.inr ⟨j, hj, rfl⟩)

/-- the addresses of the table fit into an instruction -/
theorem address_le (h : Surveyed lines t) {name : String} {b : Binding}
    (hb : t.lookup? name = some b) : b.address ≤ maxAddress := by
  rcases h.lookup?_cases hb with ⟨a, hp, rfl⟩ | ⟨k, hl, rfl⟩ | ⟨j, hj, rfl⟩
  · exact predefined_le_maxAddress (name, a) (mem_of_lookup hp)
  · have hle : k % 4294967296 ≤ 32767 := h.labels_le _ hl
    apply UInt16.le_iff_toNat_le.mpr
    show (UInt16.ofNat k).toNat ≤ 32767
    rw [UInt16.toNat_ofNat']
    omega
  · have hle := h.variable_le hj
    exact (ofNat_le_maxAddress_iff (Nat.le_succ_of_le hle)).mpr hle

end Surveyed

/-! ## address statements -/

namespace Surveyed

variable {lines : List String} {t : SymbolTable}

/-- an operand of the program has a value under the table -/
theorem resolve_operand (h : Surveyed lines t) {raw text operand : String} (hraw : raw ∈ lines)
    (ht : instructionText? raw = some text) (ho : operandText? text = some operand) :
    ∃ o value, Operand.parse operand = .ok o ∧ o.resolve t = .ok value ∧ value ≤ maxAddress := by
  obtain ⟨o, hp⟩ := (h.readable raw hraw).operand text operand ht ho
  cases o with
  | literal value => exact ⟨_, value, hp, rfl, (Operand.le_maxAddress_of_parse hp).2⟩
  | symbol name =>
    obtain ⟨hn, rfl⟩ := Operand.parse_eq_symbol_iff.mp hp
    have hm := mem_mentionedNames_of_operand hraw ht ho hn
    obtain ⟨b, hb⟩ := Option.isSome_iff_exists.mp (h.contains_of_mentioned hm)
    exact ⟨_, b.address, hp, SymbolTable.address_eq_ok_iff.mpr ⟨b, hb, rfl⟩, h.address_le hb⟩

theorem parse_address (h : Surveyed lines t) {raw text operand : String} (hraw : raw ∈ lines)
    (ht : instructionText? raw = some text) (ho : operandText? text = some operand) :
    ∃ value, Instruction.parse t text = .ok (.address value) ∧ value ≤ maxAddress := by
  obtain ⟨o, value, hp, hv, hle⟩ := h.resolve_operand hraw ht ho
  exact ⟨value, Instruction.parse_address ho hp hv hle, hle⟩

end Surveyed

/-! ## compute statements and the end of the memory -/

/-- what the second pass may still find wrong with a line: a compute statement, or the lack of a
place for an instruction -/
def encodingFault? (t : SymbolTable) : Judgement := fun above raw =>
  (instructionText? raw).bind fun text =>
    if instructionCount above ≤ 32767 then
      if operandText? text = none then faultOf? (Instruction.parse t text) else none
    else
      some ⟨.outOfRange, "32768"⟩

theorem encodingFault?_eq_some_iff {t : SymbolTable} {above : List String} {raw : String}
    {f : Fault} :
    encodingFault? t above raw = some f ↔
      ∃ text, instructionText? raw = some text ∧
        (instructionCount above ≤ 32767 ∧ operandText? text = none ∧
            Instruction.parse t text = .error f ∨
          32767 < instructionCount above ∧ f = ⟨.outOfRange, "32768"⟩) := by
  rw [encodingFault?, Option.bind_eq_some_iff]
  refine exists_congr fun text => and_congr_right fun _ => ?_
  by_cases hfits : instructionCount above ≤ 32767
  · have hplace : ¬ 32767 < instructionCount above := Nat.not_lt.mpr hfits
    by_cases ho : operandText? text = none
    · simp [hfits, hplace, ho, faultOf?_eq_some_iff]
    · simp [hfits, hplace, ho]
  · simp [hfits, Nat.lt_of_not_le hfits, eq_comm]

/-- the second pass does not get beyond the end of the memory -/
theorem FirstFault.instructionCount_le {t : SymbolTable} {lines : List String} {i : Nat} {f : Fault}
    (h : FirstFault (encodingFault? t) lines i f) : instructionCount (lines.take i) ≤ 32768 := by
  by_contra hlt
  have hle : instructionCount (lines.take i) ≤ instructionCount lines :=
    instructionCount_mono (List.take_prefix i lines)
  have hk : 32768 < (instructionLines lines).length := by
    rw [length_instructionLines]
    omega
  obtain ⟨raw, hraw, ht, hcount⟩ :=
    getElem?_instructionLines.mp (List.getElem?_eq_getElem hk)
  have hlate : 32768 < instructionCount (lines.take i) := Nat.lt_of_not_le hlt
  have hnone := h.above _ (lt_of_instructionCount_take_lt (hcount ▸ hlate)) raw hraw
  have hsome : encodingFault? t _ raw = some ⟨.outOfRange, "32768"⟩ :=
    encodingFault?_eq_some_iff.mpr ⟨_, ht, .inr ⟨by rw [hcount]; decide, rfl⟩⟩
  rw [hnone] at hsome
  cases hsome

/-- it stops at a compute statement, or at the first instruction line without a place -/
theorem FirstFault.encoding_cases {t : SymbolTable} {lines : List String} {i : Nat} {f : Fault}
    (h : FirstFault (encodingFault? t) lines i f) :
    (∃ raw text, lines[i]? = some raw ∧ instructionText? raw = some text ∧
      operandText? text = none ∧ Instruction.parse t text = .error f) ∨
    (f = ⟨.outOfRange, "32768"⟩ ∧ ∃ text, (instructionLines lines)[32768]? = some (i, text)) := by
  obtain ⟨raw, hraw, hfault⟩ := h.fault
  obtain ⟨text, ht, ⟨-, ho, hparse⟩ | ⟨hfull, hf⟩⟩ := encodingFault?_eq_some_iff.mp hfault
  · exact .inl ⟨raw, text, hraw, ht, ho, hparse⟩
  · have hle := h.instructionCount_le
    have hcount : instructionCount (lines.take i) = 32768 := by omega
    exact .inr ⟨hf, text, getElem?_instructionLines.mpr ⟨raw, hraw, ht, hcount⟩⟩

namespace Surveyed

variable {lines : List String} {t : SymbolTable}

theorem placeFault?_eq (h : Surveyed lines t) (above : List String) {raw : String}
    (hraw : raw ∈ lines) : placeFault? t above raw = encodingFault? t above raw := by
  obtain ⟨line, hl⟩ := (h.readable raw hraw).line
  unfold placeFault? encodingFault?
  cases line with
  | blank => rw [hl, instructionText?_of_blank hl, Option.bind_none]
  | label name => rw [hl, instructionText?_of_label hl, Option.bind_none]
  | instruction text =>
    have ht := instructionText?_eq_some_iff.mpr hl
    rw [hl, ht, Option.bind_some]
    cases ho : operandText? text with
    | none => rfl
    | some operand =>
      obtain ⟨value, hv, -⟩ := h.parse_address hraw ht ho
      have hnone : ¬ some operand = none := Option.some_ne_none operand
      show (if _ then faultOf? (Instruction.parse t text) else _) = _
      rw [if_neg hnone, hv]
      rfl

theorem firstFault_iff (h : Surveyed lines t) {i : Nat} {f : Fault} :
    FirstFault (placeFault? t) lines i f ↔ FirstFault (encodingFault? t) lines i f :=
  firstFault_congr fun above _ hraw => h.placeFault?_eq above hraw

/-- the second pass over a surveyed program -/
theorem generate_eq_error_iff (h : Surveyed lines t) {e : LocatedFault} :
    Assembly.generate t lines = .error e ↔ FirstFault (encodingFault? t) lines e.line e.fault :=
  Assembly.generate_eq_error_iff.trans h.firstFault_iff

/-- the instruction of a line fits into its word -/
theorem encodable_of_parse (h : Surveyed lines t) {raw text : String} (hraw : raw ∈ lines)
    (ht : instructionText? raw = some text) {i : Instruction}
    (hi : Instruction.parse t text = .ok i) : i.Encodable := by
  cases ho : operandText? text with
  | none =>
    obtain ⟨dest, comp, jump, -, rfl⟩ := Instruction.parse_compute_eq_ok ho hi
    exact trivial
  | some operand =>
    obtain ⟨value, hv, hle⟩ := h.parse_address hraw ht ho
    rw [hv] at hi
    cases hi
    exact hle

/-- the values of the placed address instructions fit -/
theorem le_of_placed (h : Surveyed lines t) {code : Array Placed}
    (hplaces : Assembly.Places t lines code) {p : Placed} (hp : p ∈ code) {value : Word}
    (hi : p.instruction = .address value) : value ≤ maxAddress := by
  obtain ⟨k, text, hk, -, hparse⟩ := hplaces.exists_text_of_mem hp
  obtain ⟨raw, hraw, ht, -⟩ := getElem?_instructionLines.mp hk
  have hfit := h.encodable_of_parse (List.mem_of_getElem? hraw) ht hparse
  rwa [hi] at hfit

end Surveyed

/-! ## the second pass after the first -/

/-- **A second pass after a first one** cannot fail for a symbol: each address statement of the
program has a value of fifteen bits.  What can be wrong is a compute statement, or that the
instruction memory ends above a line. -/
theorem generate_after_survey {lines : List String} {t : SymbolTable} (h : survey lines = .ok t) :
    (∀ raw ∈ lines, ∀ text operand, instructionText? raw = some text →
      operandText? text = some operand →
        ∃ value, Instruction.parse t text = .ok (.address value) ∧ value ≤ maxAddress) ∧
    (∀ a, Assembly.generate t lines = .ok a → ∀ p ∈ a.code, ∀ value,
      p.instruction = .address value → value ≤ maxAddress ∧ p.instruction.encode = value) ∧
    ∀ e, Assembly.generate t lines = .error e →
      (∃ raw text, lines[e.line]? = some raw ∧ instructionText? raw = some text ∧
        operandText? text = none ∧ Instruction.parse t text = .error e.fault ∧
        e.fault.cause ∈ [.malformedInstruction, .unknownDestination, .unknownComputation,
          .unknownJump]) ∨
      (e.fault = ⟨.outOfRange, "32768"⟩ ∧
        ∃ text, (instructionLines lines)[32768]? = some (e.line, text)) := by
  have hs := surveyed_of_survey h
  refine ⟨fun raw hraw text operand => hs.parse_address hraw, ?_, ?_⟩
  · intro a ha p hp value hi
    obtain ⟨-, code, hcode, hplaces⟩ := Assembly.places_of_generate ha
    rw [hcode, Array.mem_toList_iff] at hp
    have hle := hs.le_of_placed hplaces hp hi
    refine ⟨hle, ?_⟩
    rw [hi]
    exact Instruction.encode_address hle
  · intro e he
    rcases (hs.generate_eq_error_iff.mp he).encoding_cases with hcompute | hfull
    · obtain ⟨raw, text, hraw, ht, ho, hparse⟩ := hcompute
      exact .inl ⟨raw, text, hraw, ht, ho, hparse, Instruction.cause_mem_computeCauses ho hparse⟩
    · exact .inr hfull

theorem generate_after_survey_countdown :
    ∃ t, survey countdown = .ok t ∧
      ∃ value, Instruction.parse t "@END" = .ok (.address value) ∧ value ≤ maxAddress := by
  obtain ⟨t, h⟩ : ∃ t, survey countdown = .ok t := exists_of_isOk (by decide +kernel)
  refine ⟨t, h, (generate_after_survey h).1 "@END" ?_ "@END" "END" ?_ ?_⟩ <;> decide +kernel

end HackAssembler
