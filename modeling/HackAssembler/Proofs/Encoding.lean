import HackAssembler.Proofs.Resolution

/-!
# Encoding: the second pass over a surveyed program, text by text

What the second pass can still find wrong with a surveyed program shows in the texts of its
instruction lines, without the lines between them and without the table.

* `instructionTexts`       the texts of the instruction lines;
* `textFault?`             what the second pass finds wrong with a text below other texts;
* `firstFault_encoding_iff`   the first faulty line is the line of the first faulty text;
* `Surveyed.generate_eq_error_iff_text`, `Surveyed.exists_generate_iff`   where the second pass
                           stops, and when it does not.
-/

namespace HackAssembler

/-! ## texts -/

def instructionTexts (lines : List String) : List String := lines.filterMap instructionText?

section
variable {xs ys lines : List String} {i k : Nat} {text : String}

theorem instructionTexts_append (xs ys : List String) :
    instructionTexts (xs ++ ys) = instructionTexts xs ++ instructionTexts ys :=
  List.filterMap_append

theorem map_snd_instructionLines (lines : List String) :
    (instructionLines lines).map (·.2) = instructionTexts lines := by
  induction lines using List.reverseRecOn with
  | nil => rfl
  | append_singleton xs x ih =>
    rw [instructionLines_concat, instructionTexts_append, List.map_append, ih]
    cases h : instructionText? x <;> simp [instructionTexts, h]

theorem length_instructionTexts (lines : List String) :
    (instructionTexts lines).length = instructionCount lines := by
  rw [← map_snd_instructionLines, List.length_map, length_instructionLines]

theorem instructionTexts_take (lines : List String) (i : Nat) :
    instructionTexts (lines.take i) =
      (instructionTexts lines).take (instructionCount (lines.take i)) := by
  have hsplit : instructionTexts lines =
      instructionTexts (lines.take i) ++ instructionTexts (lines.drop i) := by
    rw [← instructionTexts_append, List.take_append_drop]
  rw [hsplit, ← length_instructionTexts, List.take_left]

theorem getElem?_instructionTexts (h : (instructionLines lines)[k]? = some (i, text)) :
    (instructionTexts lines)[k]? = some text := by
  rw [← map_snd_instructionLines, List.getElem?_map, h]
  rfl

theorem exists_line_of_text (h : (instructionTexts lines)[k]? = some text) :
    ∃ i, (instructionLines lines)[k]? = some (i, text) := by
  rw [← map_snd_instructionLines, List.getElem?_map] at h
  obtain ⟨⟨i, text'⟩, hl, rfl⟩ := Option.map_eq_some_iff.mp h
  exact ⟨i, hl⟩

/-- the symbols that a program mentions are those of its texts -/
theorem filterMap_mentionedSymbol? (lines : List String) :
    lines.filterMap mentionedSymbol? =
      (instructionTexts lines).filterMap fun text => (operandText? text).filter isName :=
  List.filterMap_filterMap.symm

end

/-! ## faults of a text -/

/-- what is wrong with a compute statement -/
def computeFault? (text : String) : Option Fault :=
  if operandText? text = none then faultOf? (Statement.parse text) else none

/-- what is wrong with an instruction below others: it has no place, or it cannot be read -/
def textFault? : Judgement := fun above text =>
  if above.length ≤ 32767 then computeFault? text else some ⟨.outOfRange, "32768"⟩

/-- no table helps to read a compute statement -/
theorem Instruction.faultOf?_parse_compute {text : String} (h : operandText? text = none)
    (t : SymbolTable) : faultOf? (parse t text) = faultOf? (Statement.parse text) := by
  rw [parse_eq]
  cases hs : Statement.parse text with
  | error f => rfl
  | ok s =>
    obtain ⟨dest, comp, jump, rfl⟩ := Statement.parse_compute_eq_ok h hs
    rfl

section
variable {t : SymbolTable} {lines : List String}

theorem encodingFault?_eq (t : SymbolTable) (above : List String) (raw : String) :
    encodingFault? t above raw =
      (instructionText? raw).bind (textFault? (instructionTexts above)) := by
  unfold encodingFault? textFault? computeFault?
  rw [length_instructionTexts]
  refine Option.bind_congr fun text _ => ?_
  split
  · split
    · next ho => exact Instruction.faultOf?_parse_compute ho t
    · rfl
  · rfl

/-- the line of an instruction and its text are faulty together -/
theorem encodingFault?_eq_textFault? {i k : Nat} {raw text : String}
    (ht : instructionText? raw = some text) (hk : instructionCount (lines.take i) = k) :
    encodingFault? t (lines.take i) raw = textFault? ((instructionTexts lines).take k) text := by
  rw [encodingFault?_eq, ht, Option.bind_some, instructionTexts_take, hk]

theorem firstFault_encoding_iff {i : Nat} {f : Fault} :
    FirstFault (encodingFault? t) lines i f ↔
      ∃ k text, (instructionLines lines)[k]? = some (i, text) ∧
        FirstFault textFault? (instructionTexts lines) k f := by
  constructor
  · rintro ⟨⟨raw, hraw, hf⟩, habove⟩
    obtain ⟨text, ht, -⟩ := encodingFault?_eq_some_iff.mp hf
    have hl : (instructionLines lines)[instructionCount (lines.take i)]? = some (i, text) :=
      getElem?_instructionLines.mpr ⟨raw, hraw, ht, rfl⟩
    refine ⟨_, text, hl, ⟨text, getElem?_instructionTexts hl, ?_⟩, ?_⟩
    · rw [← encodingFault?_eq_textFault? ht rfl, hf]
    · intro j hj text' htext'
      obtain ⟨i', hl'⟩ := exists_line_of_text htext'
      obtain ⟨raw', hraw', ht', hcount⟩ := getElem?_instructionLines.mp hl'
      have hi : i' < i := lt_of_instructionCount_take_lt (hcount ▸ hj)
      rw [← encodingFault?_eq_textFault? ht' hcount]
      exact habove i' hi raw' hraw'
  · rintro ⟨k, text, hl, ⟨text', htext', hf⟩, habove⟩
    obtain ⟨raw, hraw, ht, hcount⟩ := getElem?_instructionLines.mp hl
    obtain rfl := Option.some.inj ((getElem?_instructionTexts hl).symm.trans htext')
    refine ⟨⟨raw, hraw, (encodingFault?_eq_textFault? ht hcount).trans hf⟩, ?_⟩
    intro j hj raw' hraw'
    cases ht' : instructionText? raw' with
    | none => rw [encodingFault?_eq, ht', Option.bind_none]
    | some text' =>
      have hlt := instructionCount_take_lt hraw' ht' hj
      rw [hcount] at hlt
      rw [encodingFault?_eq_textFault? ht' rfl]
      exact habove _ hlt text'
        (getElem?_instructionTexts (getElem?_instructionLines.mpr ⟨raw', hraw', ht', rfl⟩))

namespace Surveyed

/-- the second pass stops at the line of the first faulty text -/
theorem generate_eq_error_iff_text (h : Surveyed lines t) {e : LocatedFault} :
    Assembly.generate t lines = .error e ↔
      ∃ k text, (instructionLines lines)[k]? = some (e.line, text) ∧
        FirstFault textFault? (instructionTexts lines) k e.fault :=
  h.generate_eq_error_iff.trans firstFault_encoding_iff

theorem exists_generate_iff (h : Surveyed lines t) :
    (∃ a, Assembly.generate t lines = .ok a) ↔ Faultless textFault? (instructionTexts lines) := by
  constructor
  · rintro ⟨a, ha⟩
    rcases faultless_or_firstFault textFault? (instructionTexts lines) with hfree | ⟨k, f, hf⟩
    · exact hfree
    · exfalso
      obtain ⟨text, htext, -⟩ := hf.fault
      obtain ⟨i, hl⟩ := exists_line_of_text htext
      have he : Assembly.generate t lines = .error ⟨i, f⟩ :=
        h.generate_eq_error_iff_text.mpr ⟨k, text, hl, hf⟩
      rw [he] at ha
      cases ha
  · intro hfree
    cases hg : Assembly.generate t lines with
    | ok a => exact ⟨a, rfl⟩
    | error e =>
      exfalso
      obtain ⟨k, -, -, ⟨text, htext, hf⟩, -⟩ := h.generate_eq_error_iff_text.mp hg
      rw [hfree k text htext] at hf
      cases hf

end Surveyed

end

end HackAssembler
