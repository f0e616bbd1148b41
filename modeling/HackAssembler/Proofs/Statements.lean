import HackAssembler.Source.Statement
import HackAssembler.Proofs.Operands

/-!
# Statements: the two forms of an instruction

* `Instruction.parse_compute_eq_ok`   a compute statement stands for itself;
* `Instruction.cause_mem_computeCauses`   what can be wrong with one;
* `Instruction.parse_address`   an address statement loads the value of its operand;
* `Instruction.parse_symbol`, `Instruction.parse_congr`   only the address of its symbol is looked up;
* `Instruction.encodable_of_parse`   an address that no word can carry is refused, not cut down.
-/

namespace HackAssembler

/-- what can be wrong with a compute statement -/
def computeCauses : List Cause :=
  [.malformedInstruction, .unknownDestination, .unknownComputation, .unknownJump]

namespace Fields

theorem cause_of_parse {text : String} {f : Fault} (h : parse text = .error f) :
    f.cause = .malformedInstruction := by
  simp only [parse] at h
  split at h
  · cases h
    rfl
  · cases h

theorem cause_of_destination {fs : Fields} {f : Fault} (h : fs.destination = .error f) :
    f.cause = .unknownDestination := by
  unfold destination at h
  split at h
  · obtain ⟨-, -, rfl⟩ := mapError_eq_error_iff.mp h
    rfl
  · cases h

theorem cause_of_computation {fs : Fields} {f : Fault} (h : fs.computation = .error f) :
    f.cause = .unknownComputation := by
  unfold computation at h
  obtain ⟨-, -, rfl⟩ := mapError_eq_error_iff.mp h
  rfl

theorem cause_of_jumpCondition {fs : Fields} {f : Fault} (h : fs.jumpCondition = .error f) :
    f.cause = .unknownJump := by
  unfold jumpCondition at h
  split at h
  · obtain ⟨-, -, rfl⟩ := mapError_eq_error_iff.mp h
    rfl
  · cases h

end Fields

namespace Statement

theorem ofFields_eq (fs : Fields) :
    ofFields fs =
      fs.destination.bind fun dest => fs.computation.bind fun comp =>
        fs.jumpCondition.bind fun jump => .ok (.compute dest comp jump) := rfl

theorem cause_of_ofFields {fs : Fields} {f : Fault} (h : ofFields fs = .error f) :
    f.cause ∈ computeCauses := by
  rw [ofFields_eq] at h
  rcases bind_eq_error_iff.mp h with hd | ⟨dest, -, h⟩
  · rw [Fields.cause_of_destination hd]
    decide
  rcases bind_eq_error_iff.mp h with hc | ⟨comp, -, h⟩
  · rw [Fields.cause_of_computation hc]
    decide
  rcases bind_eq_error_iff.mp h with hj | ⟨jump, -, h⟩
  · rw [Fields.cause_of_jumpCondition hj]
    decide
  · cases h

theorem ofFields_eq_ok {fs : Fields} {s : Statement} (h : ofFields fs = .ok s) :
    ∃ dest comp jump, s = .compute dest comp jump := by
  rw [ofFields_eq] at h
  obtain ⟨dest, -, h⟩ := bind_eq_ok_iff.mp h
  obtain ⟨comp, -, h⟩ := bind_eq_ok_iff.mp h
  obtain ⟨jump, -, h⟩ := bind_eq_ok_iff.mp h
  cases h
  exact ⟨dest, comp, jump, rfl⟩

/-- a statement without `@` -/
theorem parse_compute {text : String} (h : operandText? text = none) :
    parse text = (Fields.parse text).bind ofFields := by
  rw [parse, h]
  rfl

theorem parse_compute_eq_ok {text : String} {s : Statement} (h : operandText? text = none)
    (hs : parse text = .ok s) : ∃ dest comp jump, s = .compute dest comp jump := by
  rw [parse_compute h] at hs
  obtain ⟨fs, -, hs⟩ := bind_eq_ok_iff.mp hs
  exact ofFields_eq_ok hs

theorem cause_mem_computeCauses {text : String} {f : Fault} (h : operandText? text = none)
    (hf : parse text = .error f) : f.cause ∈ computeCauses := by
  rw [parse_compute h] at hf
  rcases bind_eq_error_iff.mp hf with hp | ⟨fs, -, hp⟩
  · rw [Fields.cause_of_parse hp]
    decide
  · exact cause_of_ofFields hp

/-- a statement with `@` -/
theorem parse_address {text operand : String} (h : operandText? text = some operand) :
    parse text = (Operand.parse operand).map address := by
  rw [parse, h]

end Statement

namespace Instruction

variable {t : SymbolTable} {text : String}

theorem parse_eq (t : SymbolTable) (text : String) :
    parse t text = (Statement.parse text).bind (Statement.resolve t) := rfl

/-- a compute statement stands for itself under any table -/
theorem parse_compute_eq_ok (h : operandText? text = none) {i : Instruction}
    (hi : parse t text = .ok i) : ∃ dest comp jump,
      Statement.parse text = .ok (.compute dest comp jump) ∧ i = .compute dest comp jump := by
  rw [parse_eq] at hi
  obtain ⟨s, hs, hr⟩ := bind_eq_ok_iff.mp hi
  obtain ⟨dest, comp, jump, rfl⟩ := Statement.parse_compute_eq_ok h hs
  cases hr
  exact ⟨dest, comp, jump, hs, rfl⟩

theorem cause_mem_computeCauses (h : operandText? text = none) {f : Fault}
    (hf : parse t text = .error f) : f.cause ∈ computeCauses := by
  rw [parse_eq] at hf
  rcases bind_eq_error_iff.mp hf with hs | ⟨s, hs, hr⟩
  · exact Statement.cause_mem_computeCauses h hs
  · obtain ⟨dest, comp, jump, rfl⟩ := Statement.parse_compute_eq_ok h hs
    cases hr

/-- an address statement loads the value of its operand, if an instruction can carry it -/
theorem parse_address {operand : String} (h : operandText? text = some operand) {o : Operand}
    (ho : Operand.parse operand = .ok o) {value : Word} (hv : o.resolve t = .ok value)
    (hle : value ≤ maxAddress) : parse t text = .ok (.address value) := by
  rw [parse_eq, Statement.parse_address h, ho]
  show (o.resolve t).bind _ = _
  rw [hv]
  show (ofAddress value).mapError _ = _
  rw [ofAddress, if_pos hle]
  rfl

theorem parse_symbol {name : String} (h : operandText? text = some name) (hn : isName name) :
    parse t text = (t.address name).bind fun value =>
      (ofAddress value).mapError fun _ => ⟨.outOfRange, name⟩ := by
  rw [parse_eq, Statement.parse_address h, Operand.parse_name hn]
  rfl

/-- what is read fits into a word, whatever addresses the table holds -/
theorem encodable_of_parse {i : Instruction} (h : parse t text = .ok i) : i.Encodable := by
  cases ho : operandText? text with
  | none =>
    obtain ⟨dest, comp, jump, -, rfl⟩ := parse_compute_eq_ok ho h
    exact trivial
  | some operand =>
    rw [parse_eq, Statement.parse_address ho] at h
    obtain ⟨s, hs, hr⟩ := bind_eq_ok_iff.mp h
    obtain ⟨o, -, rfl⟩ := map_eq_ok_iff.mp hs
    obtain ⟨value, -, hi⟩ := bind_eq_ok_iff.mp hr
    have hvalue : ofAddress value = .ok i := mapError_eq_ok_iff.mp hi
    unfold ofAddress at hvalue
    split at hvalue
    · next hle =>
      cases hvalue
      exact hle
    · cases hvalue

/-- an instruction stands for the same under two tables that agree on its symbol -/
theorem parse_congr {t' : SymbolTable}
    (h : ∀ name, operandText? text = some name → isName name → t.address name = t'.address name) :
    parse t text = parse t' text := by
  cases ho : operandText? text with
  | none =>
    rw [parse_eq, parse_eq]
    cases hs : Statement.parse text with
    | error f => rfl
    | ok s =>
      obtain ⟨dest, comp, jump, rfl⟩ := Statement.parse_compute_eq_ok ho hs
      rfl
  | some operand =>
    by_cases hn : isName operand
    · rw [parse_symbol ho hn, parse_symbol ho hn, h operand ho hn]
    · rw [parse_eq, parse_eq, Statement.parse_address ho]
      cases hp : Operand.parse operand with
      | error f => rfl
      | ok o =>
        cases o with
        | literal value => rfl
        | symbol name => exact absurd (Operand.parse_eq_symbol_iff.mp hp).1 hn

end Instruction

end HackAssembler
