import HackAssembler.Program.Survey
import HackAssembler.Proofs.Judgement

/-!
# Operands: numerals, names, and nothing else

* `Operand.parse_eq_literal_iff`, `Operand.parse_eq_symbol_iff`   the two readings of an operand;
* `mention?_eq_ok`, `faultOf?_mention?`   what the first pass makes of an instruction: the name
                                          after its `@`, or the fault of that operand.
-/

namespace HackAssembler

namespace Operand

theorem parse_eq_literal_iff {s : String} {value : Word} :
    parse s = .ok (.literal value) ↔
      isNumeral s.toList ∧ numeralValue s.toList ≤ maxAddress.toNat ∧
        value = .ofNat (numeralValue s.toList) := by
  unfold parse
  by_cases hn : isNumeral s.toList
  · by_cases hv : numeralValue s.toList ≤ maxAddress.toNat
    · simp [hn, hv, eq_comm]
    · simp [hn, hv]
  · by_cases hs : isName s <;> simp [hn, hs]

theorem parse_eq_symbol_iff {s name : String} :
    parse s = .ok (.symbol name) ↔ isName s ∧ name = s := by
  by_cases hs : isName s
  · simp [parse_name hs, hs, eq_comm]
  · rw [parse]
    by_cases hn : isNumeral s.toList
    · by_cases hv : numeralValue s.toList ≤ maxAddress.toNat <;> simp [hn, hv, hs]
    · simp [hn, hs]

theorem not_isName_of_isNumeral {s : String} (h : isNumeral s.toList) : ¬ isName s := by
  intro hn
  rw [isNumeral_of_isName hn] at h
  cases h

/-- what is accepted is a numeral or a name -/
theorem isName_of_parse_ok {s : String} {o : Operand} (h : parse s = .ok o)
    (hs : isNumeral s.toList = false) : isName s := by
  cases o with
  | literal value =>
    rw [(parse_eq_literal_iff.mp h).1] at hs
    cases hs
  | symbol name => exact (parse_eq_symbol_iff.mp h).1

/-- a literal fits into an instruction -/
theorem le_maxAddress_of_parse {s : String} {value : Word} (h : parse s = .ok (.literal value)) :
    value.toNat = numeralValue s.toList ∧ value ≤ maxAddress := by
  obtain ⟨-, hle, rfl⟩ := parse_eq_literal_iff.mp h
  have hle : numeralValue s.toList ≤ 32767 := hle
  have hfit : numeralValue s.toList ≤ 32768 := Nat.le_succ_of_le hle
  exact ⟨toNat_ofNat_of_le hfit, (ofNat_le_maxAddress_iff hfit).mpr hle⟩

end Operand

/-! ## the first pass -/

theorem mention?_eq_ok {text : String} {m : Option String} (h : mention? text = .ok m) :
    m = (operandText? text).filter isName := by
  unfold mention? at h
  cases ho : operandText? text with
  | none =>
    rw [ho] at h
    cases h
    rfl
  | some operand =>
    simp only [ho] at h
    rw [Option.filter_some]
    cases hp : Operand.parse operand with
    | error f =>
      rw [hp] at h
      cases h
    | ok o =>
      rw [hp] at h
      cases o with
      | literal value =>
        cases h
        have hn := (Operand.parse_eq_literal_iff.mp hp).1
        rw [if_neg (Operand.not_isName_of_isNumeral hn)]
      | symbol name =>
        cases h
        obtain ⟨hs, rfl⟩ := Operand.parse_eq_symbol_iff.mp hp
        rw [if_pos hs]

theorem faultOf?_mention? (text : String) :
    faultOf? (mention? text) =
      (operandText? text).bind fun operand => faultOf? (Operand.parse operand) := by
  unfold mention?
  cases operandText? text with
  | none => rfl
  | some operand =>
    show _ = faultOf? (Operand.parse operand)
    cases hp : Operand.parse operand with
    | error f => simp [hp, faultOf?]
    | ok o => cases o <;> simp [hp, faultOf?]

end HackAssembler
