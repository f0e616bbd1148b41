import HackAssembler.Proofs.Statements
import Mathlib.Data.Nat.Digits.Defs

/-!
# The operand of an address statement

An operand is a decimal numeral or a symbol, with blanks around it.

* `decimalValue`, `numeralValue_eq`   the value of a numeral by the places of its digits;
* `numeral32?`, `Operand.parse_numeral32`   a numeral read in thirty-two bits;
* `OperandReading`       what an operand stands for under a table, or what is wrong with it;
* `exists_reading`       every text is one or the other;
* `parse_operand_iff`    an address statement is read as its operand says, without any loss.
-/

namespace HackAssembler

/-! ## numerals -/

/-- each digit counts for its place, whatever the length of the numeral -/
def decimalValue (cs : List Char) : Nat :=
  Nat.ofDigits 10 (cs.reverse.map fun c => c.toNat - '0'.toNat)

theorem numeralValue_concat (cs : List Char) (c : Char) :
    numeralValue (cs ++ [c]) = 10 * numeralValue cs + (c.toNat - '0'.toNat) := by
  rw [numeralValue, Nat.ofDigitChars_append, Nat.ofDigitChars_cons, Nat.ofDigitChars_nil]
  rfl

theorem numeralValue_eq (cs : List Char) : numeralValue cs = decimalValue cs := by
  induction cs using List.reverseRecOn with
  | nil => simp [numeralValue, decimalValue]
  | append_singleton cs c ih =>
    rw [numeralValue_concat, ih, decimalValue, decimalValue, List.reverse_append,
      List.reverse_singleton, List.singleton_append, List.map_cons, Nat.ofDigits_cons, Nat.add_comm]

/-- `cs` is a numeral of value `n` -/
def IsDecimal (cs : List Char) (n : Nat) : Prop :=
  cs ≠ [] ∧ (∀ c ∈ cs, c.isDigit) ∧ decimalValue cs = n

theorem isDecimal_iff {cs : List Char} {n : Nat} :
    IsDecimal cs n ↔ isNumeral cs ∧ numeralValue cs = n := by
  rw [IsDecimal, isNumeral, numeralValue_eq, ← and_assoc, Bool.and_eq_true, List.all_eq_true,
    Bool.not_eq_true', List.isEmpty_eq_false_iff]

/-! ## numerals in thirty-two bits -/

/-- one more digit, unless the product or the sum outgrows thirty-two bits -/
def addDigit? (n : UInt32) (c : Char) : Option UInt32 :=
  if n.toNat * 10 < UInt32.size then
    if (n * 10).toNat + (c.toNat - '0'.toNat) < UInt32.size then
      some (n * 10 + .ofNat (c.toNat - '0'.toNat))
    else
      none
  else
    none

/-- the value of a numeral that is read digit by digit -/
def numeral32? (cs : List Char) : Option UInt32 := cs.foldlM addDigit? 0

theorem addDigit?_ofNat {n : Nat} (h : n < UInt32.size) (c : Char) :
    addDigit? (.ofNat n) c =
      if 10 * n + (c.toNat - '0'.toNat) < UInt32.size then
        some (.ofNat (10 * n + (c.toNat - '0'.toNat)))
      else
        none := by
  have hn : (UInt32.ofNat n).toNat = n := UInt32.toNat_ofNat_of_lt' h
  rw [addDigit?, hn]
  by_cases hm : n * 10 < UInt32.size
  · have hm' : 10 * n < UInt32.size := by omega
    have hten : UInt32.ofNat n * 10 = .ofNat (10 * n) := by
      rw [Nat.mul_comm, UInt32.ofNat_mul]
      rfl
    rw [if_pos hm, hten, UInt32.toNat_ofNat_of_lt' hm', ← UInt32.ofNat_add]
  · have hlarge : ¬ 10 * n + (c.toNat - '0'.toNat) < UInt32.size := by omega
    rw [if_neg hm, if_neg hlarge]

/-- a value that outgrows thirty-two bits once stays too large with every further digit -/
theorem numeral32?_eq (cs : List Char) :
    numeral32? cs =
      if numeralValue cs < UInt32.size then some (.ofNat (numeralValue cs)) else none := by
  induction cs using List.reverseRecOn with
  | nil => rfl
  | append_singleton cs c ih =>
    have hconcat : numeral32? (cs ++ [c]) = (numeral32? cs).bind (addDigit? · c) := by
      rw [numeral32?, List.foldlM_append, ← numeral32?]
      cases numeral32? cs <;> simp
    rw [hconcat, ih, numeralValue_concat]
    by_cases h : numeralValue cs < UInt32.size
    · rw [if_pos h, Option.bind_some, addDigit?_ofNat h]
    · have hlarge : ¬ 10 * numeralValue cs + (c.toNat - '0'.toNat) < UInt32.size := by omega
      rw [if_neg h, if_neg hlarge, Option.bind_none]

/-- a numeral can also be read in thirty-two bits, compared there, and only then cut to a word: what
outgrows them is out of range, like all else that an instruction cannot carry -/
theorem Operand.parse_numeral32 {s : String} (h : isNumeral s.toList) :
    Operand.parse s =
      match numeral32? s.toList with
      | some value =>
        if value ≤ maxAddress.toUInt32 then .ok (.literal value.toUInt16)
        else .error ⟨.outOfRange, s⟩
      | none => .error ⟨.outOfRange, s⟩ := by
  rw [parse_numeral h, numeral32?_eq]
  generalize numeralValue s.toList = n
  by_cases h : n < UInt32.size
  · have hle : UInt32.ofNat n ≤ maxAddress.toUInt32 ↔ n ≤ maxAddress.toNat := by
      rw [UInt32.le_iff_toNat_le, UInt32.toNat_ofNat_of_lt' h]
      rfl
    have hcut : (UInt32.ofNat n).toUInt16 = .ofNat n := UInt32.toUInt16_ofNat' ..
    simp only [if_pos h, hle, hcut]
  · have hgt : ¬ n ≤ maxAddress.toNat := by
      intro hle
      exact h (Nat.lt_of_le_of_lt hle (by decide))
    rw [if_neg h, if_neg hgt]

/-! ## readings -/

/-- what the operand `s` stands for under the table `t` -/
inductive OperandReading (t : SymbolTable) (s : String) : Except Fault Instruction → Prop
  | literal {value : Word} (h : IsDecimal s.toList value.toNat) (hle : value ≤ maxAddress) :
      OperandReading t s (.ok (.address value))
  | large {n : Nat} (h : IsDecimal s.toList n) (hgt : maxAddress.toNat < n) :
      OperandReading t s (.error ⟨.outOfRange, s⟩)
  | bound {b : Binding} (hn : isName s) (hb : t.lookup? s = some b) (hle : b.address ≤ maxAddress) :
      OperandReading t s (.ok (.address b.address))
  | far {b : Binding} (hn : isName s) (hb : t.lookup? s = some b) (hgt : maxAddress < b.address) :
      OperandReading t s (.error ⟨.outOfRange, s⟩)
  | unbound (hn : isName s) (hb : t.lookup? s = none) :
      OperandReading t s (.error ⟨.undefinedSymbol, s⟩)
  | invalid (hd : ¬ ∃ n, IsDecimal s.toList n) (hn : ¬ isName s) :
      OperandReading t s (.error ⟨.invalidSymbol, s⟩)

section
variable {t : SymbolTable} {s : String}

theorem exists_reading (t : SymbolTable) (s : String) : ∃ r, OperandReading t s r := by
  by_cases hd : ∃ n, IsDecimal s.toList n
  · obtain ⟨n, hn⟩ := hd
    by_cases hle : n ≤ 32767
    · have hfit : n ≤ 32768 := Nat.le_succ_of_le hle
      have hvalue : IsDecimal s.toList (UInt16.ofNat n).toNat := by
        rwa [toNat_ofNat_of_le hfit]
      exact ⟨_, .literal hvalue ((ofNat_le_maxAddress_iff hfit).mpr hle)⟩
    · exact ⟨_, .large hn (Nat.lt_of_not_le hle)⟩
  · by_cases hn : isName s
    · cases hb : t.lookup? s with
      | none => exact ⟨_, .unbound hn hb⟩
      | some b =>
        by_cases hle : b.address ≤ maxAddress
        · exact ⟨_, .bound hn hb hle⟩
        · exact ⟨_, .far hn hb (UInt16.not_le.mp hle)⟩
    · exact ⟨_, .invalid hd hn⟩

/-! ## statements -/

theorem Instruction.parse_of_operand_error {line : String} (ho : operandText? line = some s)
    {f : Fault} (h : Operand.parse s = .error f) : parse t line = .error f := by
  rw [parse_eq, Statement.parse_address ho, h]
  rfl

namespace OperandReading

variable {r : Except Fault Instruction}

theorem parse_eq (h : OperandReading t s r) {line : String} (ho : operandText? line = some s) :
    Instruction.parse t line = r := by
  cases h with
  | @literal value h hle =>
    obtain ⟨hnum, hvalue⟩ := isDecimal_iff.mp h
    have hp : Operand.parse s = .ok (.literal value) := by
      refine Operand.parse_eq_literal_iff.mpr ⟨hnum, ?_, ?_⟩
      · rw [hvalue]
        exact UInt16.le_iff_toNat_le.mp hle
      · rw [hvalue, UInt16.ofNat_toNat]
    exact Instruction.parse_address ho hp rfl hle
  | @large n h hgt =>
    obtain ⟨hnum, rfl⟩ := isDecimal_iff.mp h
    refine Instruction.parse_of_operand_error ho ?_
    rw [Operand.parse_numeral hnum, if_neg (Nat.not_le.mpr hgt)]
  | bound hn hb hle =>
    have hv : (Operand.symbol s).resolve t = .ok _ := SymbolTable.address_eq_ok_iff.mpr ⟨_, hb, rfl⟩
    exact Instruction.parse_address ho (Operand.parse_name hn) hv hle
  | @far b hn hb hgt =>
    have hv : t.address s = .ok b.address := SymbolTable.address_eq_ok_iff.mpr ⟨b, hb, rfl⟩
    rw [Instruction.parse_symbol ho hn, hv]
    show (Instruction.ofAddress b.address).mapError _ = _
    rw [Instruction.ofAddress, if_neg (UInt16.not_le.mpr hgt)]
    rfl
  | unbound hn hb =>
    have hc : ¬ t.contains s := by simp [SymbolTable.contains, hb]
    rw [Instruction.parse_symbol ho hn, SymbolTable.address_of_not_contains hc]
    rfl
  | invalid hd hn =>
    have hnum : ¬ isNumeral s.toList := fun h => hd ⟨_, isDecimal_iff.mpr ⟨h, rfl⟩⟩
    refine Instruction.parse_of_operand_error ho ?_
    rw [Operand.parse, if_neg hnum, if_neg hn]

/-- the word of what is read holds all of the value -/
theorem encode_eq {i : Instruction} (h : OperandReading t s (.ok i)) :
    ∃ value, i = .address value ∧ i.encode = value := by
  cases h with
  | literal h hle => exact ⟨_, rfl, Instruction.encode_address hle⟩
  | bound hn hb hle => exact ⟨_, rfl, Instruction.encode_address hle⟩

end OperandReading

end

theorem operandText?_of_padded {line s : String} {padded : List Char}
    (hline : line.toList = '@' :: padded) (hp : Padded s.toList padded)
    (hs : NoBlankEnds s.toList) : operandText? line = some s := by
  rw [operandText?, hline]
  show some (String.ofList (trim padded)) = some s
  rw [hp.trim_eq hs, String.ofList_toList]

/-- **An address statement is what its operand says**: a numeral of any length its value, a symbol
its address, whatever blanks stand around it.  A value that an instruction cannot carry is refused,
and none is cut down to fit. -/
theorem parse_operand_iff {line s : String} {padded : List Char}
    (hline : line.toList = '@' :: padded) (hp : Padded s.toList padded) (hs : NoBlankEnds s.toList)
    (t : SymbolTable) :
    (∀ r, Instruction.parse t line = r ↔ OperandReading t s r) ∧
    ∀ i, Instruction.parse t line = .ok i → ∃ value, i = .address value ∧ i.encode = value := by
  have ho := operandText?_of_padded hline hp hs
  have hread : ∀ r, Instruction.parse t line = r ↔ OperandReading t s r := by
    intro r
    constructor
    · rintro rfl
      obtain ⟨r, h⟩ := exists_reading t s
      rwa [h.parse_eq ho]
    · intro h
      exact h.parse_eq ho
  exact ⟨hread, fun i hi => ((hread _).mp hi).encode_eq⟩

/-- leading zeros count for nothing, and 2 to the 32nd is too large like any other large value -/
theorem parse_operand_iff_numerals :
    Instruction.parse .empty "@\u30000000000032767 " = .ok (.address 32767) ∧
      Instruction.parse .empty "@4294967296" = .error ⟨.outOfRange, "4294967296"⟩ := by
  have hsmall : IsDecimal "0000000032767".toList (32767 : Word).toNat := by
    refine ⟨by decide, List.all_eq_true.mp (by decide), ?_⟩
    rw [← numeralValue_eq]
    rfl
  have hlarge : IsDecimal "4294967296".toList 4294967296 := by
    refine ⟨by decide, List.all_eq_true.mp (by decide), ?_⟩
    rw [← numeralValue_eq]
    rfl
  have hpadded := Padded.of_all ['\u3000'] "0000000032767".toList [' '] rfl rfl
  have hpadded' := Padded.of_all [] "4294967296".toList [] rfl rfl
  have hends : NoBlankEnds "0000000032767".toList := noBlankEnds_of_all (by decide)
  have hends' : NoBlankEnds "4294967296".toList := noBlankEnds_of_all (by decide)
  constructor
  · exact ((parse_operand_iff rfl hpadded hends .empty).1 _).mpr (.literal hsmall (by decide))
  · exact ((parse_operand_iff rfl hpadded' hends' .empty).1 _).mpr (.large hlarge (by decide))

end HackAssembler
