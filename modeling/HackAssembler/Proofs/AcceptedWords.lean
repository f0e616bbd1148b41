import Mathlib.Data.List.Induction
import HackAssembler.Proofs.Binary

/-!
# Accepted words: the texts that are read as an instruction

A text that is read has sixteen bytes, and one plus sign may stand in front of its digits.  The sign
then takes the place of the highest digit and counts as a zero, so that a signed text is always an
address.

* `exists_bitDigits`              binary digits are the digits of a vector of bits;
* `Word.ofBinary?_plus`           a plus sign counts as a zero;
* `Word.ofBinary?_eq_some_iff`    the texts of a word, with and without a sign;
* `Instruction.accepted_words`    the texts of an instruction; one of them has no sign.
-/

namespace HackAssembler

/-! ## words -/

theorem exists_bitDigits {cs : List Char} (h : ∀ c ∈ cs, isBitDigit c) :
    ∃ b : BitVec cs.length, bitDigits b = cs := by
  induction cs using List.reverseRecOn with
  | nil => exact ⟨0#0, rfl⟩
  | append_singleton cs c ih =>
    obtain ⟨hcs, hc⟩ := List.forall_mem_append.mp h
    obtain ⟨b, hb⟩ := ih hcs
    obtain ⟨x, hx⟩ : ∃ x, flagDigit x = c := by
      rcases isBitDigit_iff.mp (hc c List.mem_cons_self) with rfl | rfl
      · exact ⟨false, rfl⟩
      · exact ⟨true, rfl⟩
    rw [List.length_append]
    exact ⟨b.concat x, by rw [bitDigits_concat, hb, hx]⟩

/-- a numeral without its sign is another one only if it has a sign -/
theorem exists_of_dropPlus_ne {s : String} (h : dropPlus s.toList ≠ s.toList) :
    ∃ digits, s = "+" ++ digits := by
  unfold dropPlus at h
  split at h
  · next cs hcs =>
    exact ⟨String.ofList cs, String.toList_inj.mp (by simp [hcs])⟩
  · exact absurd rfl h

namespace Word

theorem ofBinary?_plus (digits : String) : ofBinary? ("+" ++ digits) = ofBinary? ("0" ++ digits) := by
  have hplus : dropPlus ("+" ++ digits).toList = digits.toList := by
    rw [String.toList_append]
    rfl
  have hzero : dropPlus ("0" ++ digits).toList = '0' :: digits.toList := by
    rw [String.toList_append]
    rfl
  have hbytes : ("+" ++ digits).utf8ByteSize = ("0" ++ digits).utf8ByteSize := by
    rw [String.utf8ByteSize_append, String.utf8ByteSize_append]
    rfl
  have hvalue : Nat.ofDigitChars 2 ('0' :: digits.toList) 0 = Nat.ofDigitChars 2 digits.toList 0 := by
    rw [Nat.ofDigitChars_cons]
    rfl
  have hall : ('0' :: digits.toList).all isBitDigit = digits.toList.all isBitDigit := rfl
  simp only [ofBinary?, hplus, hzero, hbytes, hvalue, hall]

/-- a text without a sign is the one that the word is written as -/
theorem binary_of_ofBinary? {s : String} {w : Word} (h : ofBinary? s = some w)
    (hsign : dropPlus s.toList = s.toList) : w.binary = s := by
  rw [ofBinary?, hsign] at h
  split at h
  · next hdigits =>
    obtain ⟨hbytes, hall⟩ := hdigits
    have hall : ∀ c ∈ s.toList, isBitDigit c := List.all_eq_true.mp hall
    have hlen : s.toList.length = 16 := by
      rw [← hbytes, ← utf8ByteSize_ofList_of_isBitDigit hall, String.ofList_toList]
    obtain ⟨b, hb⟩ : ∃ b : BitVec 16, bitDigits b = s.toList := hlen ▸ exists_bitDigits hall
    rw [← hb, ofDigitChars_bitDigits] at h
    have hw : w = .ofBitVec b := by
      rw [← Option.some.inj h]
      exact UInt16.toNat_inj.mp (UInt16.toNat_ofNat_of_lt' b.isLt)
    rw [hw, binary, hb, String.ofList_toList]
  · cases h

theorem ofBinary?_eq_some_iff {s : String} {w : Word} :
    ofBinary? s = some w ↔
      w.binary = s ∨ ∃ digits, w.binary = "0" ++ digits ∧ s = "+" ++ digits := by
  constructor
  · intro h
    by_cases hsign : dropPlus s.toList = s.toList
    · exact .inl (binary_of_ofBinary? h hsign)
    · obtain ⟨digits, rfl⟩ := exists_of_dropPlus_ne hsign
      rw [ofBinary?_plus] at h
      have hplain : dropPlus ("0" ++ digits).toList = ("0" ++ digits).toList := by
        rw [String.toList_append]
        rfl
      exact .inr ⟨digits, binary_of_ofBinary? h hplain, rfl⟩
  · rintro (rfl | ⟨digits, hw, rfl⟩)
    · exact ofBinary?_binary w
    · rw [ofBinary?_plus, ← hw]
      exact ofBinary?_binary w

end Word

/-! ## instructions -/

namespace Instruction

theorem decode?_eq_some_iff {w : Word} {i : Instruction} :
    decode? w = some i ↔ i.Encodable ∧ i.encode = w := by
  constructor
  · intro h
    exact (encode_of_decode? h).symm
  · rintro ⟨h, rfl⟩
    exact decode?_encode h

theorem ofBinary?_eq_some_iff {s : String} {i : Instruction} :
    ofBinary? s = some i ↔
      i.Encodable ∧ (i.binary = s ∨ ∃ digits, i.binary = "0" ++ digits ∧ s = "+" ++ digits) := by
  calc ofBinary? s = some i
      ↔ ∃ w, Word.ofBinary? s = some w ∧ i.Encodable ∧ i.encode = w := by
        simp only [ofBinary?, Option.bind_eq_some_iff, decode?_eq_some_iff]
    _ ↔ i.Encodable ∧ Word.ofBinary? s = some i.encode := by
        constructor
        · rintro ⟨w, hs, h, rfl⟩
          exact ⟨h, hs⟩
        · rintro ⟨h, hs⟩
          exact ⟨_, hs, h, rfl⟩
    _ ↔ _ := by rw [Word.ofBinary?_eq_some_iff]; rfl

/-- a text without a sign is read as the instruction that it is written from, and not otherwise -/
theorem ofBinary?_unsigned_iff {s : String} (hsign : s.toList.head? ≠ some '+') {i : Instruction} :
    ofBinary? s = some i ↔ i.Encodable ∧ i.binary = s := by
  have hplain : ¬ ∃ digits, i.binary = "0" ++ digits ∧ s = "+" ++ digits := by
    rintro ⟨digits, -, rfl⟩
    exact hsign (by simp)
  rw [ofBinary?_eq_some_iff, or_iff_left hplain]

theorem length_of_ofBinary? {s : String} {i : Instruction} (h : ofBinary? s = some i) :
    s.length = 16 := by
  have hlen : i.binary.length = 16 := length_binary i.encode
  rcases (ofBinary?_eq_some_iff.mp h).2 with rfl | ⟨digits, hdigits, rfl⟩
  · exact hlen
  · rw [hdigits, ← String.length_toList] at hlen
    rw [← String.length_toList]
    simpa using hlen

/-- **The texts that are read as an instruction**: the one that the instruction is written as, and,
where that one starts with a zero, the same text with a plus sign in the place of the zero.  A text
without a sign is read only if it is written from an instruction; then it consists of sixteen binary
digits, and no other text without a sign is read as the same instruction. -/
theorem accepted_words (s : String) :
    (∀ i, ofBinary? s = some i ↔
      i.Encodable ∧ (i.binary = s ∨ ∃ digits, i.binary = "0" ++ digits ∧ s = "+" ++ digits)) ∧
    (∀ i, ofBinary? s = some i → s.length = 16) ∧
    (s.toList.head? ≠ some '+' →
      (∀ i, ofBinary? s = some i ↔ i.Encodable ∧ i.binary = s) ∧
      ∀ i, ofBinary? s = some i → (∀ c ∈ s.toList, c = '0' ∨ c = '1') ∧
        ∀ r : String, r.toList.head? ≠ some '+' → ofBinary? r = some i → r = s) := by
  refine ⟨fun i => ofBinary?_eq_some_iff, fun i => length_of_ofBinary?, fun hsign => ?_⟩
  refine ⟨fun i => ofBinary?_unsigned_iff hsign, fun i h => ?_⟩
  obtain ⟨-, rfl⟩ := (ofBinary?_unsigned_iff hsign).mp h
  refine ⟨fun c => isBitDigit_of_mem_binary, fun r hr hri => ?_⟩
  exact ((ofBinary?_unsigned_iff hr).mp hri).2.symm

/-- `D=A` -/
theorem accepted_words_compute :
    "1110110000010000".toList.head? ≠ some '+' ∧
    ofBinary? "1110110000010000" =
      some (.compute ⟨false, true, false⟩ (.second .a) .never) ∧
    "1110110000010000".length = 16 ∧
    ∀ r : String, r.toList.head? ≠ some '+' →
      ofBinary? r = some (.compute ⟨false, true, false⟩ (.second .a) .never) →
        r = "1110110000010000" := by
  obtain ⟨hread, hlen, hunsigned⟩ := accepted_words "1110110000010000"
  have hsign : "1110110000010000".toList.head? ≠ some '+' := by decide
  have h : ofBinary? "1110110000010000" =
      some (.compute ⟨false, true, false⟩ (.second .a) .never) :=
    (hread _).mpr ⟨trivial, .inl (by decide +kernel)⟩
  exact ⟨hsign, h, hlen _ h, ((hunsigned hsign).2 _ h).2⟩

/-- a text with a sign is not written from the instruction that it is read as -/
theorem signed_word_accepted :
    ofBinary? "+000000000000111" = some (.address 7) ∧
      (address 7).binary = "0000000000000111" ∧
      ofBinary? "0000000000000111" = some (.address 7) := by
  decide +kernel

end Instruction

end HackAssembler
