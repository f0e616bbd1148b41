import HackAssembler.Instruction.Basic

/-!
# Binary words, digit by digit

* `Instruction.binary_address`   an address instruction is its value in binary;
* `Instruction.binary_compute`   a compute instruction is `111`, the code of the computation, and a
                                 digit for each flag;
* `Instruction.ofBinary?_binary`   the digits of an instruction are read as that instruction.
-/

namespace HackAssembler

/-- a flag as a binary digit -/
def flagDigit (b : Bool) : Char := if b then '1' else '0'

theorem bitDigits_ofBool (b : Bool) : bitDigits (BitVec.ofBool b) = [flagDigit b] := by
  cases b <;> rfl

theorem Destination.bitDigits_bits (s : Destination) :
    bitDigits s.bits = [s.a, s.d, s.m].map flagDigit := by
  rw [bits, bitDigits_append, bitDigits_append, bitDigits_ofBool, bitDigits_ofBool,
    bitDigits_ofBool]
  rfl

theorem JumpCondition.bitDigits_bits (j : JumpCondition) :
    bitDigits j.bits = [j.lt, j.eq, j.gt].map flagDigit := by
  rw [bits, bitDigits_append, bitDigits_append, bitDigits_ofBool, bitDigits_ofBool,
    bitDigits_ofBool]
  rfl

namespace Instruction

theorem binary_address {n : Nat} (h : n ≤ 32767) :
    (address (.ofNat n)).binary = String.ofList (bitDigits (BitVec.ofNat 16 n)) := by
  have hle : UInt16.ofNat n ≤ maxAddress := (ofNat_le_maxAddress_iff (by omega)).mpr h
  rw [binary, encode_address hle]
  rfl

theorem binary_compute (dest : Destination) (comp : Computation) (jump : JumpCondition) :
    (compute dest comp jump).binary =
      String.ofList (['1', '1', '1'] ++ bitDigits comp.code ++
        [dest.a, dest.d, dest.m].map flagDigit ++ [jump.lt, jump.eq, jump.gt].map flagDigit) := by
  show String.ofList (bitDigits (0b111#3 ++ comp.code ++ dest.bits ++ jump.bits)) = _
  rw [bitDigits_append, bitDigits_append, bitDigits_append, dest.bitDigits_bits,
    jump.bitDigits_bits]
  rfl

end Instruction

/-! ## reading -/

theorem bitDigits_concat {n : Nat} (b : BitVec n) (x : Bool) :
    bitDigits (b.concat x) = bitDigits b ++ [flagDigit x] := by
  rw [← bitDigits_ofBool]
  exact bitDigits_append b (BitVec.ofBool x)

/-- a vector of bits is its high bits and its last one -/
theorem exists_concat {n : Nat} (b : BitVec (n + 1)) : ∃ (c : BitVec n) (x : Bool), b = c.concat x := by
  refine ⟨b.extractLsb' 1 n, b.getLsbD 0, BitVec.eq_of_getLsbD_eq fun i hi => ?_⟩
  rw [BitVec.getLsbD_concat]
  cases i with
  | zero => simp
  | succ i =>
    have hlt : i < n := Nat.lt_of_succ_lt_succ hi
    simp [Nat.add_comm, hlt]

theorem ofDigitChars_bitDigits {n : Nat} (b : BitVec n) :
    Nat.ofDigitChars 2 (bitDigits b) 0 = b.toNat := by
  induction n with
  | zero => simp [bitDigits, BitVec.of_length_zero]
  | succ n ih =>
    obtain ⟨c, x, rfl⟩ := exists_concat b
    rw [bitDigits_concat, Nat.ofDigitChars_append, ih, BitVec.toNat_concat, Nat.ofDigitChars_cons,
      Nat.ofDigitChars_nil, Nat.mul_comm]
    cases x <;> rfl

theorem utf8ByteSize_ofList_of_ascii {cs : List Char} (h : ∀ c ∈ cs, c.utf8Size = 1) :
    (String.ofList cs).utf8ByteSize = cs.length := by
  induction cs with
  | nil => rfl
  | cons c cs ih =>
    obtain ⟨hc, hcs⟩ := List.forall_mem_cons.mp h
    rw [← List.singleton_append, String.ofList_append, String.utf8ByteSize_append, ih hcs]
    simp [hc, Nat.add_comm]

theorem isBitDigit_iff {c : Char} : isBitDigit c ↔ c = '0' ∨ c = '1' := by
  rw [isBitDigit, Bool.or_eq_true, beq_iff_eq, beq_iff_eq]

theorem utf8ByteSize_ofList_of_isBitDigit {cs : List Char} (h : ∀ c ∈ cs, isBitDigit c) :
    (String.ofList cs).utf8ByteSize = cs.length := by
  refine utf8ByteSize_ofList_of_ascii fun c hc => ?_
  rcases isBitDigit_iff.mp (h c hc) with rfl | rfl <;> rfl

theorem isBitDigit_of_mem_binary {i : Instruction} {c : Char} (h : c ∈ i.binary.toList) :
    c = '0' ∨ c = '1' :=
  isBitDigit_iff.mp (isBitDigit_of_mem_bitDigits (String.toList_ofList ▸ h))

theorem Word.utf8ByteSize_binary (w : Word) : w.binary.utf8ByteSize = 16 := by
  have hall : ∀ c ∈ bitDigits w.toBitVec, isBitDigit c := fun c => isBitDigit_of_mem_bitDigits
  rw [Word.binary, utf8ByteSize_ofList_of_isBitDigit hall, length_bitDigits]

theorem dropPlus_of_isBitDigit {cs : List Char} (h : ∀ c ∈ cs, isBitDigit c) : dropPlus cs = cs := by
  unfold dropPlus
  split
  · have hplus := h '+' List.mem_cons_self
    cases hplus
  · rfl

theorem Word.ofBinary?_binary (w : Word) : Word.ofBinary? w.binary = some w := by
  have hdigits : w.binary.toList = bitDigits w.toBitVec := String.toList_ofList
  have hall : ∀ c ∈ bitDigits w.toBitVec, isBitDigit c := fun c => isBitDigit_of_mem_bitDigits
  rw [ofBinary?, hdigits, dropPlus_of_isBitDigit hall, ofDigitChars_bitDigits]
  simp only [utf8ByteSize_binary, List.all_eq_true.mpr hall, and_self, if_true]
  exact congrArg some UInt16.ofNat_toNat

/-- the written word of an instruction is read as that instruction -/
theorem Instruction.ofBinary?_binary {i : Instruction} (h : i.Encodable) :
    ofBinary? i.binary = some i := by
  rw [ofBinary?, binary, Word.ofBinary?_binary, Option.bind_some, decode?_encode h]

end HackAssembler
