import HackAssembler.Instruction.Computation
import HackAssembler.Instruction.Flags

/-!
# Instructions and their words

An address instruction has a clear top bit and fifteen bits of value.  A compute instruction is
`111`, the code of its computation, its destination and its jump condition.

* `decode?_encode`   a word read back is the instruction it was written from;
* `encode_of_decode?`   and the other way round.
-/

namespace HackAssembler

inductive Instruction where
  | address (value : Word)
  | compute (dest : Destination) (comp : Computation) (jump : JumpCondition)
  deriving DecidableEq, Repr

namespace Instruction

/-- an address instruction carries fifteen bits only -/
def ofAddress (value : Word) : Except FieldFault Instruction :=
  if value ≤ maxAddress then .ok (.address value) else .error (.addressTooLarge value)

def encode : Instruction → Word
  | address value => value &&& maxAddress
  | compute dest comp jump => .ofBitVec (0b111#3 ++ comp.code ++ dest.bits ++ jump.bits)

def decode? (w : Word) : Option Instruction :=
  let b := w.toBitVec
  if !b.msb then
    some (.address w)
  else if b.extractLsb' 13 3 = 0b111#3 then
    (Computation.ofCode? (b.extractLsb' 6 7)).map fun comp =>
      .compute (.ofBits (b.extractLsb' 3 3)) comp (.ofBits (b.extractLsb' 0 3))
  else
    none

/-- the word as sixteen binary digits -/
def binary (i : Instruction) : String := i.encode.binary

def ofBinary? (s : String) : Option Instruction := (Word.ofBinary? s).bind decode?

/-- what a word can carry -/
def Encodable : Instruction → Prop
  | address value => value ≤ maxAddress
  | compute _ _ _ => True

/-! ## words and back -/

theorem encode_address {value : Word} (h : value ≤ maxAddress) :
    (address value).encode = value := by
  have h : value.toNat ≤ 32767 := UInt16.le_iff_toNat_le.mp h
  refine UInt16.toNat_inj.mp ?_
  simp only [encode, maxAddress, UInt16.toNat_and]
  exact (Nat.and_two_pow_sub_one_eq_mod _ 15).trans (Nat.mod_eq_of_lt (by omega))

theorem msb_eq_false_iff {w : Word} : w.toBitVec.msb = false ↔ w ≤ maxAddress := by
  rw [BitVec.msb_eq_false_iff_two_mul_lt, UInt16.le_iff_toNat_le]
  show 2 * w.toNat < 2 ^ 16 ↔ w.toNat ≤ 32767
  omega

theorem decode?_encode {i : Instruction} (h : i.Encodable) : decode? i.encode = some i := by
  cases i with
  | address value =>
    rw [encode_address h, decode?, msb_eq_false_iff.mpr h]
    rfl
  | compute dest comp jump =>
    have hm : (0b111#3 ++ comp.code ++ dest.bits ++ jump.bits).msb = true := by
      simp only [BitVec.msb_append]
      rfl
    have ho : (0b111#3 ++ comp.code ++ dest.bits ++ jump.bits).extractLsb' 13 3 = 0b111#3 := by
      rw [BitVec.extractLsb'_append_eq_of_le (by omega),
        BitVec.extractLsb'_append_eq_of_le (by omega), BitVec.extractLsb'_append_eq_left]
    have hc : (0b111#3 ++ comp.code ++ dest.bits ++ jump.bits).extractLsb' 6 7 = comp.code := by
      rw [BitVec.extractLsb'_append_eq_of_le (by omega),
        BitVec.extractLsb'_append_eq_of_le (by omega), BitVec.extractLsb'_append_eq_right]
    have hd : (0b111#3 ++ comp.code ++ dest.bits ++ jump.bits).extractLsb' 3 3 = dest.bits := by
      rw [BitVec.extractLsb'_append_eq_of_le (by omega), BitVec.extractLsb'_append_eq_right]
    have hj : (0b111#3 ++ comp.code ++ dest.bits ++ jump.bits).extractLsb' 0 3 = jump.bits :=
      BitVec.extractLsb'_append_eq_right
    simp only [decode?, encode, hm, ho, hc, hd, hj, Computation.ofCode?_code,
      Destination.ofBits_bits, JumpCondition.ofBits_bits]
    rfl

/-- a word is its four fields -/
theorem fields_append (b : BitVec 16) :
    b.extractLsb' 13 3 ++ b.extractLsb' 6 7 ++ b.extractLsb' 3 3 ++ b.extractLsb' 0 3 = b := by
  rw [BitVec.extractLsb'_append_extractLsb'_eq_extractLsb' (show 13 = 6 + 7 from rfl),
    BitVec.extractLsb'_append_extractLsb'_eq_extractLsb' (show 6 = 3 + 3 from rfl),
    BitVec.extractLsb'_append_extractLsb'_eq_extractLsb' (show 3 = 0 + 3 from rfl)]
  exact BitVec.extractLsb'_eq_self

theorem encode_of_decode? {w : Word} {i : Instruction} (h : decode? w = some i) :
    i.encode = w ∧ i.Encodable := by
  simp only [decode?] at h
  split at h
  · next hm =>
    cases h
    have hw : w ≤ maxAddress := msb_eq_false_iff.mp (by simpa using hm)
    exact ⟨encode_address hw, hw⟩
  · split at h
    · next ho =>
      obtain ⟨comp, hc, rfl⟩ := Option.map_eq_some_iff.mp h
      refine ⟨?_, trivial⟩
      have hc : comp.code = w.toBitVec.extractLsb' 6 7 :=
        BitVec.eq_of_toNat_eq (Computation.ofCode?_eq_some_iff.mp hc)
      have hw : w.toBitVec = 0b111#3 ++ comp.code ++ w.toBitVec.extractLsb' 3 3
          ++ w.toBitVec.extractLsb' 0 3 := by
        rw [hc, ← ho, fields_append]
      refine UInt16.toBitVec_inj.mp (Eq.trans ?_ hw.symm)
      rw [encode, Destination.bits_ofBits, JumpCondition.bits_ofBits]
    · cases h

end Instruction

end HackAssembler
