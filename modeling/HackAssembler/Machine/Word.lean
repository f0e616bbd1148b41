/-!
# Words: sixteen bits and their written forms

* `Word.binary`      sixteen binary digits, the highest bit first;
* `Word.ofBinary?`   reads a text of sixteen bytes, binary digits after at most one plus sign;
* `Word.hex`         four upper-case hexadecimal digits.

`bitDigits_append` cuts the digits of a word at the border of a field.
-/

namespace HackAssembler

/-- what a memory cell holds, and what an instruction is encoded as -/
abbrev Word := UInt16

/-- the bits of `b` written as `0` and `1`, the highest first -/
def bitDigits {n : Nat} (b : BitVec n) : List Char :=
  (List.range n).map fun i => if b.getMsbD i then '1' else '0'

def isBitDigit (c : Char) : Bool := c == '0' || c == '1'

/-- a numeral without the plus sign it may start with -/
def dropPlus : List Char → List Char
  | '+' :: cs => cs
  | cs => cs

def Word.binary (w : Word) : String := String.ofList (bitDigits w.toBitVec)

def Word.ofBinary? (s : String) : Option Word :=
  let digits := dropPlus s.toList
  if s.utf8ByteSize = 16 ∧ digits.all isBitDigit then
    some (.ofNat (Nat.ofDigitChars 2 digits 0))
  else
    none

def Word.hex (w : Word) : String :=
  String.ofList (((Nat.toDigits 16 w.toNat).map Char.toUpper).leftpad 4 '0')

/-! ## digits -/

@[simp] theorem length_bitDigits {n : Nat} (b : BitVec n) : (bitDigits b).length = n := by
  simp [bitDigits]

theorem bitDigits_append {m n : Nat} (a : BitVec m) (b : BitVec n) :
    bitDigits (a ++ b) = bitDigits a ++ bitDigits b := by
  simp only [bitDigits, List.range_add, List.map_append, List.map_map]
  congr 1
  · refine List.map_congr_left fun i hi => ?_
    have hm : i < m := List.mem_range.mp hi
    rw [BitVec.getMsbD_append]
    simp [Nat.not_le.mpr hm]
  · refine List.map_congr_left fun i _ => ?_
    rw [Function.comp_apply, BitVec.getMsbD_append]
    simp

theorem isBitDigit_of_mem_bitDigits {n : Nat} {b : BitVec n} {c : Char} (h : c ∈ bitDigits b) :
    isBitDigit c := by
  obtain ⟨i, -, rfl⟩ := List.mem_map.mp h
  cases b.getMsbD i <;> rfl

@[simp] theorem length_binary (w : Word) : w.binary.length = 16 := by
  simp [Word.binary]

end HackAssembler
