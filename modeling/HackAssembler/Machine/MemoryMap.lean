import HackAssembler.Machine.Word

/-!
# Memory map: the addresses every program knows

An address instruction carries fifteen bits, so addresses end at `maxAddress`.  The first sixteen
cells of the data memory are the virtual registers; variables start right above them.
-/

namespace HackAssembler

/-- the largest value an address instruction can carry -/
def maxAddress : Word := 0x7FFF

/-- the data cell of the first variable, right above `R15` -/
def firstVariable : Word := 16

/-- the first cell of the screen -/
def screen : Word := 0x4000

/-- the keyboard cell -/
def keyboard : Word := 0x6000

/-- the names a program may use without defining them -/
def predefined : List (String × Word) :=
  [("SP", 0), ("LCL", 1), ("ARG", 2), ("THIS", 3), ("THAT", 4),
    ("R0", 0), ("R1", 1), ("R2", 2), ("R3", 3), ("R4", 4), ("R5", 5), ("R6", 6), ("R7", 7),
    ("R8", 8), ("R9", 9), ("R10", 10), ("R11", 11), ("R12", 12), ("R13", 13), ("R14", 14),
    ("R15", 15), ("SCREEN", screen), ("KBD", keyboard)]

theorem predefined_names_nodup : (predefined.map (·.1)).Nodup := by decide

theorem predefined_le_maxAddress : ∀ b ∈ predefined, b.2 ≤ maxAddress := by decide

/-! ## numbers up to the end of the memory -/

theorem toNat_ofNat_of_le {n : Nat} (h : n ≤ 32768) : (UInt16.ofNat n).toNat = n :=
  UInt16.toNat_ofNat_of_lt' (Nat.lt_of_le_of_lt h (by decide))

theorem ofNat_le_maxAddress_iff {n : Nat} (h : n ≤ 32768) :
    UInt16.ofNat n ≤ maxAddress ↔ n ≤ 32767 := by
  rw [UInt16.le_iff_toNat_le, toNat_ofNat_of_le h]
  rfl

end HackAssembler
