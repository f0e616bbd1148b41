import HackAssembler.Proofs.Disassembly

/-!
# Columns: texts that stand in a column of a listing

A column holds characters that are neither control characters nor `:`, which ends the columns of a
row.

* `isColumnText`           such a text; it breaks no row, starts no code and ends no column;
* `isColumnText_hex`, `Word.length_hex`   a word in hexadecimal digits, of which there are four;
* `Instruction.isColumnText_of_mem_spans`   the pieces of an instruction.
-/

namespace HackAssembler

def isColumnChar (c : Char) : Bool := ' ' ≤ c && c != ':'

def isColumnText (s : String) : Bool := s.toList.all isColumnChar

section
variable {s : String}

theorem isColumnText_iff : isColumnText s ↔ ∀ c ∈ s.toList, isColumnChar c := List.all_eq_true

theorem isColumnText_append (s t : String) :
    isColumnText (s ++ t) = (isColumnText s && isColumnText t) := by
  rw [isColumnText, String.toList_append, List.all_append, isColumnText, isColumnText]

theorem not_mem_of_isColumnText (h : isColumnText s) {c : Char} (hc : ¬ isColumnChar c) :
    c ∉ s.toList := fun hm => hc (isColumnText_iff.mp h c hm)

theorem isColumnText_alignRight (width : Nat) (h : isColumnText s) :
    isColumnText (alignRight width s) := by
  rw [isColumnText_iff, alignRight, String.toList_ofList, List.leftpad]
  refine List.forall_mem_append.mpr ⟨fun c hc => ?_, isColumnText_iff.mp h⟩
  rw [List.eq_of_mem_replicate hc]
  decide

theorem isColumnText_rule (width : Nat) : isColumnText (rule width) := by
  rw [isColumnText_iff, rule, String.toList_ofList]
  intro c hc
  rw [List.eq_of_mem_replicate hc]
  decide

end

/-! ## digits -/

theorem isColumnChar_of_isDigit {c : Char} (h : c.isDigit) : isColumnChar c := by
  obtain ⟨hl, hu⟩ := Char.isDigit_iff_toNat.mp h
  have hne : c ≠ ':' := by
    rintro rfl
    cases h
  have hle : ' ' ≤ c := Nat.le_trans (by decide) hl
  simp [isColumnChar, hne, hle]

theorem isColumnText_toString (n : Nat) : isColumnText (toString n) := by
  rw [isColumnText_iff, Nat.toString_eq_ofList_toDigits, String.toList_ofList]
  intro c hc
  exact isColumnChar_of_isDigit (Nat.isDigit_of_mem_toDigits (by decide) (Nat.le_refl 10) hc)

theorem exists_of_mem_toDigits {n : Nat} {c : Char} (h : c ∈ Nat.toDigits 16 n) :
    ∃ d < 16, c = Nat.digitChar d := by
  induction n using Nat.strongRecOn with
  | ind n ih =>
    by_cases hn : n < 16
    · rw [Nat.toDigits_of_lt_base hn, List.mem_singleton] at h
      exact ⟨n, hn, h⟩
    · rw [Nat.toDigits_of_base_le (by decide) (Nat.le_of_not_lt hn), List.mem_append,
        List.mem_singleton] at h
      rcases h with h | h
      · exact ih (n / 16) (by omega) h
      · exact ⟨n % 16, Nat.mod_lt n (by decide), h⟩

theorem isColumnText_hex (w : Word) : isColumnText w.hex := by
  have hdigit : ∀ d < 16, isColumnChar (Nat.digitChar d).toUpper := by decide
  rw [isColumnText_iff, Word.hex, String.toList_ofList, List.leftpad, List.forall_mem_append]
  constructor
  · intro c hc
    rw [List.eq_of_mem_replicate hc]
    decide
  · intro c hc
    obtain ⟨c', hc', rfl⟩ := List.mem_map.mp hc
    obtain ⟨d, hd, rfl⟩ := exists_of_mem_toDigits hc'
    exact hdigit d hd

theorem Word.length_hex (w : Word) : w.hex.toList.length = 4 := by
  have hfits : (Nat.toDigits 16 w.toNat).length ≤ 4 := by
    rw [Nat.length_toDigits_le_iff (by decide) (by decide)]
    exact w.toNat_lt
  rw [Word.hex, String.toList_ofList, List.leftpad, List.length_append, List.length_replicate,
    List.length_map]
  omega

theorem isColumnText_binary (i : Instruction) : isColumnText i.binary := by
  rw [isColumnText_iff]
  intro c hc
  rcases isBitDigit_of_mem_binary hc with rfl | rfl <;> decide

/-! ## instructions -/

theorem Destination.isColumnText_text (s : Destination) : isColumnText s.text := by
  obtain ⟨a, d, m⟩ := s
  cases a <;> cases d <;> cases m <;> decide

theorem Computation.isColumnText_mnemonic (c : Computation) : isColumnText c.mnemonic := by
  have h : ∀ c ∈ all, isColumnText c.mnemonic := by decide
  exact h c (mem_all c)

theorem JumpCondition.isColumnText_mnemonic (j : JumpCondition) :
    ∀ t ∈ j.mnemonic?, isColumnText t := by
  obtain ⟨lt, eq, gt⟩ := j
  cases lt <;> cases eq <;> cases gt <;> decide

/-- the pieces of an instruction fit into a column -/
theorem Instruction.isColumnText_of_mem_spans {i : Instruction} :
    ∀ span ∈ i.spans, isColumnText span.text := by
  cases i with
  | address value =>
    have hsign : isColumnText "@" := by decide
    exact List.forall_mem_cons.mpr
      ⟨hsign, List.forall_mem_singleton.mpr (isColumnText_toString value.toNat)⟩
  | compute dest comp jump =>
    simp only [spans, List.forall_mem_append]
    refine ⟨⟨?_, ?_⟩, ?_⟩
    · split
      · exact List.forall_mem_nil _
      · have hequals : isColumnText "=" := by decide
        exact List.forall_mem_cons.mpr
          ⟨dest.isColumnText_text, List.forall_mem_singleton.mpr hequals⟩
    · exact List.forall_mem_singleton.mpr comp.isColumnText_mnemonic
    · split
      · next mnemonic h =>
        have hsemicolon : isColumnText ";" := by decide
        exact List.forall_mem_cons.mpr
          ⟨hsemicolon, List.forall_mem_singleton.mpr (jump.isColumnText_mnemonic _ h)⟩
      · exact List.forall_mem_nil _

end HackAssembler
