import HackAssembler.Proofs.Binary
import HackAssembler.Proofs.Resolution

/-!
# Denotations: what an operand stands for, and what an assembly makes of it

The value of an operand is told here from the whole program, without a table and without a pass.

* `Denotes`                      the value of an operand;
* `Surveyed.parse_of_denotes`     the second pass loads that value;
* `denotes_next`                 a label stands for the address of the instruction after it;
* `binary_of_assemble`           the words of an assembled program.
-/

namespace HackAssembler

/-- the number that an operand stands for in the program `lines` -/
inductive Denotes (lines : List String) (operand : String) : Nat → Prop where
  | numeral (h : isNumeral operand.toList) : Denotes lines operand (numeralValue operand.toList)
  | predefined {address : Word} (h : predefined.lookup operand = some address) :
      Denotes lines operand address.toNat
  /-- the number of instruction lines above the line of the label -/
  | label {j : Nat} {raw : String} (h : lines[j]? = some raw)
      (hl : definedLabel? raw = some operand) :
      Denotes lines operand (instructionCount (lines.take j))
  /-- a data cell above those of the variables that are mentioned earlier -/
  | variable (hn : isName operand) (hfree : isFree lines operand) :
      Denotes lines operand
        (16 + (variableNames lines).countP fun other =>
          firstMention lines other < firstMention lines operand)

/-! ## ranks -/

/-- along an increasing list, the place of an element is the number of smaller ones -/
theorem countP_lt_of_pairwise {α : Type} {f : α → Nat} {l : List α} {a : α} {j : Nat}
    (h : l.Pairwise fun a b => f a < f b) (hj : l[j]? = some a) :
    (l.countP fun b => f b < f a) = j := by
  induction l generalizing j with
  | nil => simp at hj
  | cons b l ih =>
    obtain ⟨hb, hl⟩ := List.pairwise_cons.mp h
    rw [List.countP_cons]
    cases j with
    | zero =>
      rw [List.getElem?_cons_zero, Option.some.injEq] at hj
      subst hj
      have hnone : (l.countP fun c => f c < f b) = 0 := by
        refine List.countP_eq_zero.mpr fun c hc => ?_
        have hlt := hb c hc
        simp only [decide_eq_true_eq]
        omega
      rw [hnone]
      simp
    | succ j =>
      rw [List.getElem?_cons_succ] at hj
      have hlt := hb a (List.mem_of_getElem? hj)
      rw [ih hl hj]
      simp [hlt]

theorem rank_of_variable {lines : List String} {j : Nat} {name : String}
    (hj : (variableNames lines)[j]? = some name) :
    ((variableNames lines).countP fun other =>
      firstMention lines other < firstMention lines name) = j :=
  countP_lt_of_pairwise ((mentionedNames_pairwise lines).filter _) hj

/-! ## operands -/

theorem isName_of_predefined {name : String} {address : Word}
    (h : predefined.lookup name = some address) : isName name := by
  have key : ∀ b ∈ predefined, isName b.1 := by decide
  exact key (name, address) (mem_of_lookup h)

section
variable {lines : List String} {t : SymbolTable} {raw text operand : String}

/-- every operand that can be read stands for something -/
theorem exists_denotes {o : Operand} (ho : Operand.parse operand = .ok o) (lines : List String) :
    ∃ v, Denotes lines operand v := by
  by_cases hnum : isNumeral operand.toList
  · exact ⟨_, .numeral hnum⟩
  have hn := Operand.isName_of_parse_ok ho (Bool.not_eq_true _ ▸ hnum)
  by_cases hfree : isFree lines operand
  · exact ⟨_, .variable hn hfree⟩
  rw [isFree_iff, not_and, not_not] at hfree
  cases hp : predefined.lookup operand with
  | some address => exact ⟨_, .predefined hp⟩
  | none =>
    obtain ⟨raw, hraw, hl⟩ := List.mem_filterMap.mp (hfree hp)
    obtain ⟨j, hj⟩ := List.mem_iff_getElem?.mp hraw
    exact ⟨_, .label hj hl⟩

/-- a numeral stands for its value only, since it is no name -/
theorem Denotes.eq_of_isNumeral {v : Nat} (hv : Denotes lines operand v)
    (hnum : isNumeral operand.toList) : v = numeralValue operand.toList := by
  have hno := Operand.not_isName_of_isNumeral hnum
  cases hv with
  | numeral _ => rfl
  | predefined hp => exact absurd (isName_of_predefined hp) hno
  | label _ hl => exact absurd (isName_of_definedLabel? hl) hno
  | «variable» hn _ => exact absurd hn hno

/-- the table of a survey gives a symbol the address it stands for -/
theorem Surveyed.lookup?_of_denotes (h : Surveyed lines t)
    (hn : instructionCount lines < UInt32.size) (hm : operand ∈ mentionedNames lines) {v : Nat}
    (hv : Denotes lines operand v) :
    ∃ kind, t.lookup? operand = some ⟨kind, .ofNat v⟩ ∧ v ≤ 32767 := by
  cases hv with
  | numeral hnum =>
    exact absurd (isName_of_mem_mentionedNames hm) (Operand.not_isName_of_isNumeral hnum)
  | @predefined address hp =>
    have hle : address.toNat ≤ 32767 :=
      UInt16.le_iff_toNat_le.mp (predefined_le_maxAddress _ (mem_of_lookup hp))
    refine ⟨.predefined, ?_, hle⟩
    rw [SymbolTable.lookup?, hp, UInt16.ofNat_toNat]
  | @label j raw hj hl =>
    have hmem : (operand, instructionCount (lines.take j)) ∈ labels lines :=
      mem_labels.mpr ⟨j, raw, hj, hl, rfl⟩
    exact ⟨.label, h.lookup?_label hmem, h.label_le hn hmem⟩
  | «variable» _ hfree =>
    obtain ⟨j, hj⟩ := List.mem_iff_getElem?.mp (List.mem_filter.mpr ⟨hm, hfree⟩)
    rw [rank_of_variable hj]
    exact ⟨.variable, h.lookup?_variable hj, h.variable_le hj⟩

/-- an address statement of the program loads what its operand stands for -/
theorem Surveyed.parse_of_denotes (h : Surveyed lines t) (hn : instructionCount lines < UInt32.size)
    (hraw : raw ∈ lines) (ht : instructionText? raw = some text)
    (ho : operandText? text = some operand) {v : Nat} (hv : Denotes lines operand v) :
    Instruction.parse t text = .ok (.address (.ofNat v)) ∧ v ≤ 32767 := by
  obtain ⟨o, value, hp, hr, hle⟩ := h.resolve_operand hraw ht ho
  have hparse := Instruction.parse_address ho hp hr hle
  cases o with
  | literal w =>
    obtain ⟨hnum, hfit, rfl⟩ := Operand.parse_eq_literal_iff.mp hp
    cases hr
    rw [hv.eq_of_isNumeral hnum]
    exact ⟨hparse, hfit⟩
  | symbol name =>
    obtain ⟨hname, rfl⟩ := Operand.parse_eq_symbol_iff.mp hp
    have hm := mem_mentionedNames_of_operand hraw ht ho hname
    obtain ⟨kind, hb, hfit⟩ := h.lookup?_of_denotes hn hm hv
    obtain ⟨b, hb', rfl⟩ := SymbolTable.address_eq_ok_iff.mp hr
    rw [hb] at hb'
    cases hb'
    exact ⟨hparse, hfit⟩

end

/-! ## labels and the next instruction -/

/-- no instruction line stands between a line and the instruction line next to it -/
theorem instructionCount_take_of_next {lines : List String} {i j k : Nat} {raw text : String}
    (hk : (instructionLines lines)[k]? = some (i, text)) (hj : lines[j]? = some raw)
    (hraw : instructionText? raw = none) (hji : j < i)
    (hnext : ∀ l ∈ instructionLines lines, j < l.1 → i ≤ l.1) :
    instructionCount (lines.take j) = k := by
  obtain ⟨-, -, -, hcount⟩ := getElem?_instructionLines.mp hk
  have hle : instructionCount (lines.take j) ≤ k := by
    rw [← hcount]
    exact instructionCount_take_mono lines (Nat.le_of_lt hji)
  by_contra hne
  have hlen : k < (instructionLines lines).length := (List.getElem?_eq_some_iff.mp hk).1
  have hc : instructionCount (lines.take j) < (instructionLines lines).length := by omega
  -- the instruction line with that number would have to stand between the two lines
  obtain ⟨⟨i', text'⟩, hi'⟩ :
      ∃ l, (instructionLines lines)[instructionCount (lines.take j)]? = some l :=
    ⟨_, List.getElem?_eq_getElem hc⟩
  obtain ⟨raw', hraw', ht', hcount'⟩ := getElem?_instructionLines.mp hi'
  rcases Nat.lt_trichotomy i' j with hlt | rfl | hgt
  · have habove := instructionCount_take_lt hraw' ht' hlt
    omega
  · rw [hj, Option.some.injEq] at hraw'
    subst hraw'
    rw [hraw] at ht'
    cases ht'
  · have hii : i ≤ i' := hnext _ (List.mem_of_getElem? hi') hgt
    have hmono := instructionCount_take_mono lines hii
    omega

/-! ## the words of a program -/

section
variable {lines : List String} {a : Assembly}

/-- an assembly is what the second pass makes of a surveyed program -/
theorem places_of_assemble (h : assemble lines = .ok a) :
    ∃ t code, Surveyed lines t ∧ a.code = code.toList ∧ Assembly.Places t lines code := by
  unfold assemble at h
  split at h
  · cases h
  · next t ht =>
    obtain ⟨-, code, hcode, hplaces⟩ := Assembly.places_of_generate h
    exact ⟨t, code, surveyed_of_survey ht, hcode, hplaces⟩

/-- a label stands for the address of the instruction after it -/
theorem Assembly.Places.denotes_next {t : SymbolTable} {code : Array Placed}
    (h : Places t lines code) {j : Nat} {raw name : String} (hj : lines[j]? = some raw)
    (hl : definedLabel? raw = some name) {p : Placed} (hp : p ∈ code) (hjp : j < p.line)
    (hnext : ∀ q ∈ code, j < q.line → p.line ≤ q.line) :
    Denotes lines name p.address.toNat := by
  obtain ⟨k, text, hk, haddress, -⟩ := h.exists_text_of_mem hp
  have hraw := instructionText?_of_label (definedLabel?_eq_some_iff.mp hl)
  have hcount : instructionCount (lines.take j) = k := by
    refine instructionCount_take_of_next hk hj hraw hjp fun l hmem hjl => ?_
    obtain ⟨q, hq, hline⟩ := h.exists_of_mem hmem
    rw [← hline] at hjl ⊢
    exact hnext q hq hjl
  rw [haddress, ← hcount]
  exact .label hj hl

end

/-- **The words of an assembled program.**  Each instruction line has one word, at the address that
is the number of instruction lines above it.  The word of an address statement is the value of its
operand, and a label stands for the address of the instruction after it. -/
theorem binary_of_assemble {lines : List String} {a : Assembly} (h : assemble lines = .ok a) :
    (instructionLines lines).length ≤ 32768 ∧
    a.code.length = (instructionLines lines).length ∧
    (∀ k i text, (instructionLines lines)[k]? = some (i, text) →
      ∃ p : Placed, a.code[k]? = some p ∧ p.line = i ∧ p.address.toNat = k ∧
        (∀ operand, operandText? text = some operand →
          (∃ v, Denotes lines operand v) ∧
          ∀ v, Denotes lines operand v → v ≤ 32767 ∧
            p.instruction.binary = String.ofList (bitDigits (BitVec.ofNat 16 v))) ∧
        (operandText? text = none →
          ∃ dest comp jump, Statement.parse text = .ok (.compute dest comp jump) ∧
            p.instruction.binary =
              String.ofList (['1', '1', '1'] ++ bitDigits comp.code ++
                [dest.a, dest.d, dest.m].map flagDigit ++
                [jump.lt, jump.eq, jump.gt].map flagDigit))) ∧
    ∀ j raw name, lines[j]? = some raw → definedLabel? raw = some name →
      ∀ p ∈ a.code, j < p.line → (∀ q ∈ a.code, j < q.line → p.line ≤ q.line) →
        Denotes lines name p.address.toNat := by
  obtain ⟨t, code, hs, hcode, hplaces⟩ := places_of_assemble h
  have hfits := hplaces.fits
  have hlength : (instructionLines lines).length = code.size := by
    rw [length_instructionLines, hplaces.size]
  have hn : instructionCount lines < UInt32.size := by
    rw [← hplaces.size]
    exact Nat.lt_of_le_of_lt hfits (by decide)
  rw [hcode]
  refine ⟨hlength ▸ hfits, hlength ▸ Array.length_toList, fun k i text hk => ?_, ?_⟩
  · obtain ⟨p, hp, hline, haddress, hparse⟩ := hplaces.placed k i text hk
    obtain ⟨raw, hraw, ht, -⟩ := getElem?_instructionLines.mp hk
    have hmem := List.mem_of_getElem? hraw
    refine ⟨p, by rwa [Array.getElem?_toList], hline, haddress, fun operand ho => ?_, fun ho => ?_⟩
    · obtain ⟨o, hparsed⟩ := (hs.readable raw hmem).operand text operand ht ho
      refine ⟨exists_denotes hparsed lines, fun v hv => ?_⟩
      obtain ⟨hvalue, hle⟩ := hs.parse_of_denotes hn hmem ht ho hv
      rw [hvalue, Except.ok.injEq] at hparse
      rw [← hparse]
      exact ⟨hle, Instruction.binary_address hle⟩
    · obtain ⟨dest, comp, jump, hparsed, hi⟩ := Instruction.parse_compute_eq_ok ho hparse
      rw [hi]
      exact ⟨dest, comp, jump, hparsed, Instruction.binary_compute dest comp jump⟩
  · intro j raw name hj hl p hp hjp hnext
    rw [Array.mem_toList_iff] at hp
    exact hplaces.denotes_next hj hl hp hjp fun q hq => hnext q (Array.mem_toList_iff.mpr hq)

theorem binary_of_assemble_countdown :
    ∃ a, assemble countdown = .ok a ∧ Denotes countdown "END" 8 ∧
      ∃ p : Placed, a.code[4]? = some p ∧ p.line = 5 ∧
        p.instruction.binary = "0000000000001000" := by
  obtain ⟨a, h⟩ : ∃ a, assemble countdown = .ok a := exists_of_isOk (by decide +kernel)
  have hcount : instructionCount (countdown.take 9) = 8 := by decide +kernel
  have hend : Denotes countdown "END" 8 := hcount ▸ .label rfl (by decide +kernel)
  obtain ⟨-, -, hwords, -⟩ := binary_of_assemble h
  obtain ⟨p, hp, hline, -, haddress, -⟩ := hwords 4 5 "@END" (by decide +kernel)
  obtain ⟨-, hbinary⟩ := (haddress "END" (by decide +kernel)).2 8 hend
  exact ⟨a, h, hend, p, hp, hline, hbinary.trans (by decide +kernel)⟩

end HackAssembler
