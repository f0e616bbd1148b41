import HackAssembler.Proofs.Denotation
import HackAssembler.Proofs.Verdict
import HackAssembler.Proofs.WrittenForm

/-!
# Disassembly: words to text and back

* `survey_texts`            a program of instruction texts has no symbols of its own;
* `assemble_texts`          it is assembled line by line, as long as the instruction memory lasts;
* `Assembly.encodable`      an assembled instruction fits into its word;
* `assemble_disassembly`    words that are written as text and assembled again;
* `reassemble`              the same for the words of an assembled program.
-/

namespace HackAssembler

/-! ## programs of instruction texts -/

section
variable {is : List Instruction}

/-- the first pass only counts the lines -/
theorem walk_texts (h : ∀ i ∈ is, i.Encodable) (line : Nat) (s : Survey) :
    ∃ n, walk Survey.step line (is.map Instruction.text) s = .ok ⟨s.table, s.mentions, n⟩ := by
  induction is generalizing line s with
  | nil => exact ⟨s.count, rfl⟩
  | cons i is ih =>
    obtain ⟨hi, his⟩ := List.forall_mem_cons.mp h
    obtain ⟨table, mentions, count⟩ := s
    obtain ⟨n, hn⟩ := ih his (line + 1) ⟨table, mentions, count + 1⟩
    have hstep : Survey.step line (.instruction i.text) ⟨table, mentions, count⟩ =
        .ok ⟨table, mentions, count + 1⟩ := by
      rw [Survey.step, Survey.addInstruction, Instruction.mention?_text hi]
    refine ⟨n, ?_⟩
    rw [List.map_cons, walk, Instruction.line_of_text]
    simp only [hstep]
    exact hn

theorem survey_texts (h : ∀ i ∈ is, i.Encodable) :
    survey (is.map Instruction.text) = .ok .empty := by
  obtain ⟨n, hn⟩ := walk_texts h 0 .empty
  rw [Survey.survey_of_walk hn]
  rfl

theorem instructionText?_text (i : Instruction) : instructionText? i.text = some i.text :=
  instructionText?_eq_some_iff.mpr i.line_of_text

theorem instructionCount_texts (is : List Instruction) :
    instructionCount (is.map Instruction.text) = is.length := by
  rw [instructionCount, List.countP_map, List.countP_eq_length]
  intro i _
  rw [Function.comp_apply, instructionText?_text]
  rfl

theorem instructionCount_take_texts {k : Nat} (hk : k ≤ is.length) :
    instructionCount ((is.map Instruction.text).take k) = k := by
  rw [← List.map_take, instructionCount_texts, List.length_take_of_le hk]

theorem getElem?_instructionLines_texts {k : Nat} {i : Instruction} (hk : is[k]? = some i) :
    (instructionLines (is.map Instruction.text))[k]? = some (k, i.text) := by
  have hlt : k < is.length := (List.getElem?_eq_some_iff.mp hk).1
  refine getElem?_instructionLines.mpr ⟨i.text, ?_, instructionText?_text i,
    instructionCount_take_texts (Nat.le_of_lt hlt)⟩
  rw [List.getElem?_map, hk, Option.map_some]

/-! ## the second pass -/

/-- what the second pass finds on a line of such a program depends on the room in the memory only -/
theorem placeFault?_take_texts (h : ∀ i ∈ is, i.Encodable) (t : SymbolTable) {k : Nat}
    {raw : String} (hraw : (is.map Instruction.text)[k]? = some raw) :
    placeFault? t ((is.map Instruction.text).take k) raw =
      if k ≤ 32767 then none else some ⟨.outOfRange, "32768"⟩ := by
  rw [List.getElem?_map, Option.map_eq_some_iff] at hraw
  obtain ⟨i, hi, rfl⟩ := hraw
  have hlt : k < is.length := (List.getElem?_eq_some_iff.mp hi).1
  rw [placeFault?, Instruction.line_of_text]
  simp only [instructionCount_take_texts (Nat.le_of_lt hlt),
    Instruction.parse_text (h i (List.mem_of_getElem? hi))]
  rfl

/-- each instruction stands where its text stood -/
theorem generate_texts (h : ∀ i ∈ is, i.Encodable) (t : SymbolTable) (hfit : is.length ≤ 32768) :
    ∃ a, Assembly.generate t (is.map Instruction.text) = .ok a ∧ a.table = t ∧
      a.code = is.mapIdx fun k i => ⟨k, .ofNat k, i⟩ := by
  have hfaultless : Faultless (placeFault? t) (is.map Instruction.text) := by
    intro k raw hraw
    have hlt : k < (is.map Instruction.text).length := (List.getElem?_eq_some_iff.mp hraw).1
    rw [List.length_map] at hlt
    rw [placeFault?_take_texts h t hraw, if_pos (by omega)]
  obtain ⟨a, ha⟩ := Assembly.generate_ok_of_faultless hfaultless
  obtain ⟨htable, code, hcode, hplaces⟩ := Assembly.places_of_generate ha
  refine ⟨a, ha, htable, List.ext_getElem? fun k => ?_⟩
  rw [hcode, Array.getElem?_toList, List.getElem?_mapIdx]
  cases hk : is[k]? with
  | none =>
    have hout : is.length ≤ k := List.getElem?_eq_none_iff.mp hk
    have hsize : code.size = is.length := hplaces.size.trans (instructionCount_texts is)
    exact Array.getElem?_eq_none (hsize ▸ hout)
  | some i =>
    obtain ⟨p, hp, hline, haddress, hparse⟩ :=
      hplaces.placed k k i.text (getElem?_instructionLines_texts hk)
    rw [Instruction.parse_text (h i (List.mem_of_getElem? hk)), Except.ok.injEq] at hparse
    have hplace : p.address = .ofNat k := by rw [← haddress, UInt16.ofNat_toNat]
    rw [hp, Option.map_some, hparse, ← hplace, ← hline]

theorem generate_texts_error (h : ∀ i ∈ is, i.Encodable) (t : SymbolTable)
    (hlong : 32768 < is.length) :
    Assembly.generate t (is.map Instruction.text) = .error ⟨32768, ⟨.outOfRange, "32768"⟩⟩ := by
  have hlen : 32768 < (is.map Instruction.text).length := by rwa [List.length_map]
  have hget := List.getElem?_eq_getElem hlen
  refine Assembly.generate_eq_error_iff.mpr ⟨⟨_, hget, ?_⟩, fun j hj raw hraw => ?_⟩
  · rw [placeFault?_take_texts h t hget]
    rfl
  · rw [placeFault?_take_texts h t hraw, if_pos (Nat.le_of_lt_succ hj)]

/-! ## both passes -/

/-- a program of instruction texts is assembled line by line -/
theorem assemble_texts (h : ∀ i ∈ is, i.Encodable) (hfit : is.length ≤ 32768) :
    ∃ a, assemble (is.map Instruction.text) = .ok a ∧ a.table.entries = [] ∧
      a.code = (is.mapIdx fun k i => ⟨k, .ofNat k, i⟩) ∧ a.binary = is.map Instruction.binary := by
  obtain ⟨a, ha, htable, hcode⟩ := generate_texts h .empty hfit
  refine ⟨a, (assemble_of_survey (survey_texts h)).trans ha, ?_, hcode, ?_⟩
  · rw [htable, SymbolTable.entries_empty]
  · refine List.ext_getElem? fun k => ?_
    rw [Assembly.binary, hcode, List.getElem?_map, List.getElem?_mapIdx, List.getElem?_map,
      Option.map_map]
    rfl

theorem assemble_texts_error (h : ∀ i ∈ is, i.Encodable) (hlong : 32768 < is.length) :
    assemble (is.map Instruction.text) = .error ⟨32768, ⟨.outOfRange, "32768"⟩⟩ :=
  (assemble_of_survey (survey_texts h)).trans (generate_texts_error h .empty hlong)

end

/-- words that can be read are those that their instructions are written as -/
theorem encode_of_decoded {ws : List Word} {is : List Instruction}
    (h : ws.map Instruction.decode? = is.map some) :
    is.map Instruction.encode = ws ∧ ∀ i ∈ is, i.Encodable := by
  induction ws generalizing is with
  | nil =>
    cases is with
    | nil => exact ⟨rfl, List.forall_mem_nil _⟩
    | cons i is => cases h
  | cons w ws ih =>
    cases is with
    | nil => cases h
    | cons i is =>
      rw [List.map_cons, List.map_cons, List.cons.injEq] at h
      obtain ⟨hw, hi⟩ := Instruction.encode_of_decode? h.1
      obtain ⟨hws, his⟩ := ih h.2
      rw [List.map_cons, hw, hws]
      exact ⟨rfl, List.forall_mem_cons.mpr ⟨hi, his⟩⟩

/-- **Assembling undoes disassembling.**  Words that can be read, written one on a line, are
assembled to the same words in the same places; a program that is longer than the instruction
memory is refused at its first line without a place. -/
theorem assemble_disassembly {ws : List Word} {is : List Instruction}
    (h : ws.map Instruction.decode? = is.map some) :
    (ws.length ≤ 32768 → ∃ a, assemble (is.map Instruction.text) = .ok a ∧
      a.code.length = ws.length ∧
      (∀ (k : Nat) (w : Word), ws[k]? = some w → ∃ p : Placed, a.code[k]? = some p ∧
        p.line = k ∧ p.address.toNat = k ∧ Instruction.decode? w = some p.instruction) ∧
      a.binary = ws.map Word.binary ∧ a.table.entries = []) ∧
    (32768 < ws.length →
      assemble (is.map Instruction.text) = .error ⟨32768, ⟨.outOfRange, "32768"⟩⟩) := by
  obtain ⟨hwords, hencodable⟩ := encode_of_decoded h
  have hlength : is.length = ws.length := by rw [← hwords, List.length_map]
  refine ⟨fun hfit => ?_, fun hlong => assemble_texts_error hencodable (hlength ▸ hlong)⟩
  obtain ⟨a, ha, hentries, hcode, hbinary⟩ := assemble_texts hencodable (hlength ▸ hfit)
  refine ⟨a, ha, ?_, fun k w hw => ?_, ?_, hentries⟩
  · rw [hcode, List.length_mapIdx, hlength]
  · have hk : k < ws.length := (List.getElem?_eq_some_iff.mp hw).1
    have hdecode := congrArg (·[k]?) h
    simp only [List.getElem?_map, hw, Option.map_some] at hdecode
    obtain ⟨i, hi, hwi⟩ := Option.map_eq_some_iff.mp hdecode.symm
    refine ⟨⟨k, .ofNat k, i⟩, ?_, rfl, toNat_ofNat_of_le (by omega), hwi.symm⟩
    rw [hcode, List.getElem?_mapIdx, hi, Option.map_some]
  · rw [hbinary, ← hwords, List.map_map]
    rfl

/-- `@2`, `D=A` and `0;JMP` -/
theorem assemble_disassembly_jump :
    [0x0002, 0xEC10, 0xEA87].map Instruction.decode? =
        [.address 2, .compute ⟨false, true, false⟩ (.second .a) .never,
          .compute .none .zero ⟨true, true, true⟩].map some ∧
      ∃ a, assemble ["@2", "D=A", "0;JMP"] = .ok a ∧
        a.binary = ["0000000000000010", "1110110000010000", "1110101010000111"] ∧
        a.table.entries = [] := by
  have h : [0x0002, 0xEC10, 0xEA87].map Instruction.decode? =
      [.address 2, .compute ⟨false, true, false⟩ (.second .a) .never,
        .compute .none .zero ⟨true, true, true⟩].map some := by decide +kernel
  obtain ⟨a, ha, -, -, hbinary, hentries⟩ := (assemble_disassembly h).1 (by decide)
  exact ⟨h, a, ha, hbinary.trans (by decide +kernel), hentries⟩

/-! ## the words of an assembled program -/

section
variable {lines : List String} {a : Assembly}

theorem Assembly.encodable (h : assemble lines = .ok a) : ∀ p ∈ a.code, p.instruction.Encodable := by
  intro p hp
  obtain ⟨t, code, -, hcode, hplaces⟩ := places_of_assemble h
  rw [hcode, Array.mem_toList_iff] at hp
  exact hplaces.encodable hp

theorem Assembly.length_code_le (h : assemble lines = .ok a) : a.code.length ≤ 32768 := by
  obtain ⟨t, code, -, hcode, hplaces⟩ := places_of_assemble h
  rw [hcode]
  exact hplaces.fits

/-- the words of an assembled program are read as its instructions -/
theorem Assembly.map_ofBinary? (h : assemble lines = .ok a) :
    a.binary.map Instruction.ofBinary? = (a.code.map (·.instruction)).map some := by
  rw [binary, List.map_map, List.map_map]
  exact List.map_congr_left fun p hp => Instruction.ofBinary?_binary (encodable h p hp)

end

/-- **Nothing is lost in the words of an assembled program**: each has sixteen binary digits and is
read as the instruction it was written from, so the words determine the instructions, and the texts
of the instructions are a program with the same words and without symbols. -/
theorem reassemble {lines : List String} {a : Assembly} (h : assemble lines = .ok a) :
    (∀ s ∈ a.binary, s.length = 16 ∧ ∀ c ∈ s.toList, c = '0' ∨ c = '1') ∧
    a.binary.map Instruction.ofBinary? = (a.code.map (·.instruction)).map some ∧
    (∀ lines' b, assemble lines' = .ok b → b.binary = a.binary →
      b.code.map (·.instruction) = a.code.map (·.instruction)) ∧
    ∃ b, assemble (a.code.map (·.instruction.text)) = .ok b ∧ b.binary = a.binary ∧
      b.table.entries = [] := by
  refine ⟨fun s hs => ?_, Assembly.map_ofBinary? h, fun lines' b hb hbinary => ?_, ?_⟩
  · obtain ⟨p, -, rfl⟩ := List.mem_map.mp hs
    exact ⟨length_binary _, fun c hc => isBitDigit_of_mem_binary hc⟩
  · have hwords := Assembly.map_ofBinary? hb
    rw [hbinary, Assembly.map_ofBinary? h] at hwords
    exact (List.map_inj_right fun _ _ => Option.some.inj).mp hwords.symm
  · have hencodable : ∀ i ∈ a.code.map (·.instruction), i.Encodable := by
      intro i hi
      obtain ⟨p, hp, rfl⟩ := List.mem_map.mp hi
      exact Assembly.encodable h p hp
    obtain ⟨b, hb, hentries, -, hbinary⟩ :=
      assemble_texts hencodable (by rw [List.length_map]; exact Assembly.length_code_le h)
    rw [List.map_map] at hb hbinary
    exact ⟨b, hb, hbinary, hentries⟩

theorem reassemble_countdown :
    ∃ a, assemble countdown = .ok a ∧
      a.binary.map Instruction.ofBinary? = (a.code.map (·.instruction)).map some ∧
      ∃ b, assemble (a.code.map (·.instruction.text)) = .ok b ∧ b.binary = a.binary ∧
        b.table.entries = [] := by
  obtain ⟨a, h⟩ : ∃ a, assemble countdown = .ok a := exists_of_isOk (by decide +kernel)
  obtain ⟨-, hread, -, hagain⟩ := reassemble h
  exact ⟨a, h, hread, hagain⟩

end HackAssembler
