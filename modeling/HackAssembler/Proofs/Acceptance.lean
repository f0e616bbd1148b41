import HackAssembler.Proofs.Encoding
import HackAssembler.Proofs.Verdict

/-!
# Acceptance: which programs are assembled, and to what

* `Surveyable`         what the first pass accepts;
* `Acceptable`, `exists_assemble_iff`   a program is assembled just when none of the three stages
                       finds a fault in it;
* `Assembled`, `assembled_of_assemble`   the table and the code, told from the lines;
* `Acceptable.of_append`, `Acceptable.append`   parts of acceptable programs.
-/

namespace HackAssembler

/-! ## what the first pass accepts -/

/-- a program without a fault of the first pass; the order of its lines shows in the addresses of
the labels only -/
structure Surveyable (lines : List String) : Prop where
  readable : ∀ raw ∈ lines, Readable raw
  nodup : (labelNames lines).Nodup
  own : ∀ name ∈ labelNames lines, predefined.lookup name = none
  room : ∀ l ∈ labels lines, l.2 ≤ 32767

/-- the name of a label is not defined above it -/
theorem not_mem_labelNames_take {lines : List String} (h : (labelNames lines).Nodup) {i : Nat}
    {raw name : String} (hraw : lines[i]? = some raw) (hl : definedLabel? raw = some name) :
    name ∉ labelNames (lines.take i) := by
  intro habove
  rw [← List.take_append_drop i lines, labelNames_append] at h
  refine (List.nodup_append.mp h).2.2 name habove name ?_ rfl
  refine List.mem_filterMap.mpr ⟨raw, List.mem_of_getElem? (i := 0) ?_, hl⟩
  rwa [List.getElem?_drop]

theorem Surveyable.faultless {lines : List String} (h : Surveyable lines) :
    Faultless surveyFault? lines := by
  intro i raw hraw
  have hread := h.readable raw (List.mem_of_getElem? hraw)
  obtain ⟨line, hline⟩ := hread.line
  unfold surveyFault?
  rw [hline]
  cases line with
  | blank => rfl
  | instruction text =>
    cases ho : operandText? text with
    | none => simp [ho]
    | some operand =>
      have ht : instructionText? raw = some text := instructionText?_eq_some_iff.mpr hline
      obtain ⟨o, hp⟩ := hread.operand text operand ht ho
      simp [ho, hp, faultOf?]
  | label name =>
    have hl : definedLabel? raw = some name := definedLabel?_eq_some_iff.mpr hline
    have hroom : instructionCount (lines.take i) ≤ 32767 :=
      h.room (name, _) (mem_labels.mpr ⟨i, raw, hraw, hl, rfl⟩)
    have hname : name ∈ labelNames lines :=
      List.mem_filterMap.mpr ⟨raw, List.mem_of_getElem? hraw, hl⟩
    have hnew := not_mem_labelNames_take h.nodup hraw hl
    show (if 32767 < instructionCount (lines.take i) then _ else _) = _
    rw [if_neg (Nat.not_lt.mpr hroom), if_pos (isFree_iff.mpr ⟨h.own name hname, hnew⟩)]

/-- the symbols that a program adds to its table -/
def symbolNames (lines : List String) : List String := labelNames lines ++ variableNames lines

section
variable {lines : List String} {t : SymbolTable}

theorem Surveyed.user_names (h : Surveyed lines t) : t.user.names = symbolNames lines := by
  rw [symbolNames, ← h.names_eq, SymbolTable.rows, List.map_map]
  rfl

theorem surveyable_of_survey (hn : instructionCount lines < UInt32.size)
    (h : survey lines = .ok t) : Surveyable lines := by
  have hs := surveyed_of_survey h
  refine ⟨hs.readable, ?_, fun name hname => ?_, fun l => hs.label_le hn⟩
  · have hnodup := t.user.nodup_names
    rw [hs.user_names] at hnodup
    exact (List.nodup_append.mp hnodup).1
  · apply t.lookup_predefined name
    rw [hs.user_names]
    exact List.mem_append_left _ hname

end

/-! ## acceptable programs -/

/-- a program without a fault: its lines can be surveyed, its variables have cells, and its
instructions can be encoded -/
structure Acceptable (lines : List String) : Prop where
  surveyable : Surveyable lines
  variables_le : (variableNames lines).length ≤ 32752
  encoded : Faultless textFault? (instructionTexts lines)

/-- an instruction beyond the end of the memory is a fault -/
theorem length_le_of_faultless {texts : List String} (h : Faultless textFault? texts) :
    texts.length ≤ 32768 := by
  by_contra hlong
  have hk : 32768 < texts.length := Nat.lt_of_not_le hlong
  have hfree := h 32768 _ (List.getElem?_eq_getElem hk)
  rw [textFault?, List.length_take_of_le (Nat.le_of_lt hk)] at hfree
  cases hfree

section
variable {lines : List String} {t : SymbolTable} {a : Assembly}

theorem Acceptable.instructionCount_le (h : Acceptable lines) : instructionCount lines ≤ 32768 := by
  rw [← length_instructionTexts]
  exact length_le_of_faultless h.encoded

theorem assemble_eq_ok_iff :
    assemble lines = .ok a ↔
      survey lines = .ok a.table ∧ Assembly.generate a.table lines = .ok a := by
  constructor
  · intro h
    unfold assemble at h
    split at h
    · cases h
    · next t ht =>
      obtain ⟨rfl, -⟩ := Assembly.places_of_generate h
      exact ⟨ht, h⟩
  · rintro ⟨hs, hg⟩
    rw [assemble_of_survey hs, hg]

theorem exists_assemble_iff : (∃ a, assemble lines = .ok a) ↔ Acceptable lines := by
  constructor
  · rintro ⟨a, h⟩
    obtain ⟨hs, hg⟩ := assemble_eq_ok_iff.mp h
    have htable := surveyed_of_survey hs
    have htexts := htable.exists_generate_iff.mp ⟨a, hg⟩
    -- all instructions have a place, so the first pass has counted them without overflow
    have hcount := length_le_of_faultless htexts
    rw [length_instructionTexts] at hcount
    have hn : instructionCount lines < UInt32.size := Nat.lt_of_le_of_lt hcount (by decide)
    exact ⟨surveyable_of_survey hn hs, htable.variables_le, htexts⟩
  · intro h
    have hn : instructionCount lines < UInt32.size :=
      Nat.lt_of_le_of_lt h.instructionCount_le (by decide)
    obtain ⟨t, ht⟩ := survey_of_faultless hn h.surveyable.faultless h.variables_le
    obtain ⟨a, ha⟩ := (surveyed_of_survey ht).exists_generate_iff.mpr h.encoded
    exact ⟨a, (assemble_of_survey ht).trans ha⟩

end

/-! ## what an assembly holds -/

/-- the assembly of the program `lines`, told from the lines -/
structure Assembled (lines : List String) (a : Assembly) : Prop where
  table : Surveyed lines a.table
  count_le : instructionCount lines ≤ 32768
  length_code : a.code.length = instructionCount lines
  code : ∀ (k : Nat) (x : Placed), a.code[k]? = some x ↔
    ∃ text, (instructionLines lines)[k]? = some (x.line, text) ∧ x.address = .ofNat k ∧
      Instruction.parse a.table text = .ok x.instruction

theorem assembled_of_assemble {lines : List String} {a : Assembly} (h : assemble lines = .ok a) :
    Assembled lines a := by
  obtain ⟨hs, hg⟩ := assemble_eq_ok_iff.mp h
  obtain ⟨-, code, hcode, hplaces⟩ := Assembly.places_of_generate hg
  have hsize := hplaces.size
  refine ⟨surveyed_of_survey hs, hsize ▸ hplaces.fits, ?_, fun k x => ?_⟩
  · rw [hcode, Array.length_toList, hsize]
  · rw [hcode, Array.getElem?_toList]
    exact hplaces.getElem?_eq_some_iff

namespace Assembled

variable {lines : List String} {a : Assembly}

theorem count_lt (h : Assembled lines a) : instructionCount lines < UInt32.size :=
  Nat.lt_of_le_of_lt h.count_le (by decide)

/-- the instruction of a place is read off a line of the program -/
theorem exists_line (h : Assembled lines a) {k : Nat} {x : Placed} (hx : a.code[k]? = some x) :
    ∃ raw text, lines[x.line]? = some raw ∧ instructionText? raw = some text ∧
      Instruction.parse a.table text = .ok x.instruction := by
  obtain ⟨text, hl, -, hparse⟩ := (h.code k x).mp hx
  obtain ⟨raw, hraw, ht, -⟩ := getElem?_instructionLines.mp hl
  exact ⟨raw, text, hraw, ht, hparse⟩

theorem encodable (h : Assembled lines a) {k : Nat} {x : Placed} (hx : a.code[k]? = some x) :
    x.instruction.Encodable := by
  obtain ⟨raw, text, -, -, hparse⟩ := h.exists_line hx
  exact Instruction.encodable_of_parse hparse

end Assembled

/-! ## parts of a program -/

/-- no label of `ys` has a name that `xs` mentions and does not define -/
def Undisturbed (xs ys : List String) : Prop :=
  ∀ name ∈ mentionedNames xs, name ∈ labelNames ys → name ∈ labelNames xs

section
variable {xs ys : List String}

/-- a mentioned symbol stands for a data cell, unless it is predefined or a label -/
theorem mem_variableNames {name : String} :
    name ∈ variableNames xs ↔
      name ∈ mentionedNames xs ∧ predefined.lookup name = none ∧ name ∉ labelNames xs := by
  rw [variableNames, List.mem_filter, isFree_iff]

/-- labels that the first part does not need leave its variables alone -/
theorem filter_isFree_append (h : Undisturbed xs ys) :
    (mentionedNames xs).filter (isFree (xs ++ ys)) = variableNames xs := by
  refine List.filter_congr fun name hm => Bool.eq_iff_iff.mpr ?_
  rw [isFree_append_iff, isFree_iff]
  constructor
  · rintro ⟨hfree, -⟩
    exact hfree
  · intro hfree
    exact ⟨hfree, fun hy => hfree.2 (h name hm hy)⟩

theorem variableNames_isPrefix (h : Undisturbed xs ys) :
    variableNames xs <+: variableNames (xs ++ ys) := by
  rw [variableNames, variableNames, mentionedNames_append, List.filter_append,
    filter_isFree_append h]
  exact List.prefix_append _ _

theorem undisturbed_of_disjoint (h : (symbolNames xs).Disjoint (symbolNames ys))
    (hp : ∀ name ∈ labelNames ys, predefined.lookup name = none) : Undisturbed xs ys := by
  intro name hm hy
  by_contra hx
  have hv : name ∈ variableNames xs := mem_variableNames.mpr ⟨hm, hp name hy, hx⟩
  exact h (List.mem_append_right _ hv) (List.mem_append_left _ hy)

/-- two programs without a common symbol have the variables of both -/
theorem variableNames_append (h : (symbolNames xs).Disjoint (symbolNames ys))
    (hp : ∀ name ∈ labelNames ys, predefined.lookup name = none) :
    variableNames (xs ++ ys) = variableNames xs ++ variableNames ys := by
  have hys : ∀ name ∈ variableNames ys, name ∉ labelNames xs ∧ name ∉ mentionedNames xs := by
    intro name hv
    have hx : name ∉ labelNames xs := fun hx =>
      h (List.mem_append_left _ hx) (List.mem_append_right _ hv)
    refine ⟨hx, fun hm => ?_⟩
    have hvx : name ∈ variableNames xs :=
      mem_variableNames.mpr ⟨hm, (mem_variableNames.mp hv).2.1, hx⟩
    exact h (List.mem_append_right _ hvx) (List.mem_append_right _ hv)
  -- what is left of the second program are its free names, which the first one does not mention
  rw [variableNames, mentionedNames_append, List.filter_append,
    filter_isFree_append (undisturbed_of_disjoint h hp), List.filter_filter]
  congr 1
  refine List.filter_congr fun name hm => Bool.eq_iff_iff.mpr ?_
  rw [Bool.and_eq_true, decide_eq_true_iff, isFree_append_iff, isFree_iff, isFree_iff]
  constructor
  · rintro ⟨⟨⟨hnone, -⟩, hy⟩, -⟩
    exact ⟨hnone, hy⟩
  · intro hfree
    obtain ⟨hx, hmx⟩ := hys name (mem_variableNames.mpr ⟨hm, hfree⟩)
    exact ⟨⟨⟨hfree.1, hx⟩, hfree.2⟩, hmx⟩

theorem textFault?_append (h : xs.length + ys.length ≤ 32767) (text : String) :
    textFault? (xs ++ ys) text = textFault? ys text := by
  unfold textFault?
  rw [List.length_append, if_pos h, if_pos (by omega)]

theorem Surveyable.of_append (h : Surveyable (xs ++ ys)) : Surveyable xs := by
  obtain ⟨hreadable, hnodup, hown, hroom⟩ := h
  rw [labelNames_append] at hnodup hown
  rw [labels_append] at hroom
  refine ⟨?_, (List.nodup_append.mp hnodup).1, ?_, ?_⟩
  · exact (List.forall_mem_append.mp hreadable).1
  · exact (List.forall_mem_append.mp hown).1
  · exact (List.forall_mem_append.mp hroom).1

theorem Surveyable.append (hx : Surveyable xs) (hy : Surveyable ys)
    (hapart : (labelNames xs).Disjoint (labelNames ys))
    (hcount : instructionCount xs + instructionCount ys ≤ 32767) : Surveyable (xs ++ ys) := by
  refine ⟨List.forall_mem_append.mpr ⟨hx.readable, hy.readable⟩, ?_, ?_, ?_⟩
  · rw [labelNames_append]
    refine List.nodup_append.mpr ⟨hx.nodup, hy.nodup, fun a ha b hb e => ?_⟩
    exact hapart ha (e ▸ hb)
  · rw [labelNames_append]
    exact List.forall_mem_append.mpr ⟨hx.own, hy.own⟩
  · rw [labels_append]
    refine List.forall_mem_append.mpr ⟨hx.room, fun l hl => ?_⟩
    obtain ⟨l', hl', rfl⟩ := List.mem_map.mp hl
    have hle := label_le_instructionCount hl'
    show l'.2 + instructionCount xs ≤ 32767
    omega

namespace Acceptable

/-- the first part of an acceptable program is one, if it uses no label of the second part -/
theorem of_append (h : Acceptable (xs ++ ys)) (hxs : Undisturbed xs ys) : Acceptable xs := by
  refine ⟨h.surveyable.of_append, ?_, ?_⟩
  · exact Nat.le_trans (variableNames_isPrefix hxs).length_le h.variables_le
  · have htexts := h.encoded
    rw [instructionTexts_append] at htexts
    exact htexts.of_append

theorem append (hx : Acceptable xs) (hy : Acceptable ys)
    (hapart : (symbolNames xs).Disjoint (symbolNames ys))
    (hcount : instructionCount xs + instructionCount ys ≤ 32767)
    (hvars : (variableNames xs).length + (variableNames ys).length ≤ 32752) :
    Acceptable (xs ++ ys) := by
  have hlabels : (labelNames xs).Disjoint (labelNames ys) := fun name hxl hyl =>
    hapart (List.mem_append_left _ hxl) (List.mem_append_left _ hyl)
  refine ⟨hx.surveyable.append hy.surveyable hlabels hcount, ?_, ?_⟩
  · rwa [variableNames_append hapart hy.surveyable.own, List.length_append]
  · rw [instructionTexts_append]
    refine hx.encoded.append fun k text htext => ?_
    have hk : k < (instructionTexts ys).length := (List.getElem?_eq_some_iff.mp htext).1
    have hfits : (instructionTexts xs).length + ((instructionTexts ys).take k).length ≤ 32767 := by
      rw [List.length_take_of_le (Nat.le_of_lt hk)]
      rw [length_instructionTexts] at hk ⊢
      omega
    rw [textFault?_append hfits]
    exact hy.encoded k text htext

end Acceptable

end

end HackAssembler
