import HackAssembler.Proofs.Operands

/-!
# The first pass: what a survey knows of the lines it has walked

* `surveyFault?`       what the first pass finds wrong with a line;
* `Survey.Describes`   the state after some lines, told from the lines alone;
* `Survey.keeps`, `Survey.agrees`   one step keeps the description, and fails as `surveyFault?` says.

The number of instructions is counted modulo `2 ^ 32`, so the agreement is stated for programs of
fewer instruction lines; the description holds for any program.
-/

namespace HackAssembler

/-- what the first pass finds wrong with a line -/
def surveyFault? : Judgement := fun above raw =>
  match Line.parse raw with
  | .error _ => some ⟨.malformedLabel, codeOf raw⟩
  | .ok .blank => none
  | .ok (.label name) =>
    if maxAddress.toNat < instructionCount above then
      some ⟨.outOfRange, name⟩
    else if isFree above name then
      none
    else
      some ⟨.redefinedLabel, name⟩
  | .ok (.instruction text) =>
    (operandText? text).bind fun operand => faultOf? (Operand.parse operand)

/-- a line that the first pass can read, whatever stands above it -/
structure Readable (raw : String) : Prop where
  line : ∃ line, Line.parse raw = .ok line
  operand : ∀ text operand, instructionText? raw = some text → operandText? text = some operand →
    ∃ o, Operand.parse operand = .ok o

/-- the state of the first pass after `lines` -/
structure Survey.Describes (lines : List String) (s : Survey) : Prop where
  count : s.count = .ofNat (instructionCount lines)
  entries : s.table.entries = (labels lines).map fun l => (l.1, ⟨.label, .ofNat l.2⟩)
  labels_le : ∀ l ∈ labels lines, l.2 % UInt32.size ≤ maxAddress.toNat
  nextVariable : s.table.nextVariable = firstVariable
  mentions : s.mentions.toList = firstMentions lines
  readable : ∀ raw ∈ lines, Readable raw

/-! ## readable lines -/

section
variable {raw name text : String}

theorem Readable.of_label (h : Line.parse raw = .ok (.label name)) : Readable raw := by
  refine ⟨⟨_, h⟩, fun text operand ht _ => ?_⟩
  rw [instructionText?_of_label h] at ht
  cases ht

theorem Readable.of_mention? {m : Option String} (h : instructionText? raw = some text)
    (hm : mention? text = .ok m) : Readable raw := by
  refine ⟨⟨_, instructionText?_eq_some_iff.mp h⟩, fun text' operand ht ho => ?_⟩
  cases h.symm.trans ht
  have hf := faultOf?_mention? text
  rw [hm, ho] at hf
  exact faultOf?_eq_none_iff.mp hf.symm

end

/-! ## tables and directories of a description -/

namespace Survey

section
variable {lines : List String} {s : Survey}

theorem Describes.contains_eq (h : Describes lines s) (name : String) :
    s.table.contains name = !isFree lines name := by
  have hnames : s.table.user.names = labelNames lines := by
    show s.table.entries.map (·.1) = _
    rw [h.entries, List.map_map, ← map_fst_labels]
    rfl
  apply Bool.eq_iff_iff.mpr
  rw [SymbolTable.contains_iff, hnames, Bool.not_eq_true', ← Bool.not_eq_true, isFree_iff]
  cases predefined.lookup name <;> simp

theorem Describes.mentions_contains_iff (h : Describes lines s) {name : String} :
    s.mentions.contains name ↔ name ∈ mentionedNames lines := by
  rw [Directory.contains_iff_mem, Directory.names, h.mentions, firstMentions, List.map_map]
  simp

end

theorem describes_empty : Describes [] empty where
  count := rfl
  entries := rfl
  labels_le := fun _ h => nomatch h
  nextVariable := rfl
  mentions := rfl
  readable := fun _ h => nomatch h

/-! ## one line -/

theorem addLabel_eq_ok {name : String} {s s' : Survey} (h : s.addLabel name = .ok s') :
    s.count ≤ maxAddress.toUInt32 ∧ s'.mentions = s.mentions ∧ s'.count = s.count ∧
      s'.table.entries = s.table.entries ++ [(name, ⟨.label, s.count.toUInt16⟩)] ∧
      s'.table.nextVariable = s.table.nextVariable := by
  obtain ⟨table, mentions, count⟩ := s
  rw [addLabel] at h
  split at h
  · next hc =>
    by_cases hb : table.contains name
    · rw [SymbolTable.add_of_contains hb] at h
      cases h
    · obtain ⟨t, ht, he, hv⟩ := SymbolTable.add_of_not_contains hb ⟨.label, count.toUInt16⟩
      rw [ht] at h
      cases h
      exact ⟨hc, rfl, rfl, he, hv⟩
  · cases h

theorem addInstruction_eq_ok {line : Nat} {text : String} {s s' : Survey}
    (h : s.addInstruction line text = .ok s') :
    ∃ m, mention? text = .ok m ∧ s'.table = s.table ∧ s'.count = s.count + 1 ∧
      s'.mentions = m.elim s.mentions fun name => s.mentions.insertIfNew name line := by
  obtain ⟨table, mentions, count⟩ := s
  rw [addInstruction] at h
  split at h
  · cases h
  · next hm =>
    cases h
    exact ⟨none, hm, rfl, rfl, rfl⟩
  · next name hm =>
    cases h
    exact ⟨some name, hm, rfl, rfl, rfl⟩

section
variable {xs : List String} {x : String} {s s' : Survey}

theorem Describes.blank (h : Describes xs s) (hx : Line.parse x = .ok .blank) :
    Describes (xs ++ [x]) s := by
  have hi := instructionText?_of_blank hx
  have hl : definedLabel? x = none := by rw [definedLabel?, hx]
  have hm : mentionedSymbol? x = none := by rw [mentionedSymbol?, hi, Option.bind_none]
  have hlabels : labels (xs ++ [x]) = labels xs := by rw [labels_concat, hl]; simp
  refine ⟨?_, ?_, ?_, h.nextVariable, ?_, ?_⟩
  · rw [h.count, instructionCount_concat, hi]
    rfl
  · rw [hlabels, h.entries]
  · rw [hlabels]
    exact h.labels_le
  · rw [h.mentions, firstMentions_concat_none xs hm]
  · rw [List.forall_mem_append, List.forall_mem_singleton]
    refine ⟨h.readable, ⟨_, hx⟩, fun text operand ht => ?_⟩
    rw [hi] at ht
    cases ht

theorem Describes.label (h : Describes xs s) {name : String}
    (hx : Line.parse x = .ok (.label name)) (hs : s.addLabel name = .ok s') :
    Describes (xs ++ [x]) s' := by
  obtain ⟨hle, hmentions, hcount, hentries, hnext⟩ := addLabel_eq_ok hs
  have hi := instructionText?_of_label hx
  have hlabels : labels (xs ++ [x]) = labels xs ++ [(name, instructionCount xs)] := by
    rw [labels_concat, definedLabel?_eq_some_iff.mpr hx]
    rfl
  refine ⟨?_, ?_, ?_, hnext.trans h.nextVariable, ?_, ?_⟩
  · rw [hcount, h.count, instructionCount_concat, hi]
    rfl
  · rw [hentries, hlabels, List.map_append, h.entries, h.count, UInt32.toUInt16_ofNat',
      List.map_singleton]
  · rw [hlabels, List.forall_mem_append, List.forall_mem_singleton]
    refine ⟨h.labels_le, ?_⟩
    have hle := UInt32.le_iff_toNat_le.mp hle
    rwa [h.count, UInt32.toNat_ofNat'] at hle
  · rw [hmentions, h.mentions, firstMentions_concat_none xs (mentionedSymbol?_of_label hx)]
  · rw [List.forall_mem_append, List.forall_mem_singleton]
    exact ⟨h.readable, .of_label hx⟩

theorem Describes.instruction (h : Describes xs s) {text : String}
    (hx : instructionText? x = some text) (hs : s.addInstruction xs.length text = .ok s') :
    Describes (xs ++ [x]) s' := by
  obtain ⟨m, hm, htable, hcount, hmentions⟩ := addInstruction_eq_ok hs
  have hmx : mentionedSymbol? x = m := by
    rw [mentionedSymbol?, hx, Option.bind_some, mention?_eq_ok hm]
  have hlabels : labels (xs ++ [x]) = labels xs := by
    rw [labels_concat, definedLabel?_of_instruction hx]
    simp
  refine ⟨?_, ?_, ?_, ?_, ?_, ?_⟩
  · rw [hcount, h.count, instructionCount_concat, hx]
    exact (UInt32.ofNat_add _ _).symm
  · rw [htable, hlabels, h.entries]
  · rw [hlabels]
    exact h.labels_le
  · rw [htable, h.nextVariable]
  · cases m with
    | none => rw [hmentions, Option.elim_none, h.mentions, firstMentions_concat_none xs hmx]
    | some name =>
      rw [hmentions, Option.elim_some, Directory.toList_insertIfNew, h.mentions,
        firstMentions_concat_some xs hmx]
      simp only [h.mentions_contains_iff]
  · rw [List.forall_mem_append, List.forall_mem_singleton]
    exact ⟨h.readable, .of_mention? hx hm⟩

/-- a step on any line keeps the description -/
theorem keeps : Keeps step Describes := by
  intro xs x s s' h hs
  unfold readLine at hs
  cases hx : Line.parse x with
  | error f =>
    rw [hx] at hs
    cases hs
  | ok line =>
    rw [hx] at hs
    cases line with
    | blank =>
      cases hs
      exact h.blank hx
    | label name => exact h.label hx hs
    | instruction text => exact h.instruction (instructionText?_eq_some_iff.mpr hx) hs

end

/-! ## faults of one line -/

theorem faultOf?_addLabel (s : Survey) (name : String) :
    faultOf? (s.addLabel name) =
      if maxAddress.toNat < s.count.toNat then some ⟨.outOfRange, name⟩
      else if s.table.contains name then some ⟨.redefinedLabel, name⟩
      else none := by
  obtain ⟨table, mentions, count⟩ := s
  have hle : count ≤ maxAddress.toUInt32 ↔ ¬ maxAddress.toNat < count.toNat := by
    rw [UInt32.le_iff_toNat_le, Nat.not_lt]
    rfl
  rw [addLabel]
  by_cases hc : maxAddress.toNat < count.toNat
  · rw [if_neg (mt hle.mp (not_not_intro hc)), if_pos hc]
    rfl
  · rw [if_pos (hle.mpr hc), if_neg hc]
    by_cases hb : table.contains name
    · rw [SymbolTable.add_of_contains hb, if_pos hb]
      rfl
    · obtain ⟨t, ht, -⟩ := SymbolTable.add_of_not_contains hb ⟨.label, count.toUInt16⟩
      rw [ht, if_neg hb]
      rfl

theorem faultOf?_addInstruction (s : Survey) (line : Nat) (text : String) :
    faultOf? (s.addInstruction line text) = faultOf? (mention? text) := by
  obtain ⟨table, mentions, count⟩ := s
  rw [addInstruction]
  cases mention? text with
  | error f => rfl
  | ok m => cases m <;> rfl

/-- a step fails as `surveyFault?` says, as long as the count of instructions is exact -/
theorem agrees {lines : List String} (hn : instructionCount lines < UInt32.size) :
    Agrees step Describes surveyFault? lines := by
  intro xs x s hp h
  have hcount : s.count.toNat = instructionCount xs := by
    have hxs : instructionCount xs ≤ instructionCount lines :=
      instructionCount_mono ((List.prefix_append xs [x]).trans hp)
    rw [h.count]
    exact UInt32.toNat_ofNat_of_lt' (Nat.lt_of_le_of_lt hxs hn)
  unfold readLine surveyFault?
  cases hx : Line.parse x with
  | error f => exact congrArg some (Line.parse_eq_error hx)
  | ok line =>
    cases line with
    | blank => rfl
    | label name =>
      show faultOf? (s.addLabel name) = _
      rw [faultOf?_addLabel, hcount, h.contains_eq]
      by_cases hfree : isFree xs name <;> simp [hfree]
    | instruction text =>
      show faultOf? (s.addInstruction xs.length text) = _
      rw [faultOf?_addInstruction, faultOf?_mention?]

end Survey

end HackAssembler
