import HackAssembler.Proofs.Displacement
import Mathlib.Data.List.Perm.Basic
import Mathlib.Logic.Relation

/-!
# References: only the position of used labels counts

A program is assembled from the texts of its instructions and the addresses of the labels that they
mention.  Where a label line stands between two instructions does not matter, nor do labels that no
instruction mentions.

* `SameReferences`            two programs with the same texts and the same mentioned labels;
* `SameReferences.code`, `SameReferences.generate_error`   both have the same code, or fail alike;
* `LabelEdit`                 label lines that move between two instructions, come or go;
* `LabelEdit.sameReferences`, `LabelEdit.acceptable`   such an edit changes nothing of this;
* `assemble_same_references`   the theorem for both.
-/

namespace HackAssembler

/-- two programs with the same instruction texts, in which a mentioned name is the same label -/
structure SameReferences (p q : List String) : Prop where
  texts : instructionTexts q = instructionTexts p
  label : ∀ name ∈ mentionedNames p, ∀ k, (name, k) ∈ labels q ↔ (name, k) ∈ labels p

theorem mem_labelNames_iff {lines : List String} {name : String} :
    name ∈ labelNames lines ↔ ∃ k, (name, k) ∈ labels lines := by
  rw [← map_fst_labels]
  simp

namespace SameReferences

variable {p q r : List String}

theorem refl (p : List String) : SameReferences p p := ⟨rfl, fun _ _ _ => Iff.rfl⟩

theorem mentionedNames_eq (h : SameReferences p q) : mentionedNames q = mentionedNames p := by
  rw [mentionedNames, mentionedNames, filterMap_mentionedSymbol?, filterMap_mentionedSymbol?,
    h.texts]

theorem symm (h : SameReferences p q) : SameReferences q p := by
  refine ⟨h.texts.symm, fun name hm k => ?_⟩
  rw [h.mentionedNames_eq] at hm
  exact (h.label name hm k).symm

theorem trans (h : SameReferences p q) (h' : SameReferences q r) : SameReferences p r := by
  refine ⟨h'.texts.trans h.texts, fun name hm k => ?_⟩
  rw [h'.label name (h.mentionedNames_eq ▸ hm), h.label name hm]

theorem variableNames_eq (h : SameReferences p q) : variableNames q = variableNames p := by
  rw [variableNames, variableNames, h.mentionedNames_eq]
  refine List.filter_congr fun name hm => Bool.eq_iff_iff.mpr ?_
  rw [isFree_iff, isFree_iff, mem_labelNames_iff, mem_labelNames_iff]
  simp only [h.label name hm]

/-- a mentioned name means the same in both programs -/
theorem carried (h : SameReferences p q) {name : String} (hm : name ∈ mentionedNames p) :
    Carried .zero p q name := by
  refine ⟨fun k hk => (h.label name hm k).mpr hk, fun j hj => ?_⟩
  rw [h.variableNames_eq]
  exact hj

/-- an instruction of one program stands somewhere in the other one -/
theorem exists_line (h : SameReferences p q) {k i : Nat} {text : String}
    (hl : (instructionLines p)[k]? = some (i, text)) :
    ∃ j, (instructionLines q)[k]? = some (j, text) := by
  apply exists_line_of_text
  rw [h.texts]
  exact getElem?_instructionTexts hl

/-! ### the second pass -/

theorem instruction_eq (h : SameReferences p q) {a b : Assembly} (ha : Assembled p a)
    (hb : Assembled q b) {k : Nat} {x : Placed} (hx : a.code[k]? = some x) :
    ∃ i, b.code[k]? = some { x with line := i } := by
  obtain ⟨text, hl, -⟩ := (ha.code k x).mp hx
  obtain ⟨i, hi⟩ := h.exists_line hl
  have hline : ∀ text', (instructionLines p)[k]? = some (x.line, text') →
      (instructionLines q)[k]? = some (i, text') := by
    intro text' hl'
    rw [hl] at hl'
    cases hl'
    exact hi
  have hplace := ha.code_carried (o := .zero) hb (fun name hm => h.carried hm) hx hline
  rw [Placed.displaced_zero] at hplace
  exact ⟨i, hplace⟩

theorem code (h : SameReferences p q) {a b : Assembly} (ha : Assembled p a) (hb : Assembled q b) :
    b.code.map (fun x => (x.address, x.instruction)) =
      a.code.map fun x => (x.address, x.instruction) := by
  have hlength : b.code.length = a.code.length := by
    rw [hb.length_code, ha.length_code, ← length_instructionTexts, h.texts, length_instructionTexts]
  refine List.ext_getElem? fun k => ?_
  rw [List.getElem?_map, List.getElem?_map]
  cases hx : a.code[k]? with
  | none =>
    have hout : a.code.length ≤ k := List.getElem?_eq_none_iff.mp hx
    rw [List.getElem?_eq_none (hlength ▸ hout)]
  | some x =>
    obtain ⟨i, hi⟩ := h.instruction_eq ha hb hx
    rw [hi]
    rfl

theorem generate_ok_iff (h : SameReferences p q) {s t : SymbolTable} (hs : Surveyed p s)
    (ht : Surveyed q t) :
    (∃ b, Assembly.generate t q = .ok b) ↔ ∃ a, Assembly.generate s p = .ok a := by
  rw [ht.exists_generate_iff, hs.exists_generate_iff, h.texts]

theorem generate_error (h : SameReferences p q) {s t : SymbolTable} (hs : Surveyed p s)
    (ht : Surveyed q t) {x : LocatedFault} (hx : Assembly.generate s p = .error x) :
    ∃ (k i : Nat) (text : String), Assembly.generate t q = .error ⟨i, x.fault⟩ ∧
      (instructionLines p)[k]? = some (x.line, text) ∧
      (instructionLines q)[k]? = some (i, text) := by
  obtain ⟨k, text, hl, hf⟩ := hs.generate_eq_error_iff_text.mp hx
  obtain ⟨i, hi⟩ := h.exists_line hl
  refine ⟨k, i, text, ht.generate_eq_error_iff_text.mpr ⟨k, text, hi, ?_⟩, hl, hi⟩
  rw [h.texts]
  exact hf

end SameReferences

/-! ## edits of label lines -/

inductive LabelEdit : List String → List String → Prop
  /-- two lines that are no instructions change places -/
  | swap (xs ys : List String) {x y : String} (hx : instructionText? x = none)
      (hy : instructionText? y = none) : LabelEdit (xs ++ x :: y :: ys) (xs ++ y :: x :: ys)
  /-- a new label that no instruction mentions, where an instruction could stand -/
  | add (xs ys : List String) {x name : String} (hx : definedLabel? x = some name)
      (hm : name ∉ mentionedNames (xs ++ ys)) (hfree : isFree (xs ++ ys) name)
      (hroom : instructionCount xs ≤ 32767) : LabelEdit (xs ++ ys) (xs ++ x :: ys)
  /-- a label that no instruction mentions is left out -/
  | remove (xs ys : List String) {x name : String} (hx : definedLabel? x = some name)
      (hm : name ∉ mentionedNames (xs ++ ys)) : LabelEdit (xs ++ x :: ys) (xs ++ ys)

section
variable {xs ys : List String} {x y name : String}

theorem instructionText?_of_definedLabel? (h : definedLabel? x = some name) :
    instructionText? x = none :=
  instructionText?_of_label (definedLabel?_eq_some_iff.mp h)

theorem instructionTexts_insert (xs ys : List String) (hx : instructionText? x = none) :
    instructionTexts (xs ++ x :: ys) = instructionTexts (xs ++ ys) := by
  simp [instructionTexts, hx]

/-- a line that is no instruction does not move the labels below it -/
theorem labels_insert (xs ys : List String) (hx : instructionText? x = none) :
    labels (xs ++ x :: ys) =
      labels xs ++ (((definedLabel? x).map fun name => (name, instructionCount xs)).toList ++
        (labels ys).map fun l => (l.1, l.2 + instructionCount xs)) := by
  have hcount : instructionCount [x] = 0 := by simp [instructionCount, hx]
  rw [← List.singleton_append, ← List.append_assoc, labels_append, labels_concat,
    instructionCount_append, hcount, Nat.add_zero, List.append_assoc]

theorem labels_swap (xs ys : List String) (hx : instructionText? x = none)
    (hy : instructionText? y = none) :
    (labels (xs ++ y :: x :: ys)).Perm (labels (xs ++ x :: y :: ys)) := by
  have hpair : ∀ {x y : String}, instructionText? x = none → instructionText? y = none →
      labels (xs ++ x :: y :: ys) = labels xs ++
        (((definedLabel? x).map fun name => (name, instructionCount xs)).toList ++
          (((definedLabel? y).map fun name => (name, instructionCount xs)).toList ++
            (labels ys).map fun l => (l.1, l.2 + instructionCount xs))) := by
    intro x y hx hy
    have hcount : instructionCount (xs ++ [x]) = instructionCount xs := by
      rw [instructionCount_concat, hx]
      rfl
    rw [List.append_cons, labels_insert _ _ hy, labels_concat, hcount, List.append_assoc]
  rw [hpair hx hy, hpair hy hx]
  exact (List.perm_append_comm_assoc ..).append_left _

theorem labels_insert_perm (xs ys : List String) (hx : definedLabel? x = some name) :
    (labels (xs ++ x :: ys)).Perm ((name, instructionCount xs) :: labels (xs ++ ys)) := by
  rw [labels_insert _ _ (instructionText?_of_definedLabel? hx), labels_append, hx]
  exact List.perm_middle

/-! ### the first pass -/

theorem Surveyable.of_perm {p q : List String} (h : Surveyable p) (hlines : ∀ raw ∈ q, raw ∈ p)
    (hlabels : (labels q).Perm (labels p)) : Surveyable q := by
  refine ⟨fun raw hraw => h.readable raw (hlines raw hraw), ?_, fun name hname => ?_,
    fun l hl => h.room l (hlabels.mem_iff.mp hl)⟩
  · have hnodup := h.nodup
    rw [← map_fst_labels] at hnodup ⊢
    exact (hlabels.map _).nodup_iff.mpr hnodup
  · obtain ⟨k, hk⟩ := mem_labelNames_iff.mp hname
    exact h.own name (mem_labelNames_iff.mpr ⟨k, hlabels.mem_iff.mp hk⟩)

theorem surveyable_insert_iff (hx : definedLabel? x = some name) :
    Surveyable (xs ++ x :: ys) ↔
      Surveyable (xs ++ ys) ∧ isFree (xs ++ ys) name ∧ instructionCount xs ≤ 32767 := by
  have hlabels := labels_insert_perm xs ys hx
  have hnames : (labelNames (xs ++ x :: ys)).Perm (name :: labelNames (xs ++ ys)) := by
    rw [← map_fst_labels, ← map_fst_labels]
    exact hlabels.map _
  have hlines : ∀ {P : String → Prop},
      (∀ raw ∈ xs ++ x :: ys, P raw) ↔ P x ∧ ∀ raw ∈ xs ++ ys, P raw := by
    intro P
    rw [← List.forall_mem_cons]
    simp only [List.perm_middle.mem_iff]
  constructor
  · intro h
    obtain ⟨hnew, hnodup⟩ := List.nodup_cons.mp (hnames.nodup_iff.mp h.nodup)
    have hown : ∀ other ∈ name :: labelNames (xs ++ ys), predefined.lookup other = none :=
      fun other hother => h.own other (hnames.mem_iff.mpr hother)
    have hroom : ∀ l ∈ (name, instructionCount xs) :: labels (xs ++ ys), l.2 ≤ 32767 :=
      fun l hl => h.room l (hlabels.mem_iff.mpr hl)
    rw [List.forall_mem_cons] at hown hroom
    exact ⟨⟨(hlines.mp h.readable).2, hnodup, hown.2, hroom.2⟩, isFree_iff.mpr ⟨hown.1, hnew⟩,
      hroom.1⟩
  · rintro ⟨h, hfree, hcount⟩
    obtain ⟨hnone, hnew⟩ := isFree_iff.mp hfree
    refine ⟨hlines.mpr ⟨.of_label (definedLabel?_eq_some_iff.mp hx), h.readable⟩, ?_, ?_, ?_⟩
    · exact hnames.nodup_iff.mpr (List.nodup_cons.mpr ⟨hnew, h.nodup⟩)
    · intro other hother
      rcases List.mem_cons.mp (hnames.mem_iff.mp hother) with rfl | hold
      · exact hnone
      · exact h.own other hold
    · intro l hl
      rcases List.mem_cons.mp (hlabels.mem_iff.mp hl) with rfl | hold
      · exact hcount
      · exact h.room l hold

end

/-! ### one edit -/

namespace LabelEdit

variable {p q : List String}

theorem sameReferences (e : LabelEdit p q) : SameReferences p q := by
  have hinsert : ∀ (xs ys : List String) {x name : String}, definedLabel? x = some name →
      name ∉ mentionedNames (xs ++ ys) → SameReferences (xs ++ ys) (xs ++ x :: ys) := by
    intro xs ys x name hx hm
    have hnone := instructionText?_of_definedLabel? hx
    refine ⟨instructionTexts_insert xs ys hnone, fun other ho k => ?_⟩
    rw [(labels_insert_perm xs ys hx).mem_iff, List.mem_cons, or_iff_right]
    intro hsame
    cases hsame
    exact hm ho
  cases e with
  | swap xs ys hx hy =>
    refine ⟨?_, fun name _ k => (labels_swap xs ys hx hy).mem_iff⟩
    simp [instructionTexts, hx, hy]
  | add xs ys hx hm hfree hroom => exact hinsert xs ys hx hm
  | remove xs ys hx hm => exact (hinsert xs ys hx hm).symm

theorem surveyable (e : LabelEdit p q) (h : Surveyable p) : Surveyable q := by
  cases e with
  | swap xs ys hx hy =>
    refine h.of_perm (fun raw hraw => ?_) (labels_swap xs ys hx hy)
    exact ((List.Perm.swap ..).append_left xs).mem_iff.mp hraw
  | add xs ys hx hm hfree hroom => exact (surveyable_insert_iff hx).mpr ⟨h, hfree, hroom⟩
  | remove xs ys hx hm => exact ((surveyable_insert_iff hx).mp h).1

theorem acceptable (e : LabelEdit p q) (h : Acceptable p) : Acceptable q := by
  have href := e.sameReferences
  refine ⟨e.surveyable h.surveyable, ?_, ?_⟩
  · rw [href.variableNames_eq]
    exact h.variables_le
  · rw [href.texts]
    exact h.encoded

end LabelEdit

/-! ### any number of edits -/

section
variable {p q : List String}

theorem sameReferences_of_edits (h : Relation.ReflTransGen LabelEdit p q) : SameReferences p q := by
  induction h with
  | refl => exact .refl p
  | tail _ e ih => exact ih.trans e.sameReferences

theorem acceptable_of_edits (h : Relation.ReflTransGen LabelEdit p q) (hp : Acceptable p) :
    Acceptable q := by
  induction h with
  | refl => exact hp
  | tail _ e ih => exact e.acceptable ih

theorem SameReferences.binary (h : SameReferences p q) {a b : Assembly} (ha : Assembled p a)
    (hb : Assembled q b) : b.binary = a.binary := by
  have hcode := congrArg (List.map fun x : Word × Instruction => x.2.binary) (h.code ha hb)
  rwa [List.map_map, List.map_map] at hcode

end

/-- **Only the position of used labels counts.**  Two programs that pass the first pass, with the
same instruction texts and the same labels among the mentioned names, are both assembled, to the
same instructions at the same addresses and with the same variables, or have the same fault at the
same instruction.  So label lines may move between two instructions, and unused labels may come and
go, without changing a word. -/
theorem assemble_same_references {p : List String} {s : SymbolTable} (hp : survey p = .ok s) :
    (∀ q t, survey q = .ok t → SameReferences p q →
      ((∃ b, assemble q = .ok b) ↔ ∃ a, assemble p = .ok a) ∧
      (∀ a b, assemble p = .ok a → assemble q = .ok b →
        b.code.map (fun x => (x.address, x.instruction)) =
          a.code.map (fun x => (x.address, x.instruction)) ∧
        b.binary = a.binary ∧ b.table.addresses .variable = a.table.addresses .variable) ∧
      ∀ x y, assemble p = .error x → assemble q = .error y → y.fault = x.fault ∧
        ∃ (k : Nat) (text : String), (instructionLines p)[k]? = some (x.line, text) ∧
          (instructionLines q)[k]? = some (y.line, text)) ∧
    ∀ q, Relation.ReflTransGen LabelEdit p q → ∀ a, assemble p = .ok a →
      ∃ b, assemble q = .ok b ∧ b.binary = a.binary := by
  constructor
  · intro q t hq h
    have hs := surveyed_of_survey hp
    have ht := surveyed_of_survey hq
    refine ⟨?_, fun a b ha hb => ?_, fun x y hx hy => ?_⟩
    · rw [assemble_of_survey hp, assemble_of_survey hq]
      exact h.generate_ok_iff hs ht
    · have ha := assembled_of_assemble ha
      have hb := assembled_of_assemble hb
      refine ⟨h.code ha hb, h.binary ha hb, ?_⟩
      rw [hb.table.addresses_variable hb.count_lt, ha.table.addresses_variable ha.count_lt,
        h.variableNames_eq]
    · rw [assemble_of_survey hp] at hx
      rw [assemble_of_survey hq] at hy
      obtain ⟨k, i, text, hi, hl, hl'⟩ := h.generate_error hs ht hx
      rw [hi] at hy
      cases hy
      exact ⟨rfl, k, text, hl, hl'⟩
  · intro q h a ha
    obtain ⟨b, hb⟩ := exists_assemble_iff.mpr
      (acceptable_of_edits h (exists_assemble_iff.mp ⟨a, ha⟩))
    refine ⟨b, hb, (sameReferences_of_edits h).binary ?_ (assembled_of_assemble hb)⟩
    exact assembled_of_assemble ha

/-- `A` and `B` change places, and `C` is new -/
theorem edits_of_two_labels :
    Relation.ReflTransGen LabelEdit ["(A)", "(B)", "@x", "@A"]
      ["(B)", "(A)", "@x", "(C)", "@A"] := by
  have hlabel : definedLabel? "(C)" = some "C" := by decide +kernel
  refine .tail (.single (.swap [] ["@x", "@A"] ?_ ?_))
    (.add ["(B)", "(A)", "@x"] ["@A"] hlabel ?_ ?_ ?_) <;> decide +kernel

theorem assemble_same_references_of_two_labels :
    ∃ a b, assemble ["(A)", "(B)", "@x", "@A"] = .ok a ∧
      assemble ["(B)", "(A)", "@x", "(C)", "@A"] = .ok b ∧
      a.binary = ["0000000000010000", "0000000000000000"] ∧ b.binary = a.binary ∧
      b.table.addresses .variable = a.table.addresses .variable := by
  obtain ⟨s, hs⟩ : ∃ s, survey ["(A)", "(B)", "@x", "@A"] = .ok s :=
    exists_of_isOk (by decide +kernel)
  obtain ⟨t, ht⟩ : ∃ t, survey ["(B)", "(A)", "@x", "(C)", "@A"] = .ok t :=
    exists_of_isOk (by decide +kernel)
  have hwords : (assemble ["(A)", "(B)", "@x", "@A"]).map (·.binary) =
      .ok ["0000000000010000", "0000000000000000"] := by decide +kernel
  obtain ⟨a, ha, hbinary⟩ := map_eq_ok_iff.mp hwords
  obtain ⟨hsame, hedits⟩ := assemble_same_references hs
  obtain ⟨b, hb, hwords'⟩ := hedits _ edits_of_two_labels a ha
  obtain ⟨-, hcode, -⟩ := hsame _ t ht (sameReferences_of_edits edits_of_two_labels)
  exact ⟨a, b, ha, hb, hbinary, hwords', (hcode a b ha hb).2.2⟩

end HackAssembler
