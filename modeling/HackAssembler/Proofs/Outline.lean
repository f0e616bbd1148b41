import HackAssembler.Source.Line
import HackAssembler.Source.Operand
import Mathlib.Data.List.Basic
import Mathlib.Data.List.Induction

/-!
# Outlines: what a program says, read off its lines

No pass is run here: each notion is a count or a filter over the lines.

* `instructionLines`   the instruction lines, each with its number and its text;
* `labels`             the labels, each with the number of instruction lines above it;
* `mentionedNames`          the symbols that instructions mention, in the order of first mention;
* `variableNames`      the mentioned symbols that are neither predefined nor labels.

Each notion has a lemma `_concat` about one more line at the end, and a lemma `_append` about two
programs in a row.
-/

namespace HackAssembler

/-! ## one line -/

/-- the text of an instruction line -/
def instructionText? (raw : String) : Option String :=
  match Line.parse raw with
  | .ok (.instruction text) => some text
  | _ => none

/-- the name that a label line defines -/
def definedLabel? (raw : String) : Option String :=
  match Line.parse raw with
  | .ok (.label name) => some name
  | _ => none

/-- the symbol that stands after the `@` of an instruction line -/
def mentionedSymbol? (raw : String) : Option String :=
  (instructionText? raw).bind fun text => (operandText? text).filter isName

theorem instructionText?_eq_some_iff {raw text : String} :
    instructionText? raw = some text ↔ Line.parse raw = .ok (.instruction text) := by
  unfold instructionText?
  split
  · next t e => simp [e]
  · next h =>
    simp only [reduceCtorEq, false_iff]
    exact h text

theorem definedLabel?_eq_some_iff {raw name : String} :
    definedLabel? raw = some name ↔ Line.parse raw = .ok (.label name) := by
  unfold definedLabel?
  split
  · next n e => simp [e]
  · next h =>
    simp only [reduceCtorEq, false_iff]
    exact h name

theorem mentionedSymbol?_eq_some_iff {raw name : String} :
    mentionedSymbol? raw = some name ↔
      ∃ text, instructionText? raw = some text ∧ operandText? text = some name ∧ isName name := by
  simp [mentionedSymbol?, Option.bind_eq_some_iff, Option.filter_eq_some_iff]

section
variable {raw name text : String}

theorem instructionText?_of_blank (h : Line.parse raw = .ok .blank) :
    instructionText? raw = none := by
  rw [instructionText?, h]

theorem instructionText?_of_label (h : Line.parse raw = .ok (.label name)) :
    instructionText? raw = none := by
  rw [instructionText?, h]

theorem definedLabel?_of_instruction (h : instructionText? raw = some text) :
    definedLabel? raw = none := by
  rw [definedLabel?, instructionText?_eq_some_iff.mp h]

theorem mentionedSymbol?_of_label (h : Line.parse raw = .ok (.label name)) :
    mentionedSymbol? raw = none := by
  rw [mentionedSymbol?, instructionText?_of_label h, Option.bind_none]

end

/-- only well-formed labels are labels -/
theorem isName_of_definedLabel? {raw name : String} (h : definedLabel? raw = some name) :
    isName name := by
  rw [definedLabel?_eq_some_iff, Line.parse, Line.ofCode] at h
  split at h
  · cases h
  · split at h
    · split at h
      · next e =>
        cases h
        exact (Line.labelName?_eq_some_iff.mp e).2
      · cases h
    · cases h

/-- a line that cannot be read is quoted without comment and outer blanks -/
theorem Line.parse_eq_error {raw : String} {f : Fault} (h : Line.parse raw = .error f) :
    f = ⟨.malformedLabel, codeOf raw⟩ := by
  unfold Line.parse Line.ofCode at h
  split at h
  · cases h
  · split at h
    · split at h
      · cases h
      · cases h
        rfl
    · cases h

/-! ## whole programs -/

def instructionCount (lines : List String) : Nat :=
  lines.countP fun raw => (instructionText? raw).isSome

/-- the instruction lines: the number of the line, counted from zero, and its text -/
def instructionLines (lines : List String) : List (Nat × String) :=
  lines.zipIdx.filterMap fun (raw, i) => (instructionText? raw).map fun text => (i, text)

/-- the labels, each with the number of instruction lines above it -/
def labels (lines : List String) : List (String × Nat) :=
  lines.zipIdx.filterMap fun (raw, i) =>
    (definedLabel? raw).map fun name => (name, instructionCount (lines.take i))

def labelNames (lines : List String) : List String := lines.filterMap definedLabel?

/-- the mentioned symbols, each once, in the order of first mention -/
def mentionedNames (lines : List String) : List String :=
  (lines.filterMap mentionedSymbol?).eraseDups

/-- the line of the first mention of a symbol -/
def firstMention (lines : List String) (name : String) : Nat :=
  lines.findIdx fun raw => mentionedSymbol? raw == some name

/-- the mentioned symbols, each with the line of its first mention -/
def firstMentions (lines : List String) : List (String × Nat) :=
  (mentionedNames lines).map fun name => (name, firstMention lines name)

/-- `name` is neither predefined nor a label of any line -/
def isFree (lines : List String) (name : String) : Bool :=
  (predefined.lookup name).isNone && !(labelNames lines).contains name

/-- the symbols that are left to stand for data cells, in the order of first mention -/
def variableNames (lines : List String) : List String := (mentionedNames lines).filter (isFree lines)

theorem isFree_iff {lines : List String} {name : String} :
    isFree lines name ↔ predefined.lookup name = none ∧ name ∉ labelNames lines := by
  simp [isFree]

/-- counts `n` down from `R0`; the end of the loop is used above its definition -/
def countdown : List String :=
  ["@R0 // the start", "D=M", "(LOOP)", "@n", "M=D", "@END", "D;JEQ", "@LOOP", "MD=D-1;JMP",
    "(END)"]

/-! ## one more line -/

theorem zipIdx_concat {α : Type} (xs : List α) (x : α) :
    (xs ++ [x]).zipIdx = xs.zipIdx ++ [(x, xs.length)] := by
  simp [List.zipIdx_append]

theorem instructionCount_concat (xs : List String) (x : String) :
    instructionCount (xs ++ [x]) =
      instructionCount xs + if (instructionText? x).isSome then 1 else 0 := by
  simp only [instructionCount, List.countP_append, List.countP_singleton]

theorem instructionCount_mono {xs ys : List String} (h : xs <+: ys) :
    instructionCount xs ≤ instructionCount ys :=
  h.sublist.countP_le

theorem instructionCount_take_mono (lines : List String) {i j : Nat} (h : i ≤ j) :
    instructionCount (lines.take i) ≤ instructionCount (lines.take j) :=
  instructionCount_mono (List.take_prefix_take_left h)

theorem lt_of_instructionCount_take_lt {lines : List String} {i j : Nat}
    (h : instructionCount (lines.take j) < instructionCount (lines.take i)) : j < i := by
  by_contra hij
  exact absurd h (Nat.not_lt.mpr (instructionCount_take_mono lines (Nat.le_of_not_lt hij)))

/-- an instruction line counts for the lines below it -/
theorem instructionCount_take_lt {lines : List String} {i j : Nat} {raw text : String}
    (hraw : lines[i]? = some raw) (ht : instructionText? raw = some text) (hij : i < j) :
    instructionCount (lines.take i) < instructionCount (lines.take j) := by
  have hsucc : instructionCount (lines.take (i + 1)) = instructionCount (lines.take i) + 1 := by
    rw [List.take_add_one, hraw, Option.toList_some, instructionCount_concat, ht]
    rfl
  have hle := instructionCount_take_mono lines (show i + 1 ≤ j from hij)
  omega

theorem instructionLines_concat (xs : List String) (x : String) :
    instructionLines (xs ++ [x]) =
      instructionLines xs ++ ((instructionText? x).map fun text => (xs.length, text)).toList := by
  rw [instructionLines, zipIdx_concat, List.filterMap_append]
  cases h : instructionText? x <;> simp [instructionLines, h]

theorem length_instructionLines (lines : List String) :
    (instructionLines lines).length = instructionCount lines := by
  induction lines using List.reverseRecOn with
  | nil => rfl
  | append_singleton xs x ih =>
    rw [instructionLines_concat, instructionCount_concat, List.length_append, ih]
    cases instructionText? x <;> simp

/-- a line of `xs ++ [x]` is one of `xs` or the last one -/
theorem getElem?_concat_eq_some_iff {α : Type} {xs : List α} {x y : α} {i : Nat} :
    (xs ++ [x])[i]? = some y ↔ xs[i]? = some y ∨ i = xs.length ∧ y = x := by
  rcases Nat.lt_trichotomy i xs.length with h | h | h
  · rw [List.getElem?_append_left h]
    simp [Nat.ne_of_lt h]
  · subst h
    simp [eq_comm]
  · have hout : (xs ++ [x])[i]? = none := List.getElem?_eq_none (by simp; omega)
    have hxs : xs[i]? = none := List.getElem?_eq_none (Nat.le_of_lt h)
    simp [hout, hxs, Nat.ne_of_gt h]

/-- the place of an instruction is the number of instruction lines above it -/
theorem getElem?_instructionLines {lines : List String} {k i : Nat} {text : String} :
    (instructionLines lines)[k]? = some (i, text) ↔
      ∃ raw, lines[i]? = some raw ∧ instructionText? raw = some text ∧
        instructionCount (lines.take i) = k := by
  induction lines using List.reverseRecOn with
  | nil => simp [instructionLines]
  | append_singleton xs x ih =>
    have hline : (∃ raw, (xs ++ [x])[i]? = some raw ∧ instructionText? raw = some text ∧
          instructionCount ((xs ++ [x]).take i) = k) ↔
        (instructionLines xs)[k]? = some (i, text) ∨
          i = xs.length ∧ instructionText? x = some text ∧ instructionCount xs = k := by
      rw [ih]
      constructor
      · rintro ⟨raw, hraw, ht, hk⟩
        rcases getElem?_concat_eq_some_iff.mp hraw with h | ⟨rfl, rfl⟩
        · have hi : i < xs.length := (List.getElem?_eq_some_iff.mp h).1
          rw [List.take_append_of_le_length (Nat.le_of_lt hi)] at hk
          exact .inl ⟨raw, h, ht, hk⟩
        · rw [List.take_left] at hk
          exact .inr ⟨rfl, ht, hk⟩
      · rintro (⟨raw, hraw, ht, hk⟩ | ⟨rfl, ht, hk⟩)
        · have hi : i < xs.length := (List.getElem?_eq_some_iff.mp hraw).1
          refine ⟨raw, getElem?_concat_eq_some_iff.mpr (.inl hraw), ht, ?_⟩
          rwa [List.take_append_of_le_length (Nat.le_of_lt hi)]
        · refine ⟨x, getElem?_concat_eq_some_iff.mpr (.inr ⟨rfl, rfl⟩), ht, ?_⟩
          rwa [List.take_left]
    rw [hline, instructionLines_concat]
    cases hx : instructionText? x with
    | none => simp
    | some t =>
      rw [Option.map_some, Option.toList_some, getElem?_concat_eq_some_iff,
        length_instructionLines, Prod.mk.injEq, Option.some.injEq]
      grind

/-- the instruction lines stand one below another -/
theorem instructionLines_pairwise (lines : List String) :
    (instructionLines lines).Pairwise fun l l' => l.1 < l'.1 := by
  have hcount : ∀ (k : Nat) (hk : k < (instructionLines lines).length),
      instructionCount (lines.take (instructionLines lines)[k].1) = k := by
    intro k hk
    obtain ⟨raw, -, -, h⟩ := getElem?_instructionLines.mp (List.getElem?_eq_getElem hk)
    exact h
  rw [List.pairwise_iff_getElem]
  intro j k hj hk hjk
  have hlt : instructionCount (lines.take (instructionLines lines)[j].1) <
      instructionCount (lines.take (instructionLines lines)[k].1) := by
    rw [hcount j hj, hcount k hk]
    exact hjk
  exact lt_of_instructionCount_take_lt hlt

theorem labels_concat (xs : List String) (x : String) :
    labels (xs ++ [x]) =
      labels xs ++ ((definedLabel? x).map fun name => (name, instructionCount xs)).toList := by
  rw [labels, zipIdx_concat, List.filterMap_append]
  congr 1
  · refine List.filterMap_congr fun e he => ?_
    have hi : e.2 < xs.length := (List.mem_zipIdx' he).1
    simp only [List.take_append_of_le_length (Nat.le_of_lt hi)]
  · cases h : definedLabel? x <;> simp [h]

theorem labelNames_concat (xs : List String) (x : String) :
    labelNames (xs ++ [x]) = labelNames xs ++ (definedLabel? x).toList := by
  rw [labelNames, List.filterMap_append]
  cases h : definedLabel? x <;> simp [labelNames, h]

theorem map_fst_labels (lines : List String) : (labels lines).map (·.1) = labelNames lines := by
  induction lines using List.reverseRecOn with
  | nil => rfl
  | append_singleton xs x ih =>
    rw [labels_concat, labelNames_concat, List.map_append, ih]
    cases definedLabel? x <;> rfl

theorem mem_labels {lines : List String} {l : String × Nat} :
    l ∈ labels lines ↔ ∃ j raw, lines[j]? = some raw ∧ definedLabel? raw = some l.1 ∧
      instructionCount (lines.take j) = l.2 := by
  obtain ⟨name, n⟩ := l
  simp only [labels, List.mem_filterMap, List.mem_zipIdx_iff_getElem?, Prod.exists,
    Option.map_eq_some_iff, Prod.mk.injEq]
  grind

theorem eraseDups_concat (ns : List String) (n : String) :
    (ns ++ [n]).eraseDups = if n ∈ ns then ns.eraseDups else ns.eraseDups ++ [n] := by
  rw [List.eraseDups_append]
  by_cases h : n ∈ ns <;> simp [List.removeAll, List.eraseDups_cons, h]

theorem mem_mentionedNames {lines : List String} {name : String} :
    name ∈ mentionedNames lines ↔ ∃ raw ∈ lines, mentionedSymbol? raw = some name := by
  rw [mentionedNames, List.mem_eraseDups, List.mem_filterMap]

/-- the operand of an instruction line is mentioned, if it is a symbol -/
theorem mem_mentionedNames_of_operand {lines : List String} {raw text name : String}
    (hraw : raw ∈ lines) (ht : instructionText? raw = some text)
    (ho : operandText? text = some name) (hn : isName name) : name ∈ mentionedNames lines :=
  mem_mentionedNames.mpr ⟨raw, hraw, mentionedSymbol?_eq_some_iff.mpr ⟨text, ht, ho, hn⟩⟩

theorem mentionedNames_concat_none {x : String} (xs : List String) (h : mentionedSymbol? x = none) :
    mentionedNames (xs ++ [x]) = mentionedNames xs := by
  rw [mentionedNames, List.filterMap_append]
  simp [mentionedNames, h]

theorem mentionedNames_concat_some {x name : String} (xs : List String)
    (h : mentionedSymbol? x = some name) :
    mentionedNames (xs ++ [x]) =
      if name ∈ mentionedNames xs then mentionedNames xs else mentionedNames xs ++ [name] := by
  have e : (xs ++ [x]).filterMap mentionedSymbol? = xs.filterMap mentionedSymbol? ++ [name] := by
    rw [List.filterMap_append]
    simp [h]
  rw [mentionedNames, e, eraseDups_concat]
  simp only [mentionedNames, List.mem_eraseDups]

/-! ## first mentions -/

theorem firstMention_lt {lines : List String} {name : String} (h : name ∈ mentionedNames lines) :
    firstMention lines name < lines.length := by
  obtain ⟨raw, hm, e⟩ := mem_mentionedNames.mp h
  exact List.findIdx_lt_length_of_exists ⟨raw, hm, by simp [e]⟩

theorem getElem?_firstMention {lines : List String} {name : String}
    (h : name ∈ mentionedNames lines) :
    ∃ raw, lines[firstMention lines name]? = some raw ∧ mentionedSymbol? raw = some name := by
  have hlt := firstMention_lt h
  refine ⟨_, List.getElem?_eq_getElem hlt, ?_⟩
  have hfound : mentionedSymbol? lines[firstMention lines name] == some name :=
    List.findIdx_getElem (w := hlt)
  simpa using hfound

theorem firstMention_append {xs : List String} {name : String} (h : name ∈ mentionedNames xs)
    (ys : List String) : firstMention (xs ++ ys) name = firstMention xs name := by
  have hlt := firstMention_lt h
  rw [firstMention, List.findIdx_append]
  exact if_pos hlt

theorem firstMention_concat_new {xs : List String} {x name : String} (h : name ∉ mentionedNames xs)
    (hx : mentionedSymbol? x = some name) : firstMention (xs ++ [x]) name = xs.length := by
  have hxs : ∀ raw ∈ xs, ¬ (mentionedSymbol? raw == some name) := by
    intro raw hm e
    exact h (mem_mentionedNames.mpr ⟨raw, hm, by simpa using e⟩)
  have hlen : firstMention xs name = xs.length := List.findIdx_eq_length.mpr (by simpa using hxs)
  rw [firstMention, List.findIdx_append, ← firstMention, hlen, if_neg (Nat.lt_irrefl _)]
  simp [hx]

theorem firstMentions_append {xs : List String} {names : List String}
    (h : ∀ name ∈ names, name ∈ mentionedNames xs) (ys : List String) :
    (names.map fun name => (name, firstMention (xs ++ ys) name)) =
      names.map fun name => (name, firstMention xs name) :=
  List.map_congr_left fun name hn => by rw [firstMention_append (h name hn)]

theorem firstMentions_concat_none {x : String} (xs : List String)
    (h : mentionedSymbol? x = none) : firstMentions (xs ++ [x]) = firstMentions xs := by
  rw [firstMentions, mentionedNames_concat_none xs h]
  exact firstMentions_append (fun _ hn => hn) [x]

theorem firstMentions_concat_some {x name : String} (xs : List String)
    (h : mentionedSymbol? x = some name) :
    firstMentions (xs ++ [x]) =
      if name ∈ mentionedNames xs then firstMentions xs
      else firstMentions xs ++ [(name, xs.length)] := by
  have hold := firstMentions_append (fun name (hn : name ∈ mentionedNames xs) => hn) [x]
  rw [firstMentions, mentionedNames_concat_some xs h]
  split
  · exact hold
  · next hnew =>
    rw [List.map_append, hold, List.map_singleton, firstMention_concat_new hnew h]
    rfl

/-- the order of the mentions is the order of their first lines -/
theorem mentionedNames_pairwise (lines : List String) :
    (mentionedNames lines).Pairwise fun a b => firstMention lines a < firstMention lines b := by
  induction lines using List.reverseRecOn with
  | nil => exact List.Pairwise.nil
  | append_singleton xs x ih =>
    have hold : (mentionedNames xs).Pairwise fun a b =>
        firstMention (xs ++ [x]) a < firstMention (xs ++ [x]) b := by
      refine ih.imp_of_mem fun ha hb hab => ?_
      rwa [firstMention_append ha, firstMention_append hb]
    cases hx : mentionedSymbol? x with
    | none => rwa [mentionedNames_concat_none xs hx]
    | some name =>
      rw [mentionedNames_concat_some xs hx]
      split
      · exact hold
      · next hnew =>
        refine List.pairwise_append.mpr ⟨hold, List.pairwise_singleton _ _, ?_⟩
        intro a ha b hb
        rw [List.mem_singleton] at hb
        subst hb
        rw [firstMention_append ha, firstMention_concat_new hnew hx]
        exact firstMention_lt ha

/-! ## two programs in a row -/

section
variable {xs ys : List String}

theorem instructionCount_append (xs ys : List String) :
    instructionCount (xs ++ ys) = instructionCount xs + instructionCount ys :=
  List.countP_append

theorem labelNames_append (xs ys : List String) :
    labelNames (xs ++ ys) = labelNames xs ++ labelNames ys :=
  List.filterMap_append

/-- the lines of the second program stand below those of the first one -/
theorem instructionLines_append (xs ys : List String) :
    instructionLines (xs ++ ys) =
      instructionLines xs ++ (instructionLines ys).map fun l => (l.1 + xs.length, l.2) := by
  induction ys using List.reverseRecOn with
  | nil => simp [instructionLines]
  | append_singleton ys y ih =>
    rw [← List.append_assoc, instructionLines_concat, instructionLines_concat, ih,
      List.map_append, List.append_assoc]
    cases instructionText? y with
    | none => rfl
    | some text => simp [Nat.add_comm]

/-- its labels stand below the instructions of the first one -/
theorem labels_append (xs ys : List String) :
    labels (xs ++ ys) = labels xs ++ (labels ys).map fun l => (l.1, l.2 + instructionCount xs) := by
  induction ys using List.reverseRecOn with
  | nil => simp [labels]
  | append_singleton ys y ih =>
    rw [← List.append_assoc, labels_concat, labels_concat, ih, List.map_append, List.append_assoc,
      instructionCount_append]
    cases definedLabel? y with
    | none => rfl
    | some name => simp [Nat.add_comm]

/-- it adds the symbols that the first one does not mention -/
theorem mentionedNames_append (xs ys : List String) :
    mentionedNames (xs ++ ys) =
      mentionedNames xs ++ (mentionedNames ys).filter fun name => name ∉ mentionedNames xs := by
  induction ys using List.reverseRecOn with
  | nil => simp [mentionedNames]
  | append_singleton ys y ih =>
    rw [← List.append_assoc]
    cases hy : mentionedSymbol? y with
    | none => rw [mentionedNames_concat_none _ hy, mentionedNames_concat_none _ hy, ih]
    | some name =>
      rw [mentionedNames_concat_some _ hy, mentionedNames_concat_some _ hy, ih]
      by_cases hx : name ∈ mentionedNames xs <;> by_cases hys : name ∈ mentionedNames ys <;>
        simp [hx, hys, List.filter_append]

theorem isFree_append_iff {name : String} :
    isFree (xs ++ ys) name ↔ isFree xs name ∧ name ∉ labelNames ys := by
  rw [isFree_iff, isFree_iff, labelNames_append, List.mem_append, not_or, and_assoc]

end

end HackAssembler
