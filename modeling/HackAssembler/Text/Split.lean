/-!
# Cutting a text at a separator, and into lines

* `splitOnce? sep cs`   the text before and after the first `sep`; `splitOnce?_cons` is its
                        recursion, `append_of_splitOnce?` says that nothing is lost, and
                        `length_le_of_splitOnce?` that the cut is at the first place possible, which
                        more text behind does not change (`splitOnce?_append_of_some`);
* `lines cs`            the lines of a text.  A line ends at a line feed; one carriage return right
                        before the line feed belongs to the line end; the last line end starts no
                        further line.  `lines_line_feed` takes one line off the front.
-/

namespace HackAssembler

theorem not_mem_toList_append {c : Char} {s t : String} :
    c ∉ (s ++ t).toList ↔ c ∉ s.toList ∧ c ∉ t.toList := by
  rw [String.toList_append, List.mem_append, not_or]

/-! ## the first separator -/

/-- `before` is what has been passed, in reverse -/
def splitAfter? (sep before : List Char) : List Char → Option (List Char × List Char)
  | [] => none
  | c :: cs =>
    if sep.isPrefixOf (c :: cs) then
      some (before.reverse, (c :: cs).drop sep.length)
    else
      splitAfter? sep (c :: before) cs

def splitOnce? (sep cs : List Char) : Option (List Char × List Char) := splitAfter? sep [] cs

theorem splitAfter?_eq (sep before cs : List Char) :
    splitAfter? sep before cs =
      (splitOnce? sep cs).map fun p => (before.reverse ++ p.1, p.2) := by
  induction cs generalizing before with
  | nil => rfl
  | cons c cs ih =>
    rw [splitOnce?, splitAfter?, splitAfter?]
    split
    · simp
    · rw [ih, ih [c], Option.map_map]
      simp [Function.comp_def]

@[simp] theorem splitOnce?_nil (sep : List Char) : splitOnce? sep [] = none := rfl

theorem splitOnce?_cons (sep : List Char) (c : Char) (cs : List Char) :
    splitOnce? sep (c :: cs) =
      if sep.isPrefixOf (c :: cs) then
        some ([], (c :: cs).drop sep.length)
      else
        (splitOnce? sep cs).map fun p => (c :: p.1, p.2) := by
  rw [splitOnce?, splitAfter?]
  split
  · rfl
  · rw [splitAfter?_eq]; rfl

section
variable {sep cs : List Char} {c : Char}

theorem splitOnce?_of_prefix_cons (h : sep <+: c :: cs) :
    splitOnce? sep (c :: cs) = some ([], (c :: cs).drop sep.length) := by
  rw [splitOnce?_cons, if_pos (List.isPrefixOf_iff_prefix.mpr h)]

theorem splitOnce?_of_not_prefix_cons (h : ¬ sep <+: c :: cs) :
    splitOnce? sep (c :: cs) = (splitOnce? sep cs).map fun p => (c :: p.1, p.2) := by
  rw [splitOnce?_cons, if_neg fun hp => h (List.isPrefixOf_iff_prefix.mp hp)]

end

theorem append_of_splitOnce? {sep cs before after : List Char}
    (h : splitOnce? sep cs = some (before, after)) : cs = before ++ sep ++ after := by
  induction cs generalizing before with
  | nil => cases h
  | cons c cs ih =>
    rw [splitOnce?_cons] at h
    split at h
    · next hp =>
      cases h
      obtain ⟨rest, hr⟩ := List.isPrefixOf_iff_prefix.mp hp
      rw [← hr]
      simp
    · obtain ⟨p, hp, e⟩ := Option.map_eq_some_iff.mp h
      cases e
      rw [ih hp]
      rfl

/-- no separator stands before the one that the text is cut at -/
theorem length_le_of_splitOnce? {sep cs before after : List Char}
    (h : splitOnce? sep cs = some (before, after)) {xs ys : List Char} (e : cs = xs ++ sep ++ ys) :
    before.length ≤ xs.length := by
  induction cs generalizing before xs with
  | nil => cases h
  | cons c cs ih =>
    rw [splitOnce?_cons] at h
    split at h
    · cases h
      exact Nat.zero_le _
    · next hp =>
      obtain ⟨p, hsplit, hp'⟩ := Option.map_eq_some_iff.mp h
      cases hp'
      cases xs with
      | nil => exact absurd (List.isPrefixOf_iff_prefix.mpr ⟨ys, e.symm⟩) hp
      | cons x xs =>
        obtain ⟨-, rfl⟩ := List.cons_eq_cons.mp e
        exact Nat.succ_le_succ (ih hsplit rfl)

/-- a text is cut just when it has the separator -/
theorem splitOnce?_eq_none_iff {sep cs : List Char} (hsep : sep ≠ []) :
    splitOnce? sep cs = none ↔ ¬ sep <:+: cs := by
  induction cs with
  | nil => simp [hsep]
  | cons c cs ih =>
    rw [List.infix_cons_iff, not_or]
    by_cases hp : sep <+: c :: cs
    · rw [splitOnce?_of_prefix_cons hp]
      exact iff_of_false nofun fun h => h.1 hp
    · rw [splitOnce?_of_not_prefix_cons hp, Option.map_eq_none_iff, ih]
      exact ⟨fun h => ⟨hp, h⟩, fun h => h.2⟩

/-- characters that do not start the separator are passed over -/
theorem splitOnce?_append {c : Char} {xs : List Char} (h : c ∉ xs) (sep ys : List Char) :
    splitOnce? (c :: sep) (xs ++ ys) =
      (splitOnce? (c :: sep) ys).map fun p => (xs ++ p.1, p.2) := by
  induction xs with
  | nil => simp
  | cons x xs ih =>
    obtain ⟨hx, hxs⟩ := List.ne_and_not_mem_of_not_mem_cons h
    have hp : ¬ (c :: sep).isPrefixOf (x :: (xs ++ ys)) := by simp [List.isPrefixOf, hx]
    rw [List.cons_append, splitOnce?_cons, if_neg hp, ih hxs, Option.map_map]
    rfl

theorem splitOnce?_eq_none {c : Char} {cs : List Char} (h : c ∉ cs) (sep : List Char) :
    splitOnce? (c :: sep) cs = none := by
  have hcs := splitOnce?_append h sep []
  rwa [List.append_nil] at hcs

theorem splitOnce?_append_cons {c : Char} {xs : List Char} (h : c ∉ xs) (ys : List Char) :
    splitOnce? [c] (xs ++ c :: ys) = some (xs, ys) := by
  rw [splitOnce?_append h, splitOnce?_cons, if_pos (by simp [List.isPrefixOf])]
  simp

/-- a separator of one character is the first one of the text, or there is none -/
theorem splitOnce?_singleton (c : Char) (cs : List Char) :
    (∃ xs ys, c ∉ xs ∧ cs = xs ++ c :: ys ∧ splitOnce? [c] cs = some (xs, ys)) ∨
      c ∉ cs ∧ splitOnce? [c] cs = none := by
  by_cases h : c ∈ cs
  · obtain ⟨xs, ys, rfl, hxs⟩ := List.eq_append_cons_of_mem h
    exact .inl ⟨xs, ys, hxs, rfl, splitOnce?_append_cons hxs ys⟩
  · exact .inr ⟨h, splitOnce?_eq_none h []⟩

/-! ## more text behind -/

section
variable {sep cs : List Char}

/-- more text at the end does not move the first separator -/
theorem splitOnce?_append_of_some {before after : List Char}
    (h : splitOnce? sep cs = some (before, after)) (ds : List Char) :
    splitOnce? sep (cs ++ ds) = some (before, after ++ ds) := by
  induction cs generalizing before with
  | nil => cases h
  | cons c cs ih =>
    have hshort : c :: cs <+: c :: (cs ++ ds) := List.prefix_append (c :: cs) ds
    by_cases hp : sep <+: c :: cs
    · rw [splitOnce?_of_prefix_cons hp] at h
      cases h
      rw [List.cons_append, splitOnce?_of_prefix_cons (hp.trans hshort), ← List.cons_append,
        List.drop_append_of_le_length hp.length_le]
    · rw [splitOnce?_of_not_prefix_cons hp] at h
      obtain ⟨⟨before, after⟩, hsplit, e⟩ := Option.map_eq_some_iff.mp h
      cases e
      have hlen : sep.length ≤ (c :: cs).length := by
        rw [append_of_splitOnce? hsplit]
        simp only [List.length_cons, List.length_append]
        omega
      have hnot : ¬ sep <+: c :: (cs ++ ds) := fun hs =>
        hp (List.prefix_of_prefix_length_le hs hshort hlen)
      rw [List.cons_append, splitOnce?_of_not_prefix_cons hnot, ih hsplit]
      rfl

/-- no separator ends in a text that begins with none of its characters -/
theorem splitOnce?_append_of_none (h : splitOnce? sep cs = none) {ds : List Char}
    (hd : ∀ d ∈ ds.head?, d ∉ sep) :
    splitOnce? sep (cs ++ ds) = (splitOnce? sep ds).map fun p => (cs ++ p.1, p.2) := by
  induction cs with
  | nil => simp
  | cons c cs ih =>
    have hp : ¬ sep <+: c :: cs := by
      intro hp
      rw [splitOnce?_of_prefix_cons hp] at h
      cases h
    have hnot : ¬ sep <+: c :: (cs ++ ds) := by
      intro hs
      rcases List.prefix_or_prefix_of_prefix hs (List.prefix_append (c :: cs) ds) with hle | ⟨t, rfl⟩
      · exact hp hle
      · cases t with
        | nil => exact hp (by simp)
        | cons d t =>
          obtain ⟨rest, rfl⟩ := (List.prefix_append_right_inj (c :: cs)).mp hs
          exact hd d rfl (by simp)
    rw [splitOnce?_of_not_prefix_cons hp] at h
    rw [List.cons_append, splitOnce?_of_not_prefix_cons hnot, ih (Option.map_eq_none_iff.mp h),
      Option.map_map]
    rfl

end

/-! ## lines -/

/-- drops the carriage return that ends a line given in reverse -/
def dropReturn : List Char → List Char
  | '\r' :: cs => cs
  | cs => cs

/-- `line` is the part of the current line that has been read, in reverse, and `acc` the lines
before it, the last one first -/
def linesFrom (line : List Char) (acc : List (List Char)) : List Char → List (List Char)
  | [] => (if line.isEmpty then acc else line.reverse :: acc).reverse
  | c :: cs =>
    if c = '\n' then
      linesFrom [] ((dropReturn line).reverse :: acc) cs
    else
      linesFrom (c :: line) acc cs

def lines (cs : List Char) : List (List Char) := linesFrom [] [] cs

theorem linesFrom_eq (line : List Char) (acc : List (List Char)) (cs : List Char) :
    linesFrom line acc cs = acc.reverse ++ linesFrom line [] cs := by
  induction cs generalizing line acc with
  | nil => simp only [linesFrom]; split <;> simp
  | cons c cs ih =>
    simp only [linesFrom]
    split
    · rw [ih, ih _ [_]]; simp
    · rw [ih]

/-- a line without line feed is read into the current line -/
theorem linesFrom_append {cs : List Char} (h : '\n' ∉ cs) (line rest : List Char)
    (acc : List (List Char)) :
    linesFrom line acc (cs ++ rest) = linesFrom (cs.reverse ++ line) acc rest := by
  induction cs generalizing line with
  | nil => rfl
  | cons c cs ih =>
    have hc : c ≠ '\n' := fun e => h (e ▸ List.mem_cons_self)
    rw [List.cons_append, linesFrom, if_neg hc, ih fun hm => h (List.mem_cons_of_mem _ hm)]
    simp

theorem lines_line_feed {cs : List Char} (h : '\n' ∉ cs) (rest : List Char) :
    lines (cs ++ '\n' :: rest) = (dropReturn cs.reverse).reverse :: lines rest := by
  rw [lines, linesFrom_append h, linesFrom, if_pos rfl, linesFrom_eq, lines]
  simp

theorem lines_last {cs : List Char} (h : '\n' ∉ cs) :
    lines cs = if cs.isEmpty then [] else [cs] := by
  have := linesFrom_append h [] [] []
  rw [List.append_nil] at this
  rw [lines, this, linesFrom]
  cases cs <;> simp

end HackAssembler
