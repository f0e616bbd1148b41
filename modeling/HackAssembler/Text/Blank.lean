/-!
# Blanks: the characters that may surround a field

`isBlank` is the Unicode property `White_Space`, and `trim` drops the blanks at both ends of a
text.  Zero-width characters (U+200B, U+FEFF) and the separators U+001C to U+001F are not blank.

* `trim_blank_append`, `trim_append_blank`   blanks at an end do not matter;
* `trim_eq_self`                             a text without a blank end is left alone;
* `noBlankEnds_trim`, `padded_trim`          what is left has no blank end, and stood between blanks.
-/

namespace HackAssembler

/-- the code points of `White_Space`, as closed ranges -/
def blankRanges : List (Nat × Nat) :=
  [(0x9, 0xD), (0x20, 0x20), (0x85, 0x85), (0xA0, 0xA0), (0x1680, 0x1680), (0x2000, 0x200A),
    (0x2028, 0x2029), (0x202F, 0x202F), (0x205F, 0x205F), (0x3000, 0x3000)]

def isBlank (c : Char) : Bool :=
  blankRanges.any fun (low, high) => low ≤ c.toNat && c.toNat ≤ high

def trimLeft (cs : List Char) : List Char := cs.dropWhile isBlank

def trimRight (cs : List Char) : List Char := (trimLeft cs.reverse).reverse

def trim (cs : List Char) : List Char := trimRight (trimLeft cs)

/-- `trim` on strings -/
def trimmed (s : String) : String := String.ofList (trim s.toList)

theorem trimmed_ofList (cs : List Char) :
    trimmed (String.ofList cs) = String.ofList (trim cs) := by
  simp [trimmed]

/-! ## blanks at an end -/

theorem trimLeft_cons (c : Char) (cs : List Char) :
    trimLeft (c :: cs) = if isBlank c then trimLeft cs else c :: cs := by
  simp only [trimLeft, List.dropWhile_cons]

theorem trimLeft_eq_nil {ws : List Char} (h : ∀ c ∈ ws, isBlank c) : trimLeft ws = [] := by
  induction ws with
  | nil => rfl
  | cons w ws ih =>
    rw [trimLeft_cons, if_pos (h w List.mem_cons_self), ih fun c hc => h c (List.mem_cons_of_mem _ hc)]

theorem trimLeft_append (as bs : List Char) :
    trimLeft (as ++ bs) = if (trimLeft as).isEmpty then trimLeft bs else trimLeft as ++ bs :=
  List.dropWhile_append

theorem trimLeft_blank_append {ws : List Char} (h : ∀ c ∈ ws, isBlank c) (cs : List Char) :
    trimLeft (ws ++ cs) = trimLeft cs := by
  rw [trimLeft_append, trimLeft_eq_nil h, List.isEmpty_nil, if_pos rfl]

theorem trimRight_append_blank {ws : List Char} (h : ∀ c ∈ ws, isBlank c) (cs : List Char) :
    trimRight (cs ++ ws) = trimRight cs := by
  rw [trimRight, List.reverse_append,
    trimLeft_blank_append fun c hc => h c (List.mem_reverse.mp hc), trimRight]

theorem trim_blank_append {ws : List Char} (h : ∀ c ∈ ws, isBlank c) (cs : List Char) :
    trim (ws ++ cs) = trim cs := by
  rw [trim, trimLeft_blank_append h, trim]

theorem trim_append_blank {ws : List Char} (h : ∀ c ∈ ws, isBlank c) (cs : List Char) :
    trim (cs ++ ws) = trim cs := by
  rw [trim, trimLeft_append, trim]
  split
  · next e => rw [List.isEmpty_iff.mp e, trimLeft_eq_nil h]
  · rw [trimRight_append_blank h]

/-- `cs` neither begins nor ends with a blank -/
def NoBlankEnds (cs : List Char) : Prop :=
  (∀ c ∈ cs.head?, ¬ isBlank c) ∧ ∀ c ∈ cs.getLast?, ¬ isBlank c

theorem noBlankEnds_of_forall {cs : List Char} (h : ∀ c ∈ cs, ¬ isBlank c) : NoBlankEnds cs :=
  ⟨fun c hc => h c (List.mem_of_mem_head? hc), fun c hc => h c (List.mem_of_mem_getLast? hc)⟩

theorem noBlankEnds_of_all {cs : List Char} (h : cs.all (!isBlank ·)) : NoBlankEnds cs := by
  refine noBlankEnds_of_forall fun c hc hb => ?_
  have hnot := List.all_eq_true.mp h c hc
  rw [hb] at hnot
  cases hnot

theorem trimLeft_eq_self {cs : List Char} (h : ∀ c ∈ cs.head?, ¬ isBlank c) : trimLeft cs = cs := by
  cases cs with
  | nil => rfl
  | cons c cs => rw [trimLeft_cons, if_neg (h c rfl)]

theorem trim_eq_self {cs : List Char} (h : NoBlankEnds cs) : trim cs = cs := by
  rw [trim, trimLeft_eq_self h.1, trimRight, trimLeft_eq_self, List.reverse_reverse]
  rw [List.head?_reverse]
  exact h.2

/-- `cs` is `field` between blanks -/
def Padded (field cs : List Char) : Prop :=
  ∃ ws ws', (∀ c ∈ ws, isBlank c) ∧ (∀ c ∈ ws', isBlank c) ∧ cs = ws ++ field ++ ws'

theorem Padded.of_all (ws field ws' : List Char) (h : ws.all isBlank) (h' : ws'.all isBlank) :
    Padded field (ws ++ field ++ ws') :=
  ⟨ws, ws', List.all_eq_true.mp h, List.all_eq_true.mp h', rfl⟩

theorem Padded.trim_eq {field cs : List Char} (h : Padded field cs) (hf : NoBlankEnds field) :
    trim cs = field := by
  obtain ⟨ws, ws', hws, hws', rfl⟩ := h
  rw [trim_append_blank hws', trim_blank_append hws, trim_eq_self hf]

theorem Padded.isInfix {field cs : List Char} (h : Padded field cs) : field <:+: cs := by
  obtain ⟨ws, ws', -, -, e⟩ := h
  exact ⟨ws, ws', e.symm⟩

theorem Padded.not_mem {field cs : List Char} (h : Padded field cs) {c : Char} (hc : ¬ isBlank c)
    (hf : c ∉ field) : c ∉ cs := by
  obtain ⟨ws, ws', hws, hws', rfl⟩ := h
  rw [List.mem_append, List.mem_append, not_or, not_or]
  exact ⟨⟨fun hm => hc (hws c hm), hf⟩, fun hm => hc (hws' c hm)⟩

theorem head?_trimLeft (cs : List Char) : ∀ c ∈ (trimLeft cs).head?, ¬ isBlank c := by
  induction cs with
  | nil => exact nofun
  | cons d cs ih =>
    rw [trimLeft_cons]
    split
    · exact ih
    · next hd =>
      intro c hc
      cases hc
      exact hd

theorem exists_trimLeft (cs : List Char) :
    ∃ ws, (∀ c ∈ ws, isBlank c) ∧ cs = ws ++ trimLeft cs :=
  ⟨cs.takeWhile isBlank, List.all_eq_true.mp List.all_takeWhile,
    List.takeWhile_append_dropWhile.symm⟩

theorem exists_trimRight (cs : List Char) :
    ∃ ws, (∀ c ∈ ws, isBlank c) ∧ cs = trimRight cs ++ ws := by
  obtain ⟨ws, hws, e⟩ := exists_trimLeft cs.reverse
  refine ⟨ws.reverse, fun c hc => hws c (List.mem_reverse.mp hc), ?_⟩
  rw [trimRight, ← List.reverse_append, ← e, List.reverse_reverse]

theorem padded_trim (cs : List Char) : Padded (trim cs) cs := by
  obtain ⟨ws, hws, hleft⟩ := exists_trimLeft cs
  obtain ⟨ws', hws', hright⟩ := exists_trimRight (trimLeft cs)
  refine ⟨ws, ws', hws, hws', ?_⟩
  rw [trim, List.append_assoc, ← hright, ← hleft]

theorem noBlankEnds_trim (cs : List Char) : NoBlankEnds (trim cs) := by
  constructor
  · intro c hc
    -- what the right end loses is no part of the left end
    obtain ⟨ws, -, e⟩ := exists_trimRight (trimLeft cs)
    have hhead : c ∈ (trimLeft cs).head? := by
      have hc : (trimRight (trimLeft cs)).head? = some c := hc
      rw [e, List.head?_append, hc]
      rfl
    exact head?_trimLeft cs c hhead
  · rw [trim, trimRight, List.getLast?_reverse]
    exact head?_trimLeft _

@[simp] theorem trim_trim (cs : List Char) : trim (trim cs) = trim cs :=
  trim_eq_self (noBlankEnds_trim cs)

end HackAssembler
