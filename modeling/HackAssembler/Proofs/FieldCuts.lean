import HackAssembler.Source.Statement

/-!
# Cuts: the parts of a compute statement

* `Cut`                        a text and its parts before the `=`, between, and after the first `;`;
* `Misordered`, `exists_cut`   a text has such parts unless an `=` follows another `=` or a `;`;
* `Fields.parse_of_cut`, `Fields.parse_of_misordered`   the fields are the parts without the blanks
                               around them, and without parts there are no fields.
-/

namespace HackAssembler

/-- an `=` with another `=` or a `;` before it -/
def Misordered (cs : List Char) : Prop :=
  ∃ xs ys, cs = xs ++ '=' :: ys ∧ ('=' ∈ xs ∨ ';' ∈ xs)

/-- a destination with its separator, and a jump with its own -/
def destinationPart (dest : Option (List Char)) : List Char := dest.elim [] (· ++ ['='])

def jumpPart (jump : Option (List Char)) : List Char := jump.elim [] (';' :: ·)

/-- `cs` is cut at its only `=`, if it has one, and at its first `;` -/
structure Cut (cs : List Char) (dest : Option (List Char)) (comp : List Char)
    (jump : Option (List Char)) : Prop where
  eq : cs = destinationPart dest ++ (comp ++ jumpPart jump)
  dest : ∀ ds ∈ dest, '=' ∉ ds ∧ ';' ∉ ds
  comp : '=' ∉ comp ∧ ';' ∉ comp
  jump : ∀ js ∈ jump, '=' ∉ js

theorem cutDestination_part {dest : Option (List Char)} (hd : ∀ ds ∈ dest, '=' ∉ ds)
    {rest : List Char} (hr : '=' ∉ rest) :
    cutDestination (destinationPart dest ++ rest) = (dest, rest) := by
  cases dest with
  | none =>
    show cutDestination rest = _
    rw [cutDestination, splitOnce?_eq_none hr]
  | some ds =>
    have hchars : destinationPart (some ds) ++ rest = ds ++ '=' :: rest := by simp [destinationPart]
    rw [hchars, cutDestination, splitOnce?_append_cons (hd ds rfl)]

theorem cutJump_part {comp : List Char} (hc : ';' ∉ comp) (jump : Option (List Char)) :
    cutJump (comp ++ jumpPart jump) = (comp, jump) := by
  cases jump with
  | none =>
    rw [jumpPart, Option.elim_none, List.append_nil, cutJump, splitOnce?_eq_none hc]
  | some js =>
    show cutJump (comp ++ ';' :: js) = _
    rw [cutJump, splitOnce?_append_cons hc]

/-- where the first `=` stands, a text is misordered just when the check says so -/
theorem misordered_append_cons_iff {xs : List Char} (hx : '=' ∉ xs) (ys : List Char) :
    Misordered (xs ++ '=' :: ys) ↔ ';' ∈ xs ∨ '=' ∈ ys := by
  constructor
  · rintro ⟨us, vs, e, hu⟩
    rcases List.append_eq_append_iff.mp e with ⟨as, rfl, hy⟩ | ⟨bs, rfl, hv⟩
    · cases as with
      | nil =>
        rw [List.append_nil] at hu
        exact .inl (hu.resolve_left hx)
      | cons a as =>
        obtain ⟨-, rfl⟩ := List.cons_eq_cons.mp hy
        exact .inr (by simp)
    · cases bs with
      | nil =>
        rw [List.append_nil] at hx ⊢
        exact .inl (hu.resolve_left hx)
      | cons b bs =>
        obtain ⟨rfl, -⟩ := List.cons_eq_cons.mp hv
        exact absurd (by simp) hx
  · rintro (hs | he)
    · exact ⟨xs, ys, rfl, .inr hs⟩
    · obtain ⟨as, bs, rfl⟩ := List.append_of_mem he
      exact ⟨xs ++ '=' :: as, bs, by simp, .inl (by simp)⟩

theorem exists_cut {cs : List Char} (h : ¬ Misordered cs) :
    ∃ dest comp jump, Cut cs dest comp jump := by
  have hrest : ∀ rest : List Char, '=' ∉ rest → ∃ comp jump, rest = comp ++ jumpPart jump ∧
      ('=' ∉ comp ∧ ';' ∉ comp) ∧ ∀ js ∈ jump, '=' ∉ js := by
    intro rest hr
    rcases splitOnce?_singleton ';' rest with ⟨comp, js, hc, rfl, -⟩ | ⟨hc, -⟩
    · simp only [List.mem_append, List.mem_cons, not_or] at hr
      refine ⟨comp, some js, rfl, ⟨hr.1, hc⟩, fun js' hj => ?_⟩
      cases hj
      exact hr.2.2
    · exact ⟨rest, none, (List.append_nil rest).symm, ⟨hr, hc⟩, nofun⟩
  rcases splitOnce?_singleton '=' cs with ⟨ds, rest, hd, rfl, -⟩ | ⟨hcs, -⟩
  · rw [misordered_append_cons_iff hd, not_or] at h
    obtain ⟨comp, jump, rfl, hcomp, hjump⟩ := hrest rest h.2
    refine ⟨some ds, comp, jump, by simp [destinationPart], fun ds' hds => ?_, hcomp, hjump⟩
    cases hds
    exact ⟨hd, h.1⟩
  · obtain ⟨comp, jump, rfl, hcomp, hjump⟩ := hrest cs hcs
    exact ⟨none, comp, jump, rfl, nofun, hcomp, hjump⟩

namespace Fields

/-- the parts without the blanks around them -/
def ofParts (dest : Option (List Char)) (comp : List Char) (jump : Option (List Char)) : Fields where
  dest := dest.map fun cs => String.ofList (trim cs)
  comp := String.ofList (trim comp)
  jump := jump.map fun cs => String.ofList (trim cs)

theorem parse_of_cut {text : String} {dest jump : Option (List Char)} {comp : List Char}
    (h : Cut text.toList dest comp jump) : parse text = .ok (ofParts dest comp jump) := by
  have hrest : '=' ∉ comp ++ jumpPart jump := by
    rw [List.mem_append, not_or]
    refine ⟨h.comp.1, ?_⟩
    cases jump with
    | none => exact List.not_mem_nil
    | some js => simp [jumpPart, h.jump js rfl]
  have hdest : dest.any (·.contains ';') = false := by
    cases dest with
    | none => rfl
    | some ds => simp [(h.dest ds rfl).2]
  have hordered : misordered dest (comp ++ jumpPart jump) = false := by
    rw [misordered, hdest, Bool.false_or, ← Bool.not_eq_true, List.contains_iff_mem]
    exact hrest
  simp only [parse, h.eq, cutDestination_part (fun ds hd => (h.dest ds hd).1) hrest,
    cutJump_part h.comp.2, hordered]
  rfl

theorem parse_of_misordered {text : String} (h : Misordered text.toList) :
    parse text = .error ⟨.malformedInstruction, text⟩ := by
  have hcut : misordered (cutDestination text.toList).1 (cutDestination text.toList).2 = true := by
    rcases splitOnce?_singleton '=' text.toList with ⟨ds, rest, hd, e, hsplit⟩ | ⟨hcs, -⟩
    · rw [e, misordered_append_cons_iff hd] at h
      rw [cutDestination, hsplit, misordered, Bool.or_eq_true, List.contains_iff_mem]
      exact h.imp_left List.contains_iff_mem.mpr
    · obtain ⟨xs, ys, e, -⟩ := h
      exact absurd (by simp [e]) hcs
  simp only [parse, hcut]
  rfl

end Fields

end HackAssembler
