import HackAssembler.Proofs.Displacement

/-!
# Extension: more lines below a program

Variables get their cells when all lines have been read, so more lines could move them.  They do
not: the variables of the first part come first, unless a later label takes the name of one.

* `carried_left`            a name of the first part keeps its address;
* `Assembled.code_isPrefix`   the code of the first part stays in place;
* `assemble_of_append`      what stands above is assembled by itself, to the same code.
-/

namespace HackAssembler

section
variable {xs ys : List String}

theorem carried_left (h : Undisturbed xs ys) (name : String) : Carried .zero xs (xs ++ ys) name := by
  refine ⟨fun k hk => ?_, fun j hj => ?_⟩
  · rw [labels_append]
    exact List.mem_append_left _ hk
  · obtain ⟨rest, hrest⟩ := variableNames_isPrefix h
    have hlt : j < (variableNames xs).length := (List.getElem?_eq_some_iff.mp hj).1
    rw [← hrest]
    exact (List.getElem?_append_left hlt).trans hj

theorem Surveyed.lookup?_left {t u : SymbolTable} (ht : Surveyed xs t) (hu : Surveyed (xs ++ ys) u)
    (h : Undisturbed xs ys) {name : String} {b : Binding} (hb : t.lookup? name = some b) :
    u.lookup? name = some b := by
  rw [ht.lookup?_carried hu (carried_left h name) hb, Binding.displaced_zero]

namespace Assembled

variable {a c : Assembly}

theorem code_left (ha : Assembled xs a) (hc : Assembled (xs ++ ys) c) (h : Undisturbed xs ys)
    {k : Nat} {x : Placed} (hx : a.code[k]? = some x) : c.code[k]? = some x := by
  have hline : ∀ text, (instructionLines xs)[k]? = some (x.line, text) →
      (instructionLines (xs ++ ys))[k]? = some (x.line, text) := by
    intro text hl
    rw [instructionLines_append, List.getElem?_append_left (List.getElem?_eq_some_iff.mp hl).1, hl]
  have hplace := ha.code_carried (o := .zero) hc (fun name _ => carried_left h name) hx hline
  rwa [Placed.displaced_zero] at hplace

theorem code_isPrefix (ha : Assembled xs a) (hc : Assembled (xs ++ ys) c) (h : Undisturbed xs ys) :
    a.code <+: c.code := by
  rw [List.prefix_iff_getElem?]
  intro k hk
  exact ha.code_left hc h (List.getElem?_eq_getElem hk)

end Assembled

end

/-- **More lines never change what stands above them**, if none of their labels has a name that is
used above and not defined there. -/
theorem assemble_of_append {p q : List String} {c : Assembly} (h : assemble (p ++ q) = .ok c)
    (hq : ∀ name ∈ labelNames q, name ∈ mentionedNames p → name ∈ labelNames p) :
    ∃ a, assemble p = .ok a ∧ a.code <+: c.code ∧
      ∀ name b, a.table.lookup? name = some b → c.table.lookup? name = some b := by
  have hapart : Undisturbed p q := fun name hm hl => hq name hl hm
  obtain ⟨a, ha⟩ := exists_assemble_iff.mpr ((exists_assemble_iff.mp ⟨c, h⟩).of_append hapart)
  have hp := assembled_of_assemble ha
  have hpq := assembled_of_assemble h
  refine ⟨a, ha, hp.code_isPrefix hpq hapart, fun name b hb => ?_⟩
  exact hp.table.lookup?_left hpq.table hapart hb

/-- lines that use a label and the variable of `countdown`, and have a label of their own -/
theorem assemble_of_append_countdown :
    ∃ c, assemble (countdown ++ ["@total", "M=D", "(STOP)", "@n", "@LOOP"]) = .ok c ∧
      ∃ a, assemble countdown = .ok a ∧ a.code <+: c.code ∧
        c.table.lookup? "n" = some ⟨.variable, 16⟩ := by
  obtain ⟨c, hc⟩ : ∃ c, assemble (countdown ++ ["@total", "M=D", "(STOP)", "@n", "@LOOP"]) = .ok c :=
    exists_of_isOk (by decide +kernel)
  have hlabels : ∀ name ∈ labelNames ["@total", "M=D", "(STOP)", "@n", "@LOOP"],
      name ∈ mentionedNames countdown → name ∈ labelNames countdown := by decide +kernel
  obtain ⟨a, ha, hprefix, hkeep⟩ := assemble_of_append hc hlabels
  have hn : (assemble countdown).map (·.table.lookup? "n") = .ok (some ⟨.variable, 16⟩) := by
    decide +kernel
  rw [ha] at hn
  exact ⟨c, hc, a, ha, hprefix, hkeep "n" _ (Except.ok.inj hn)⟩

end HackAssembler
