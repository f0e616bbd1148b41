import HackAssembler.Program.Survey
import HackAssembler.Proofs.Statements

/-!
# Renamings: the same symbols under other names

* `Renaming`             a map of names that keeps them apart and leaves the predefined ones alone;
* `Directory.Renamed`, `SymbolTable.Renamed`   the same entries under other names: they answer alike
                         and take new names alike;
* `Line.Renamed`         the same line under other names;
* `mention?_renamed`, `Instruction.parse_renamed`   the two readings of an instruction.
-/

namespace HackAssembler

/-- names for names: distinct ones stay distinct, and a program keeps the predefined ones and takes
no further one of them -/
structure Renaming where
  map : String → String
  inj : ∀ a b, isName a → isName b → map a = map b → a = b
  fixes : ∀ name address, predefined.lookup name = some address → map name = name
  fresh : ∀ name, isName name → predefined.lookup name = none →
    isName (map name) ∧ predefined.lookup (map name) = none

namespace Renaming

instance : CoeFun Renaming fun _ => String → String := ⟨map⟩

/-- all names stay -/
def id : Renaming where
  map := fun name => name
  inj := fun _ _ _ _ h => h
  fixes := fun _ _ _ => rfl
  fresh := fun _ hn hp => ⟨hn, hp⟩

variable (f : Renaming) {name : String}

theorem isName_map (h : isName name) : isName (f name) := by
  cases hp : predefined.lookup name with
  | none => exact (f.fresh name h hp).1
  | some address => rwa [f.fixes name address hp]

theorem lookup_map (h : isName name) : predefined.lookup (f name) = predefined.lookup name := by
  cases hp : predefined.lookup name with
  | none => exact (f.fresh name h hp).2
  | some address => rw [f.fixes name address hp, hp]

/-- a list of entries under other names is searched alike -/
theorem lookup_entries {α β : Type} (g : α → β) {es : List (String × α)}
    (hes : ∀ e ∈ es, isName e.1) (h : isName name) :
    (es.map fun e => (f e.1, g e.2)).lookup (f name) = (es.lookup name).map g := by
  induction es with
  | nil => rfl
  | cons e es ih =>
    obtain ⟨other, value⟩ := e
    obtain ⟨he, hes⟩ := List.forall_mem_cons.mp hes
    rw [List.map_cons, List.lookup_cons, List.lookup_cons, ih hes]
    by_cases hne : name = other
    · simp [hne]
    · have hmap : f name ≠ f other := fun e => hne (f.inj _ _ h he e)
      rw [beq_false_of_ne hne, beq_false_of_ne hmap]

end Renaming

/-! ## faults -/

/-- the same cause, and the quoted piece may be a name under its other name -/
def Fault.Renamed (f : Renaming) (x y : Fault) : Prop :=
  y.cause = x.cause ∧ (y.quoted = x.quoted ∨ y.quoted = f x.quoted)

theorem Fault.Renamed.refl (f : Renaming) (x : Fault) : Fault.Renamed f x x := ⟨rfl, .inl rfl⟩

theorem Fault.renamed_name (f : Renaming) (cause : Cause) (name : String) :
    Fault.Renamed f ⟨cause, name⟩ ⟨cause, f name⟩ := ⟨rfl, .inr rfl⟩

theorem Fault.Renamed.eq_of_id {x y : Fault} (h : Fault.Renamed .id x y) : y = x := by
  obtain ⟨cause, quoted⟩ := x
  obtain ⟨cause', quoted'⟩ := y
  obtain ⟨rfl, rfl | rfl⟩ := h <;> rfl

/-! ## directories and tables -/

/-- the entries of `d` under other names, with values of another kind -/
structure Directory.Renamed {α β : Type} (f : Renaming) (g : α → β) (d : Directory α)
    (d' : Directory β) : Prop where
  toList : d'.toList = d.toList.map fun e => (f e.1, g e.2)
  isName : ∀ e ∈ d.toList, isName e.1

namespace Directory.Renamed

variable {α β : Type} {f : Renaming} {g : α → β} {d : Directory α} {d' : Directory β} {name : String}

theorem find? (h : Directory.Renamed f g d d') (hn : HackAssembler.isName name) :
    d'.find? (f name) = (d.find? name).map g := by
  rw [find?_eq, find?_eq, h.toList, f.lookup_entries g h.isName hn]

theorem contains (h : Directory.Renamed f g d d') (hn : HackAssembler.isName name) :
    d'.contains (f name) = d.contains name := by
  rw [Directory.contains, h.find? hn, Option.isSome_map, Directory.contains]

theorem insertIfNew (h : Directory.Renamed f g d d') (hn : HackAssembler.isName name) (value : α) :
    Directory.Renamed f g (d.insertIfNew name value) (d'.insertIfNew (f name) (g value)) := by
  constructor
  · rw [toList_insertIfNew, toList_insertIfNew, h.contains hn, h.toList]
    split
    · rfl
    · rw [List.map_append, List.map_singleton]
  · rw [toList_insertIfNew]
    split
    · exact h.isName
    · rw [List.forall_mem_append, List.forall_mem_singleton]
      exact ⟨h.isName, hn⟩

end Directory.Renamed

structure SymbolTable.Renamed (f : Renaming) (t t' : SymbolTable) : Prop where
  user : Directory.Renamed f id t.user t'.user
  nextVariable : t'.nextVariable = t.nextVariable

namespace SymbolTable.Renamed

variable {f : Renaming} {t t' : SymbolTable} {name : String}

theorem empty (f : Renaming) : SymbolTable.Renamed f .empty .empty where
  user := ⟨rfl, fun _ h => nomatch h⟩
  nextVariable := rfl

theorem entries (h : SymbolTable.Renamed f t t') :
    t'.entries = t.entries.map fun e => (f e.1, e.2) := h.user.toList

theorem lookup? (h : SymbolTable.Renamed f t t') (hn : isName name) :
    t'.lookup? (f name) = t.lookup? name := by
  rw [SymbolTable.lookup?, SymbolTable.lookup?, f.lookup_map hn, h.user.find? hn, Option.map_id]
  rfl

theorem contains (h : SymbolTable.Renamed f t t') (hn : isName name) :
    t'.contains (f name) = t.contains name := by
  rw [SymbolTable.contains, h.lookup? hn, SymbolTable.contains]

theorem address (h : SymbolTable.Renamed f t t') (hn : isName name) :
    Alike (Fault.Renamed f) Eq (t.address name) (t'.address (f name)) := by
  rw [SymbolTable.address, SymbolTable.address, h.lookup? hn]
  cases t.lookup? name with
  | none => exact .error (Fault.renamed_name f _ name)
  | some b => exact .ok rfl

theorem add (h : SymbolTable.Renamed f t t') (hn : isName name) (b : Binding) :
    Alike (Fault.Renamed f) (SymbolTable.Renamed f) (t.add name b) (t'.add (f name) b) := by
  by_cases hc : t.contains name
  · rw [add_of_contains hc, add_of_contains (h.contains hn ▸ hc)]
    exact .error (Fault.renamed_name f _ name)
  · obtain ⟨u, hu, hentries, hnext⟩ := add_of_not_contains hc b
    obtain ⟨u', hu', hentries', hnext'⟩ := add_of_not_contains (h.contains hn ▸ hc) b
    rw [hu, hu']
    refine .ok ⟨⟨?_, ?_⟩, ?_⟩
    · show u'.entries = u.entries.map _
      rw [hentries', hentries, h.entries, List.map_append, List.map_singleton]
      rfl
    · show ∀ e ∈ u.entries, isName e.1
      rw [hentries, List.forall_mem_append, List.forall_mem_singleton]
      exact ⟨h.user.isName, hn⟩
    · rw [hnext', hnext, h.nextVariable]

theorem takeVariable (h : SymbolTable.Renamed f t t') :
    SymbolTable.Renamed f t.takeVariable.2 t'.takeVariable.2 where
  user := h.user
  nextVariable := congrArg (· + 1) h.nextVariable

end SymbolTable.Renamed

/-! ## lines -/

/-- the same line under other names: a label, the symbol of an address statement, or nothing -/
inductive Line.Renamed (f : Renaming) : Line → Line → Prop
  | blank : Renamed f .blank .blank
  | label {name : String} (h : isName name) : Renamed f (.label name) (.label (f name))
  | symbol {text text' name : String} (h : operandText? text = some name) (hn : isName name)
      (h' : operandText? text' = some (f name)) : Renamed f (.instruction text) (.instruction text')
  | other {text : String} (h : ∀ name, operandText? text = some name → ¬ isName name) :
      Renamed f (.instruction text) (.instruction text)

theorem Line.renamed_id {raw : String} {line : Line} (h : Line.parse raw = .ok line) :
    Line.Renamed .id line line := by
  cases line with
  | blank => exact .blank
  | label name => exact .label (isName_of_definedLabel? (definedLabel?_eq_some_iff.mpr h))
  | instruction text =>
    by_cases hs : ∃ name, operandText? text = some name ∧ isName name
    · obtain ⟨name, ho, hn⟩ := hs
      exact .symbol ho hn ho
    · exact .other fun name ho hn => hs ⟨name, ho, hn⟩

section
variable {f : Renaming} {text text' : String}

/-- the first pass takes down the other name -/
theorem mention?_renamed (h : Line.Renamed f (.instruction text) (.instruction text')) :
    Alike (Fault.Renamed f) (fun m m' => m' = m.map f ∧ ∀ name ∈ m, isName name)
      (mention? text) (mention? text') := by
  cases h with
  | @symbol _ _ name ho hn ho' =>
    simp only [mention?, ho, ho', Operand.parse_name hn, Operand.parse_name (f.isName_map hn)]
    exact .ok ⟨rfl, fun _ h => Option.some.inj h ▸ hn⟩
  | other ho =>
    cases hm : mention? text with
    | error x => exact .error (Fault.Renamed.refl f x)
    | ok m =>
      have hnone : m = none := by
        rw [mention?_eq_ok hm, Option.filter_eq_none_iff]
        exact ho
      subst hnone
      exact .ok ⟨rfl, fun _ h => nomatch h⟩

/-- the second pass makes the same instruction of it -/
theorem Instruction.parse_renamed {t t' : SymbolTable} (ht : SymbolTable.Renamed f t t')
    (h : Line.Renamed f (.instruction text) (.instruction text')) :
    Alike (Fault.Renamed f) Eq (parse t text) (parse t' text') := by
  cases h with
  | @symbol _ _ name ho hn ho' =>
    rw [parse_symbol ho hn, parse_symbol ho' (f.isName_map hn)]
    refine (ht.address hn).bind ?_
    rintro value _ rfl
    cases ofAddress value with
    | error e => exact .error (Fault.renamed_name f _ name)
    | ok i => exact .ok rfl
  | other ho =>
    rw [parse_congr fun name hname hn => absurd hn (ho name hname)]
    cases parse t' text with
    | error x => exact .error (Fault.Renamed.refl f x)
    | ok i => exact .ok rfl

end

end HackAssembler
