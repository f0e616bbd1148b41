import HackAssembler.Fault
import HackAssembler.Symbol.Directory

/-!
# The symbol table

A table binds the predefined names and those that a program adds.  Names are case-sensitive and
never rebound, so the predefined names need not be stored.  A counter hands out the data cells of
variables.

* `entries_add`, `lookup?_add`   an added name stands at the end and answers from then on;
* `add_eq_error_iff`             only a name that is bound already is refused;
* `address_eq_ok_iff`, `contains_iff`   what a bound name is, seen from each query.
-/

namespace HackAssembler

/-- what the address of a symbol points at -/
inductive SymbolKind where
  /-- a cell every program knows -/
  | predefined
  /-- the instruction after the label -/
  | label
  /-- a data cell of the program -/
  | variable
  deriving DecidableEq, Repr

structure Binding where
  kind : SymbolKind
  address : Word
  deriving DecidableEq, Repr

structure SymbolTable where
  user : Directory Binding
  nextVariable : Word
  lookup_predefined : ∀ name ∈ user.names, predefined.lookup name = none

namespace SymbolTable

def empty : SymbolTable := ⟨.empty, firstVariable, fun _ h => nomatch h⟩

/-- the names the program added, in the order it added them -/
def entries (t : SymbolTable) : List (String × Binding) := t.user.toList

def lookup? (t : SymbolTable) (name : String) : Option Binding :=
  match predefined.lookup name with
  | some address => some ⟨.predefined, address⟩
  | none => t.user.find? name

def contains (t : SymbolTable) (name : String) : Bool := (t.lookup? name).isSome

def kind? (t : SymbolTable) (name : String) : Option SymbolKind := (t.lookup? name).map (·.kind)

def address (t : SymbolTable) (name : String) : Except Fault Word :=
  match t.lookup? name with
  | some b => .ok b.address
  | none => .error ⟨.undefinedSymbol, name⟩

theorem contains_iff {t : SymbolTable} {name : String} :
    t.contains name ↔ (predefined.lookup name).isSome ∨ name ∈ t.user.names := by
  rw [contains, lookup?]
  cases predefined.lookup name with
  | some a => simp
  | none =>
    simp only [Option.isSome_none, Bool.false_eq_true, false_or]
    exact t.user.contains_iff_mem name

theorem not_contains {t : SymbolTable} {name : String} (h : ¬ t.contains name) :
    predefined.lookup name = none ∧ ¬ t.user.contains name := by
  rw [contains_iff, not_or] at h
  exact ⟨Option.not_isSome_iff_eq_none.mp h.1, mt (t.user.contains_iff_mem name).mp h.2⟩

/-- binds a new name -/
def add (t : SymbolTable) (name : String) (binding : Binding) : Except Fault SymbolTable :=
  if h : t.contains name then
    .error ⟨.redefinedLabel, name⟩
  else
    .ok
      { t with
        user := t.user.insertIfNew name binding
        lookup_predefined := by
          intro other ho
          rw [Directory.names, Directory.toList_insertIfNew, if_neg (not_contains h).2,
            List.map_append, List.mem_append] at ho
          rcases ho with ho | ho
          · exact t.lookup_predefined other ho
          · rw [List.map_singleton, List.mem_singleton] at ho
            exact ho ▸ (not_contains h).1 }

/-- hands out a data cell; the counter is taken modulo the word size -/
def takeVariable (t : SymbolTable) : Word × SymbolTable :=
  (t.nextVariable, { t with nextVariable := t.nextVariable + 1 })

/-! ## queries -/

@[simp] theorem entries_empty : empty.entries = [] := rfl

theorem lookup?_eq (t : SymbolTable) (name : String) :
    t.lookup? name =
      ((predefined.lookup name).map (Binding.mk .predefined)).or (t.entries.lookup name) := by
  rw [lookup?, t.user.find?_eq]
  cases predefined.lookup name <;> rfl

theorem address_eq_ok_iff {t : SymbolTable} {name : String} {a : Word} :
    t.address name = .ok a ↔ ∃ b, t.lookup? name = some b ∧ b.address = a := by
  rw [address]
  cases t.lookup? name <;> simp

theorem address_of_not_contains {t : SymbolTable} {name : String} (h : ¬ t.contains name) :
    t.address name = .error ⟨.undefinedSymbol, name⟩ := by
  rw [address, Option.not_isSome_iff_eq_none.mp h]

/-! ## additions -/

theorem add_of_contains {t : SymbolTable} {name : String} (h : t.contains name)
    (binding : Binding) : t.add name binding = .error ⟨.redefinedLabel, name⟩ := by
  rw [add, dif_pos h]

theorem add_of_not_contains {t : SymbolTable} {name : String} (h : ¬ t.contains name)
    (binding : Binding) :
    ∃ t', t.add name binding = .ok t' ∧ t'.entries = t.entries ++ [(name, binding)]
      ∧ t'.nextVariable = t.nextVariable := by
  rw [add, dif_neg h]
  refine ⟨_, rfl, ?_, rfl⟩
  exact (t.user.toList_insertIfNew name binding).trans (if_neg (not_contains h).2)

theorem add_eq_error_iff {t : SymbolTable} {name : String} {binding : Binding} {f : Fault} :
    t.add name binding = .error f ↔ t.contains name ∧ f = ⟨.redefinedLabel, name⟩ := by
  by_cases h : t.contains name
  · simp [add_of_contains h, h, eq_comm]
  · obtain ⟨t', e, -⟩ := add_of_not_contains h binding
    simp [e, h]

theorem entries_add {t t' : SymbolTable} {name : String} {binding : Binding}
    (h : t.add name binding = .ok t') : t'.entries = t.entries ++ [(name, binding)] := by
  by_cases hc : t.contains name
  · simp [add_of_contains hc] at h
  · obtain ⟨u, e, he, -⟩ := add_of_not_contains hc binding
    cases e.symm.trans h
    exact he

theorem lookup?_add {t t' : SymbolTable} {name : String} {binding : Binding}
    (h : t.add name binding = .ok t') (other : String) :
    t'.lookup? other = if other = name then some binding else t.lookup? other := by
  have hc : ¬ t.contains name := fun hc => by simp [add_of_contains hc] at h
  rw [lookup?_eq, lookup?_eq, entries_add h, List.lookup_append, List.lookup_cons, List.lookup_nil]
  by_cases e : other = name
  · subst e
    have hn := Option.not_isSome_iff_eq_none.mp hc
    rw [lookup?_eq, Option.or_eq_none_iff] at hn
    simp [hn]
  · rw [if_neg e, beq_false_of_ne e, Option.or_none]

end SymbolTable

end HackAssembler
