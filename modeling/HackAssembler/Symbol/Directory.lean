import Std.Data.TreeMap.Lemmas

/-!
# Directories: names with a value each, in the order they came in

A directory keeps its entries in an array and finds a name through a search tree.  Names are never
rebound.

* `find?_eq`, `contains_iff_mem`   a search answers as the list of entries does;
* `toList_insertIfNew`             a new name goes to the end, a known one changes nothing.
-/

namespace HackAssembler

structure Directory (α : Type) where
  entries : Array (String × α)
  index : Std.TreeMap String α
  getElem?_index : ∀ name : String, index[name]? = entries.toList.lookup name
  names_nodup : (entries.toList.map (·.1)).Nodup

namespace Directory

variable {α : Type}

def empty : Directory α where
  entries := #[]
  index := ∅
  getElem?_index := fun _ => Std.TreeMap.getElem?_emptyc
  names_nodup := List.nodup_nil

def toList (d : Directory α) : List (String × α) := d.entries.toList

def names (d : Directory α) : List String := d.toList.map (·.1)

def find? (d : Directory α) (name : String) : Option α := d.index[name]?

def contains (d : Directory α) (name : String) : Bool := (d.find? name).isSome

theorem find?_eq (d : Directory α) (name : String) : d.find? name = d.toList.lookup name :=
  d.getElem?_index name

theorem isSome_lookup_iff (es : List (String × α)) (name : String) :
    (es.lookup name).isSome ↔ name ∈ es.map (·.1) := by
  induction es with
  | nil => simp
  | cons e es ih =>
    obtain ⟨n, v⟩ := e
    rw [List.lookup_cons, List.map_cons, List.mem_cons]
    by_cases h : name = n
    · simp [h]
    · rw [beq_false_of_ne h, ih]
      simp [h]

theorem contains_iff_mem (d : Directory α) (name : String) :
    d.contains name ↔ name ∈ d.names := by
  rw [contains, find?_eq, isSome_lookup_iff, names]

theorem nodup_names (d : Directory α) : d.names.Nodup := d.names_nodup

/-- adds a name at the end, unless it is there already -/
def insertIfNew (d : Directory α) (name : String) (value : α) : Directory α :=
  if h : d.contains name then
    d
  else
    { entries := d.entries.push (name, value)
      index := d.index.insert name value
      getElem?_index := by
        intro other
        have hn : d.entries.toList.lookup name = none := by
          rw [← Option.not_isSome_iff_eq_none, ← d.getElem?_index]
          exact h
        rw [Std.TreeMap.getElem?_insert, d.getElem?_index, Array.toList_push, List.lookup_append,
          List.lookup_cons, List.lookup_nil]
        by_cases e : name = other
        · subst e
          simp [hn]
        · rw [if_neg (mt Std.compare_eq_iff_eq.mp e), beq_false_of_ne (Ne.symm e), Option.or_none]
      names_nodup := by
        rw [Array.toList_push, List.map_append, List.nodup_append]
        refine ⟨d.names_nodup, by simp, ?_⟩
        rintro a ha b hb rfl
        rw [List.map_singleton, List.mem_singleton] at hb
        subst hb
        exact h ((d.contains_iff_mem _).mpr ha) }

theorem toList_insertIfNew (d : Directory α) (name : String) (value : α) :
    (d.insertIfNew name value).toList =
      if d.contains name then d.toList else d.toList ++ [(name, value)] := by
  rw [insertIfNew]
  split
  · rfl
  · exact Array.toList_push ..

end Directory

end HackAssembler
