import HackAssembler.Proofs.History

/-!
# One directory for all names

A table can also keep the predefined names in its directory, in front of the added ones, and pass
over them when its entries are listed.  Such a table answers all calls and queries as one that does
not store them.

* `SymbolTable.names_nodup`        the predefined names and the added ones all differ;
* `Directory.toList_ofEntries`     a directory keeps entries of different names as they are;
* `Joins`                          what the two tables have in common, and `exists_joins`: each
                                   table has such a joined one;
* `Joins.lookup?_eq`, `Joins.entries_eq`   hence they answer alike;
* `Joins.answer`, `joins_of_history`   one call, and any history.
-/

namespace HackAssembler

/-! ## directories of entries -/

section
variable {α : Type}

def Directory.insertAll (d : Directory α) (es : List (String × α)) : Directory α :=
  es.foldl (fun d e => d.insertIfNew e.1 e.2) d

/-- the directory of `es`, filled from the front -/
def Directory.ofEntries (es : List (String × α)) : Directory α := Directory.empty.insertAll es

theorem Directory.toList_insertAll {d : Directory α} {es : List (String × α)}
    (h : ((d.toList ++ es).map (·.1)).Nodup) : (d.insertAll es).toList = d.toList ++ es := by
  induction es generalizing d with
  | nil => exact (List.append_nil _).symm
  | cons e es ih =>
    have hsplit : d.toList ++ e :: es = d.toList ++ [e] ++ es := by simp
    have hnew : ¬ d.contains e.1 := by
      intro hc
      rw [List.map_append, List.nodup_append] at h
      exact h.2.2 e.1 ((d.contains_iff_mem e.1).mp hc) e.1 List.mem_cons_self rfl
    have hlist : (d.insertIfNew e.1 e.2).toList = d.toList ++ [e] := by
      rw [toList_insertIfNew, if_neg hnew]
    show ((d.insertIfNew e.1 e.2).insertAll es).toList = _
    rw [hsplit, ← hlist] at h
    rw [ih h, hlist, hsplit]

theorem Directory.toList_ofEntries {es : List (String × α)} (h : (es.map (·.1)).Nodup) :
    (ofEntries es).toList = es :=
  toList_insertAll h

end

/-! ## the predefined names as entries -/

def predefinedEntries : List (String × Binding) :=
  predefined.map fun (name, address) => (name, ⟨.predefined, address⟩)

theorem length_predefinedEntries : predefinedEntries.length = predefined.length :=
  List.length_map _

theorem map_fst_predefinedEntries : predefinedEntries.map (·.1) = predefined.map (·.1) :=
  List.map_map

theorem lookup_predefinedEntries (name : String) :
    predefinedEntries.lookup name = (predefined.lookup name).map (Binding.mk .predefined) := by
  rw [predefinedEntries]
  induction predefined with
  | nil => rfl
  | cons b bs ih =>
    obtain ⟨other, address⟩ := b
    rw [List.map_cons, List.lookup_cons, List.lookup_cons, ih]
    cases name == other <;> rfl

namespace SymbolTable

theorem names_nodup (t : SymbolTable) :
    ((predefinedEntries ++ t.entries).map (·.1)).Nodup := by
  rw [List.map_append, map_fst_predefinedEntries]
  refine List.nodup_append.mpr ⟨predefined_names_nodup, t.user.nodup_names, ?_⟩
  rintro name hp other hu rfl
  have hnone := t.lookup_predefined name hu
  rw [← Option.not_isSome_iff_eq_none, Directory.isSome_lookup_iff] at hnone
  exact hnone hp

theorem lookup?_eq_append (t : SymbolTable) (name : String) :
    t.lookup? name = (predefinedEntries ++ t.entries).lookup name := by
  rw [lookup?_eq, List.lookup_append, lookup_predefinedEntries]

end SymbolTable

/-! ## joined tables -/

structure JoinedTable where
  directory : Directory Binding
  nextVariable : Word

namespace JoinedTable

def empty : JoinedTable := ⟨.ofEntries predefinedEntries, firstVariable⟩

def lookup? (j : JoinedTable) (name : String) : Option Binding := j.directory.find? name

/-- the entries behind the predefined ones -/
def entries (j : JoinedTable) : List (String × Binding) :=
  j.directory.toList.drop predefined.length

def answer (j : JoinedTable) : Call → Reply × JoinedTable
  | .add name binding =>
    if j.directory.contains name then
      (.refused ⟨.redefinedLabel, name⟩, j)
    else
      (.added, { j with directory := j.directory.insertIfNew name binding })
  | .takeVariable => (.taken j.nextVariable, { j with nextVariable := j.nextVariable + 1 })

def after (j : JoinedTable) (calls : List Call) : JoinedTable :=
  calls.foldl (fun j c => (j.answer c).2) j

def replies (j : JoinedTable) : List Call → List (Call × Reply)
  | [] => []
  | c :: calls => (c, (j.answer c).1) :: (j.answer c).2.replies calls

end JoinedTable

/-- `j` keeps the predefined names and those of `t` -/
structure Joins (j : JoinedTable) (t : SymbolTable) : Prop where
  toList : j.directory.toList = predefinedEntries ++ t.entries
  nextVariable : j.nextVariable = t.nextVariable

theorem exists_joins (t : SymbolTable) : ∃ j, Joins j t := by
  refine ⟨⟨.ofEntries (predefinedEntries ++ t.entries), t.nextVariable⟩, ?_, rfl⟩
  dsimp only
  exact Directory.toList_ofEntries t.names_nodup

theorem joins_empty : Joins .empty .empty := by
  have hnodup : (predefinedEntries.map (·.1)).Nodup := by
    rw [map_fst_predefinedEntries]
    exact predefined_names_nodup
  refine ⟨?_, rfl⟩
  rw [SymbolTable.entries_empty, List.append_nil]
  dsimp only [JoinedTable.empty]
  exact Directory.toList_ofEntries hnodup

namespace Joins

variable {j : JoinedTable} {t : SymbolTable}

theorem lookup?_eq (h : Joins j t) (name : String) : j.lookup? name = t.lookup? name := by
  rw [JoinedTable.lookup?, Directory.find?_eq, h.toList, t.lookup?_eq_append]

theorem contains_eq (h : Joins j t) (name : String) :
    j.directory.contains name = t.contains name :=
  congrArg Option.isSome (h.lookup?_eq name)

theorem entries_eq (h : Joins j t) : j.entries = t.entries := by
  rw [JoinedTable.entries, h.toList, ← length_predefinedEntries, List.drop_append_length]

theorem answer (h : Joins j t) (c : Call) :
    (j.answer c).1 = (t.answer c).1 ∧ Joins (j.answer c).2 (t.answer c).2 := by
  cases c with
  | takeVariable =>
    refine ⟨congrArg Reply.taken h.nextVariable, h.toList, ?_⟩
    show j.nextVariable + 1 = t.nextVariable + 1
    rw [h.nextVariable]
  | add name b =>
    rw [JoinedTable.answer, h.contains_eq]
    by_cases hc : t.contains name
    · rw [if_pos hc, SymbolTable.answer_add_of_contains hc]
      exact ⟨rfl, h⟩
    · obtain ⟨t', -, he, hentries, hnext⟩ := SymbolTable.answer_add_of_not_contains hc b
      rw [if_neg hc, he]
      refine ⟨rfl, ?_, h.nextVariable.trans hnext.symm⟩
      rw [Directory.toList_insertIfNew, h.contains_eq, if_neg hc, h.toList, hentries,
        List.append_assoc]

theorem after (h : Joins j t) (calls : List Call) :
    j.replies calls = t.replies calls ∧ Joins (j.after calls) (t.after calls) := by
  induction calls generalizing j t with
  | nil => exact ⟨rfl, h⟩
  | cons c calls ih =>
    obtain ⟨hreply, hnext⟩ := h.answer c
    obtain ⟨hreplies, hafter⟩ := ih hnext
    refine ⟨?_, hafter⟩
    rw [JoinedTable.replies, SymbolTable.replies, hreply, hreplies]

end Joins

/-- **The predefined names need not be stored.**  Under any calls, a table that keeps them in front
of the others gives the same replies, lists the same entries and binds the same names. -/
theorem joins_of_history (calls : List Call) :
    JoinedTable.empty.replies calls = transcript calls ∧
    (JoinedTable.empty.after calls).entries = (tableAfter calls).entries ∧
    ∀ name, (JoinedTable.empty.after calls).lookup? name = (tableAfter calls).lookup? name := by
  obtain ⟨hreplies, hafter⟩ := joins_empty.after calls
  exact ⟨hreplies, hafter.entries_eq, hafter.lookup?_eq⟩

end HackAssembler
