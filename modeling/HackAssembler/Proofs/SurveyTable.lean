import HackAssembler.Proofs.Allocation
import HackAssembler.Proofs.FirstPass

/-!
# The table of a survey: labels, then variables

* `Surveyed`            the table of a program, told from its lines;
* `surveyed_of_survey`   what a survey returns is such a table, whatever the second pass does with it;
* `Surveyed.lookup?_label`, `Surveyed.lookup?_variable`   what the names are bound to;
* `rows_of_survey`      the rows of the table, with exact addresses.
-/

namespace HackAssembler

/-! ## from the walk to the table -/

namespace Survey

variable {lines : List String} {s : Survey}

theorem Describes.unbound_mentions (h : Describes lines s) :
    unbound s.table s.mentions.toList =
      (variableNames lines).map fun name => (name, firstMention lines name) := by
  rw [unbound, h.mentions, firstMentions, variableNames, List.filter_map]
  congr 1
  refine List.filter_congr fun name _ => ?_
  rw [Function.comp_apply, h.contains_eq, Bool.not_not]

theorem survey_of_walk (hw : walk step 0 lines .empty = .ok s) :
    survey lines = allocate s.mentions.toList s.table := by
  rw [survey, hw]

theorem Describes.allocate_ok (h : Describes lines s) (hfit : (variableNames lines).length ≤ 32752) :
    ∃ t, allocate s.mentions.toList s.table = .ok t ∧
      t.entries = s.table.entries ++ cells 16 (variableNames lines) := by
  have hlen : 16 + (unbound s.table s.mentions.toList).length ≤ 32768 := by
    rw [h.unbound_mentions, List.length_map]
    omega
  obtain ⟨t, ht, he⟩ := allocate_eq_ok _ s.table 16 s.mentions.nodup_names h.nextVariable hlen
  refine ⟨t, ht, he.trans ?_⟩
  rw [h.unbound_mentions, List.map_map]
  exact congrArg (fun ns => s.table.entries ++ cells 16 ns) (List.map_id _)

theorem Describes.allocate_error (h : Describes lines s) {name : String}
    (hname : (variableNames lines)[32752]? = some name) :
    allocate s.mentions.toList s.table =
      .error ⟨firstMention lines name, ⟨.outOfRange, name⟩⟩ := by
  refine allocate_eq_error _ s.table 16 s.mentions.nodup_names h.nextVariable (by omega) name
    (firstMention lines name) ?_
  rw [h.unbound_mentions, List.getElem?_map]
  exact congrArg _ hname

end Survey

/-- the symbol table of the program `lines` -/
structure Surveyed (lines : List String) (t : SymbolTable) : Prop where
  entries : t.entries =
    ((labels lines).map fun l => (l.1, ⟨.label, .ofNat l.2⟩)) ++ cells 16 (variableNames lines)
  labels_le : ∀ l ∈ labels lines, l.2 % UInt32.size ≤ maxAddress.toNat
  variables_le : (variableNames lines).length ≤ 32752
  readable : ∀ raw ∈ lines, Readable raw

theorem surveyed_of_survey {lines : List String} {t : SymbolTable} (h : survey lines = .ok t) :
    Surveyed lines t := by
  cases hw : walk Survey.step 0 lines .empty with
  | error e =>
    rw [survey, hw] at h
    cases h
  | ok s =>
    have hs := Survey.keeps.inv_of_walk Survey.describes_empty hw
    rw [Survey.survey_of_walk hw] at h
    have hfit : (variableNames lines).length ≤ 32752 := by
      by_contra hlong
      have hget := List.getElem?_eq_getElem (show 32752 < (variableNames lines).length by omega)
      rw [hs.allocate_error hget] at h
      cases h
    obtain ⟨t', ht, he⟩ := hs.allocate_ok hfit
    cases ht.symm.trans h
    exact ⟨by rw [he, hs.entries], hs.labels_le, hfit, hs.readable⟩

/-! ## lookups -/

theorem lookup_of_mem {α : Type} {es : List (String × α)} (hnd : (es.map (·.1)).Nodup)
    {name : String} {b : α} (h : (name, b) ∈ es) : es.lookup name = some b := by
  obtain ⟨as, bs, rfl⟩ := List.append_of_mem h
  refine List.lookup_eq_some_iff.mpr ⟨as, bs, rfl, fun e he => ?_⟩
  rw [List.map_append, List.map_cons] at hnd
  have hne := (List.nodup_append.mp hnd).2.2 e.1 (List.mem_map_of_mem he) name List.mem_cons_self
  simpa using Ne.symm hne

/-- an entry of a table is what its name is bound to -/
theorem SymbolTable.lookup?_of_mem {t : SymbolTable} {name : String} {b : Binding}
    (h : (name, b) ∈ t.entries) : t.lookup? name = some b := by
  have hp : predefined.lookup name = none :=
    t.lookup_predefined name (List.mem_map_of_mem h)
  have he : t.entries.lookup name = some b := lookup_of_mem t.user.nodup_names h
  rw [lookup?_eq, hp, he]
  rfl

theorem mem_cells_iff {n : Nat} {names : List String} {e : String × Binding} :
    e ∈ cells n names ↔ ∃ j name, names[j]? = some name ∧ e = (name, ⟨.variable, .ofNat (n + j)⟩) := by
  rw [List.mem_iff_getElem?]
  simp only [cells, List.getElem?_mapIdx, Option.map_eq_some_iff]
  grind

namespace Surveyed

variable {lines : List String} {t : SymbolTable}

theorem lookup?_label (h : Surveyed lines t) {l : String × Nat} (hl : l ∈ labels lines) :
    t.lookup? l.1 = some ⟨.label, .ofNat l.2⟩ := by
  apply SymbolTable.lookup?_of_mem
  rw [h.entries, List.mem_append]
  exact .inl (List.mem_map.mpr ⟨l, hl, rfl⟩)

theorem lookup?_variable (h : Surveyed lines t) {j : Nat} {name : String}
    (hj : (variableNames lines)[j]? = some name) :
    t.lookup? name = some ⟨.variable, .ofNat (16 + j)⟩ := by
  apply SymbolTable.lookup?_of_mem
  rw [h.entries, List.mem_append]
  exact .inr (mem_cells_iff.mpr ⟨j, name, hj, rfl⟩)

end Surveyed

/-! ## rows -/

/-- the names a program added to a table, with kinds and addresses -/
def SymbolTable.rows (t : SymbolTable) : List (String × SymbolKind × Nat) :=
  t.entries.map fun e => (e.1, e.2.kind, e.2.address.toNat)

/-- the names of one kind with their addresses -/
def SymbolTable.addresses (t : SymbolTable) (kind : SymbolKind) : List (String × Nat) :=
  t.rows.filterMap fun r => if r.2.1 = kind then some (r.1, r.2.2) else none

/-- each label with the number of instruction lines above it -/
def labelRows (lines : List String) : List (String × SymbolKind × Nat) :=
  (labels lines).map fun l => (l.1, .label, l.2)

/-- the variables with consecutive data cells -/
def variableRows (lines : List String) : List (String × SymbolKind × Nat) :=
  (variableNames lines).mapIdx fun j name => (name, .variable, 16 + j)

theorem mem_variableRows {lines : List String} {r : String × SymbolKind × Nat} :
    r ∈ variableRows lines ↔
      ∃ j name, (variableNames lines)[j]? = some name ∧ r = (name, .variable, 16 + j) := by
  rw [List.mem_iff_getElem?]
  simp only [variableRows, List.getElem?_mapIdx, Option.map_eq_some_iff]
  grind

section
variable {lines : List String} {r q : String × SymbolKind × Nat}

theorem mem_labelRows_of_kind (hr : r ∈ labelRows lines ++ variableRows lines)
    (hk : r.2.1 = .label) : r ∈ labelRows lines := by
  rcases List.mem_append.mp hr with hl | hv
  · exact hl
  · obtain ⟨j, name, -, rfl⟩ := mem_variableRows.mp hv
    cases hk

theorem mem_variableRows_of_kind (hr : r ∈ labelRows lines ++ variableRows lines)
    (hk : r.2.1 = .variable) : r ∈ variableRows lines := by
  rcases List.mem_append.mp hr with hl | hv
  · obtain ⟨l, -, rfl⟩ := List.mem_map.mp hl
    cases hk
  · exact hv

/-- different variables have different cells -/
theorem variableRows_inj (hr : r ∈ variableRows lines) (hq : q ∈ variableRows lines)
    (h : r.2.2 = q.2.2) : r = q := by
  obtain ⟨i, name, hi, rfl⟩ := mem_variableRows.mp hr
  obtain ⟨j, other, hj, rfl⟩ := mem_variableRows.mp hq
  have hij : i = j := Nat.add_left_cancel h
  subst hij
  rw [hi] at hj
  cases hj
  rfl

end

theorem label_le_instructionCount {lines : List String} {l : String × Nat} (h : l ∈ labels lines) :
    l.2 ≤ instructionCount lines := by
  obtain ⟨e, -, he⟩ := List.mem_filterMap.mp h
  obtain ⟨name, -, rfl⟩ := Option.map_eq_some_iff.mp he
  exact instructionCount_mono (List.take_prefix e.2 lines)

theorem isName_of_mem_labelNames {lines : List String} {name : String}
    (h : name ∈ labelNames lines) : isName name := by
  obtain ⟨raw, -, hl⟩ := List.mem_filterMap.mp h
  exact isName_of_definedLabel? hl

theorem isName_of_mem_mentionedNames {lines : List String} {name : String}
    (h : name ∈ mentionedNames lines) : isName name := by
  obtain ⟨raw, -, hm⟩ := mem_mentionedNames.mp h
  obtain ⟨text, -, -, hn⟩ := mentionedSymbol?_eq_some_iff.mp hm
  exact hn

namespace Surveyed

variable {lines : List String} {t : SymbolTable}

theorem label_le (h : Surveyed lines t) (hn : instructionCount lines < UInt32.size) {l : String × Nat}
    (hl : l ∈ labels lines) : l.2 ≤ 32767 := by
  have hle : l.2 % UInt32.size ≤ 32767 := h.labels_le l hl
  rwa [Nat.mod_eq_of_lt (Nat.lt_of_le_of_lt (label_le_instructionCount hl) hn)] at hle

theorem variable_le (h : Surveyed lines t) {j : Nat} {name : String}
    (hj : (variableNames lines)[j]? = some name) : 16 + j ≤ 32767 := by
  have hlt : j < (variableNames lines).length := (List.getElem?_eq_some_iff.mp hj).1
  have hle := h.variables_le
  omega

theorem rows_eq (h : Surveyed lines t) (hn : instructionCount lines < UInt32.size) :
    t.rows = labelRows lines ++ variableRows lines := by
  rw [SymbolTable.rows, h.entries, List.map_append, labelRows, variableRows]
  congr 1
  · rw [List.map_map]
    refine List.map_congr_left fun l hl => ?_
    have hle := h.label_le hn hl
    show (l.1, SymbolKind.label, (UInt16.ofNat l.2).toNat) = _
    rw [toNat_ofNat_of_le (by omega)]
  · refine List.ext_getElem? fun j => ?_
    rw [List.getElem?_map, cells, List.getElem?_mapIdx, List.getElem?_mapIdx, Option.map_map]
    cases hj : (variableNames lines)[j]? with
    | none => rfl
    | some name =>
      have hle := h.variable_le hj
      show some (name, SymbolKind.variable, (UInt16.ofNat (16 + j)).toNat) = _
      rw [toNat_ofNat_of_le (by omega)]
      rfl

theorem addresses_label (h : Surveyed lines t) (hn : instructionCount lines < UInt32.size) :
    t.addresses .label = labels lines := by
  have hnone : (variableRows lines).filterMap
      (fun r => if r.2.1 = .label then some (r.1, r.2.2) else none) = [] := by
    refine List.filterMap_eq_nil_iff.mpr fun r hr => ?_
    obtain ⟨j, name, -, rfl⟩ := mem_variableRows.mp hr
    rfl
  rw [SymbolTable.addresses, h.rows_eq hn, List.filterMap_append, hnone, List.append_nil, labelRows,
    List.filterMap_map]
  exact List.filterMap_some

theorem addresses_variable (h : Surveyed lines t) (hn : instructionCount lines < UInt32.size) :
    t.addresses .variable = (variableNames lines).mapIdx fun j name => (name, 16 + j) := by
  have hnone : (labelRows lines).filterMap
      (fun r => if r.2.1 = .variable then some (r.1, r.2.2) else none) = [] := by
    refine List.filterMap_eq_nil_iff.mpr fun r hr => ?_
    obtain ⟨l, -, rfl⟩ := List.mem_map.mp hr
    rfl
  have hall : (variableRows lines).filterMap
      (fun r => if r.2.1 = .variable then some (r.1, r.2.2) else none) =
      (variableRows lines).map fun r => (r.1, r.2.2) := by
    refine List.filterMap_eq_map_iff_forall_eq_some.mpr fun r hr => ?_
    obtain ⟨j, name, -, rfl⟩ := mem_variableRows.mp hr
    rfl
  rw [SymbolTable.addresses, h.rows_eq hn, List.filterMap_append, hnone, List.nil_append, hall,
    variableRows, List.mapIdx_eq_zipIdx_map, List.mapIdx_eq_zipIdx_map, List.map_map]
  rfl

theorem names_eq (h : Surveyed lines t) :
    t.rows.map (·.1) = labelNames lines ++ variableNames lines := by
  have hcells : (cells 16 (variableNames lines)).map (·.1) = variableNames lines := by
    refine List.ext_getElem? fun j => ?_
    rw [List.getElem?_map, cells, List.getElem?_mapIdx, Option.map_map]
    exact Option.map_id_apply
  rw [SymbolTable.rows, List.map_map, h.entries, List.map_append, List.map_map, ← map_fst_labels]
  exact congrArg _ hcells

/-- every mentioned symbol is predefined, a label or a variable -/
theorem contains_of_mentioned (h : Surveyed lines t) {name : String}
    (hm : name ∈ mentionedNames lines) : t.contains name := by
  by_cases hfree : isFree lines name
  · obtain ⟨j, hj⟩ := List.mem_iff_getElem?.mp (List.mem_filter.mpr ⟨hm, hfree⟩)
    rw [SymbolTable.contains, h.lookup?_variable hj]
    rfl
  · rw [isFree_iff, not_and, not_not] at hfree
    cases hp : predefined.lookup name with
    | some a =>
      rw [SymbolTable.contains, SymbolTable.lookup?, hp]
      rfl
    | none =>
      have hl := hfree hp
      rw [← map_fst_labels] at hl
      obtain ⟨l, hmem, rfl⟩ := List.mem_map.mp hl
      rw [SymbolTable.contains, h.lookup?_label hmem]
      rfl

theorem kind?_label (h : Surveyed lines t) {name : String} (hl : name ∈ labelNames lines) :
    t.kind? name = some .label := by
  rw [← map_fst_labels] at hl
  obtain ⟨l, hmem, rfl⟩ := List.mem_map.mp hl
  rw [SymbolTable.kind?, h.lookup?_label hmem]
  rfl

theorem isName_of_mem_rows (h : Surveyed lines t) {r : String × SymbolKind × Nat}
    (hr : r ∈ t.rows) : isName r.1 := by
  have hname : r.1 ∈ labelNames lines ++ variableNames lines := by
    rw [← h.names_eq]
    exact List.mem_map_of_mem hr
  rcases List.mem_append.mp hname with hl | hv
  · exact isName_of_mem_labelNames hl
  · exact isName_of_mem_mentionedNames (List.mem_filter.mp hv).1

end Surveyed

/-- **The table of the first pass**: the labels in the order of their definitions, then the
variables in the order of their first mentions.  Names are valid, distinct and not predefined,
addresses fit into an instruction, a label never takes a data cell, and every mentioned symbol is
bound. -/
theorem rows_of_survey {lines : List String} {t : SymbolTable}
    (hn : instructionCount lines < UInt32.size) (h : survey lines = .ok t) :
    t.rows = labelRows lines ++ variableRows lines ∧
    (t.rows.map (·.1)).Nodup ∧
    (∀ r ∈ t.rows, isName r.1 ∧ predefined.lookup r.1 = none) ∧
    (∀ r ∈ t.rows, r.2.1 = .label → r.2.2 ≤ 32767) ∧
    (∀ r ∈ t.rows, r.2.1 = .variable → 16 ≤ r.2.2 ∧ r.2.2 ≤ 32767) ∧
    (∀ r ∈ t.rows, ∀ q ∈ t.rows, r.2.1 = .variable → q.2.1 = .variable → r.2.2 = q.2.2 → r = q) ∧
    (∀ name ∈ labelNames lines, name ∉ variableNames lines ∧ t.kind? name = some .label) ∧
    ∀ name ∈ mentionedNames lines, t.contains name := by
  have hs := surveyed_of_survey h
  have hrows := hs.rows_eq hn
  have hnames : t.rows.map (·.1) = t.user.names := by
    rw [SymbolTable.rows, List.map_map]
    rfl
  refine ⟨hrows, ?_, fun r hr => ⟨hs.isName_of_mem_rows hr, ?_⟩, ?_, ?_, ?_, ?_,
    fun name => hs.contains_of_mentioned⟩
  · rw [hnames]
    exact t.user.nodup_names
  · exact t.lookup_predefined r.1 (hnames ▸ List.mem_map_of_mem hr)
  · intro r hr hk
    rw [hrows] at hr
    obtain ⟨l, hmem, rfl⟩ := List.mem_map.mp (mem_labelRows_of_kind hr hk)
    exact hs.label_le hn hmem
  · intro r hr hk
    rw [hrows] at hr
    obtain ⟨j, name, hj, rfl⟩ := mem_variableRows.mp (mem_variableRows_of_kind hr hk)
    exact ⟨Nat.le_add_right 16 j, hs.variable_le hj⟩
  · intro r hr q hq hkr hkq hrq
    rw [hrows] at hr hq
    exact variableRows_inj (mem_variableRows_of_kind hr hkr) (mem_variableRows_of_kind hq hkq) hrq
  · intro name hl
    refine ⟨fun hv => ?_, hs.kind?_label hl⟩
    exact (isFree_iff.mp (List.mem_filter.mp hv).2).2 hl

theorem rows_of_survey_countdown :
    ∃ t, survey countdown = .ok t ∧ instructionCount countdown < UInt32.size ∧
      t.rows = [("LOOP", .label, 2), ("END", .label, 8), ("n", .variable, 16)] := by
  have hn : instructionCount countdown < UInt32.size := by decide +kernel
  obtain ⟨t, h⟩ : ∃ t, survey countdown = .ok t := exists_of_isOk (by decide +kernel)
  have hrows := (rows_of_survey hn h).1
  exact ⟨t, h, hn, hrows.trans (by decide +kernel)⟩

end HackAssembler
