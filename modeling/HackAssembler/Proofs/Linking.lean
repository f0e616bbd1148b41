import HackAssembler.Proofs.Extension

/-!
# Linking: two programs in a row

Two programs without a common symbol are assembled in a row as they are by themselves, but that the
second one has moved: its labels by the instructions of the first one, its variables by the
variables of the first one.

* `Assembly.extent`         how far a program moves what follows it;
* `carried_right`           a name of the second part keeps its meaning, and has moved;
* `Assembled.code_append`   the code of both parts;
* `Assembled.encode_displaced`   the word of an instruction that has moved;
* `assemble_linked`         the two programs in a row.
-/

namespace HackAssembler

/-- how far a program moves what follows it -/
def Assembly.extent (a : Assembly) (lines : List String) : Offset :=
  ⟨lines.length, a.code.length, (a.table.addresses .variable).length⟩

/-- the same, told from the lines -/
def extent (lines : List String) : Offset :=
  ⟨lines.length, instructionCount lines, (variableNames lines).length⟩

/-! ## words -/

/-- a value that has grown and still fits shows in the word -/
theorem Instruction.encode_advance {value : Word} {d : Nat} (hv : value ≤ maxAddress)
    (hd : d ≤ 32767) (hfit : value + .ofNat d ≤ maxAddress) :
    ((address value).advance d).encode.toNat = (address value).encode.toNat + d := by
  have hle : value.toNat ≤ 32767 := UInt16.le_iff_toNat_le.mp hv
  rw [advance, encode_address hfit, encode_address hv, UInt16.toNat_add, UInt16.toNat_ofNat']
  omega

namespace Offset

variable {o : Offset} {t : SymbolTable}

theorem distance_le {n : Nat} (hi : o.instructions ≤ n) (hc : o.cells ≤ n) (kind : SymbolKind) :
    o.distance kind ≤ n := by
  cases kind with
  | predefined => exact Nat.zero_le n
  | label => exact hi
  | «variable» => exact hc

theorem displacement_le {n : Nat} (hi : o.instructions ≤ n) (hc : o.cells ≤ n)
    (t : SymbolTable) (raw : String) : o.displacement t raw ≤ n := by
  unfold displacement
  cases (mentionedSymbol? raw).bind t.kind? with
  | none => exact Nat.zero_le n
  | some kind => exact distance_le hi hc kind

/-- a program without symbols of its own does not notice that it has moved -/
theorem displacement_of_entries_nil (h : t.entries = []) (raw : String) :
    o.displacement t raw = 0 := by
  unfold displacement
  cases hk : (mentionedSymbol? raw).bind t.kind? with
  | none => rfl
  | some kind =>
    obtain ⟨name, -, hname⟩ := Option.bind_eq_some_iff.mp hk
    rw [SymbolTable.kind?, SymbolTable.lookup?_eq, h] at hname
    cases hp : predefined.lookup name with
    | none =>
      rw [hp] at hname
      cases hname
    | some address =>
      rw [hp] at hname
      cases hname
      rfl

end Offset

namespace Assembled

variable {lines : List String} {a : Assembly}

theorem extent_eq (h : Assembled lines a) : a.extent lines = extent lines := by
  rw [Assembly.extent, h.length_code, h.table.addresses_variable h.count_lt, List.length_mapIdx]
  rfl

theorem encode_displaced (h : Assembled lines a) {o : Offset} (hi : o.instructions ≤ 32767)
    (hc : o.cells ≤ 32767) {k : Nat} {x : Placed} (hx : a.code[k]? = some x)
    (hfit : (x.displaced o lines a.table).instruction.Encodable) :
    (x.displaced o lines a.table).instruction.encode.toNat =
      x.instruction.encode.toNat + x.displacement o lines a.table := by
  obtain ⟨raw, text, hraw, ht, hparse⟩ := h.exists_line hx
  have hd := Placed.displacement_eq o a.table hraw
  cases hm : mentionedSymbol? raw with
  | none =>
    rw [Offset.displacement_of_none hm] at hd
    rw [Placed.displaced, hd, Instruction.advance_zero, Nat.add_zero]
  | some name =>
    obtain ⟨text', ht', ho, -⟩ := mentionedSymbol?_eq_some_iff.mp hm
    obtain rfl := Option.some.inj (ht.symm.trans ht')
    obtain ⟨value, hvalue, hle⟩ := h.table.parse_address (List.mem_of_getElem? hraw) ht ho
    have hinstruction : x.instruction = .address value := Except.ok.inj (hparse.symm.trans hvalue)
    have hsmall : x.displacement o lines a.table ≤ 32767 := by
      rw [hd]
      exact Offset.displacement_le hi hc a.table raw
    rw [Placed.displaced, hinstruction] at hfit ⊢
    exact Instruction.encode_advance hle hsmall hfit

end Assembled

/-! ## the second part -/

/-- labels move, whatever the other symbols are -/
theorem Assembled.addresses_label_append {xs ys : List String} {a b c : Assembly}
    (ha : Assembled xs a) (hb : Assembled ys b) (hc : Assembled (xs ++ ys) c) :
    c.table.addresses .label = a.table.addresses .label ++
      (b.table.addresses .label).map fun l => (l.1, l.2 + a.code.length) := by
  rw [ha.table.addresses_label ha.count_lt, hb.table.addresses_label hb.count_lt,
    hc.table.addresses_label hc.count_lt, labels_append, ha.length_code]

section
variable {xs ys : List String} (hapart : (symbolNames xs).Disjoint (symbolNames ys))
  (hp : ∀ name ∈ labelNames ys, predefined.lookup name = none)
include hapart hp

theorem carried_right (name : String) : Carried (extent xs) ys (xs ++ ys) name := by
  refine ⟨fun k hk => ?_, fun j hj => ?_⟩
  · rw [labels_append]
    exact List.mem_append_right _ (List.mem_map.mpr ⟨(name, k), hk, rfl⟩)
  · show (variableNames (xs ++ ys))[j + (variableNames xs).length]? = some name
    rw [variableNames_append hapart hp, List.getElem?_append_right (Nat.le_add_left _ _),
      Nat.add_sub_cancel]
    exact hj

namespace Assembled

variable {a b c : Assembly}

theorem code_right (hb : Assembled ys b) (hc : Assembled (xs ++ ys) c) {k : Nat} {x : Placed}
    (hx : b.code[k]? = some x) :
    c.code[k + instructionCount xs]? = some (x.displaced (extent xs) ys b.table) := by
  refine hb.code_carried hc (fun name _ => carried_right hapart hp name) hx fun text hl => ?_
  show (instructionLines (xs ++ ys))[k + instructionCount xs]? = some (x.line + xs.length, text)
  rw [instructionLines_append, ← length_instructionLines,
    List.getElem?_append_right (Nat.le_add_left _ _), Nat.add_sub_cancel, List.getElem?_map, hl]
  rfl

theorem code_append (ha : Assembled xs a) (hb : Assembled ys b) (hc : Assembled (xs ++ ys) c) :
    c.code = a.code ++ b.code.map (Placed.displaced (a.extent xs) ys b.table) := by
  have hlength : c.code.length = a.code.length + b.code.length := by
    rw [hc.length_code, ha.length_code, hb.length_code, instructionCount_append]
  refine List.ext_getElem? fun k => ?_
  rcases Nat.lt_or_ge k a.code.length with hk | hk
  · rw [List.getElem?_append_left hk, List.getElem?_eq_getElem hk]
    exact ha.code_left hc (undisturbed_of_disjoint hapart hp) (List.getElem?_eq_getElem hk)
  · obtain ⟨j, rfl⟩ : ∃ j, k = j + a.code.length := ⟨k - a.code.length, by omega⟩
    rw [List.getElem?_append_right hk, Nat.add_sub_cancel, List.getElem?_map, ha.extent_eq]
    cases hx : b.code[j]? with
    | none =>
      have hout : b.code.length ≤ j := List.getElem?_eq_none_iff.mp hx
      exact List.getElem?_eq_none (by omega)
    | some x =>
      rw [ha.length_code]
      exact code_right hapart hp hb hc hx

theorem addresses_variable_append (ha : Assembled xs a) (hb : Assembled ys b)
    (hc : Assembled (xs ++ ys) c) :
    c.table.addresses .variable = a.table.addresses .variable ++
      (b.table.addresses .variable).map fun v =>
        (v.1, v.2 + (a.table.addresses .variable).length) := by
  rw [ha.table.addresses_variable ha.count_lt, hb.table.addresses_variable hb.count_lt,
    hc.table.addresses_variable hc.count_lt, variableNames_append hapart hp, List.mapIdx_append,
    List.length_mapIdx]
  refine congrArg (List.mapIdx _ (variableNames xs) ++ ·) ?_
  rw [List.mapIdx_eq_zipIdx_map, List.mapIdx_eq_zipIdx_map, List.map_map]
  refine List.map_congr_left fun v _ => ?_
  simp [Nat.add_assoc]

end Assembled

end

/-! ## both parts -/

/-- **Linking.**  Two programs without a common symbol, which have room for their instructions and
their variables together, are assembled in a row: the words of the second one that load one of its
labels grow by the number of instructions of the first one, those that load one of its variables
by the number of variables of the first one, and all others stay as they are. -/
theorem assemble_linked {p q : List String} {a b : Assembly} (ha : assemble p = .ok a)
    (hb : assemble q = .ok b) (hapart : a.table.user.names.Disjoint b.table.user.names)
    (hcount : a.code.length + b.code.length ≤ 32767)
    (hcells : (a.table.addresses .variable).length + (b.table.addresses .variable).length ≤ 32752) :
    ∃ c, assemble (p ++ q) = .ok c ∧
      c.code = a.code ++ b.code.map (Placed.displaced (a.extent p) q b.table) ∧
      (∀ x ∈ b.code, (x.displaced (a.extent p) q b.table).instruction.encode.toNat =
        x.instruction.encode.toNat + x.displacement (a.extent p) q b.table) ∧
      c.table.addresses .label = a.table.addresses .label ++
        (b.table.addresses .label).map (fun l => (l.1, l.2 + a.code.length)) ∧
      c.table.addresses .variable = a.table.addresses .variable ++
        (b.table.addresses .variable).map
          (fun v => (v.1, v.2 + (a.table.addresses .variable).length)) ∧
      (b.table.entries = [] → c.binary = a.binary ++ b.binary) := by
  have hp := assembled_of_assemble ha
  have hq := assembled_of_assemble hb
  have hacceptable : Acceptable q := exists_assemble_iff.mp ⟨b, hb⟩
  have hfree := hacceptable.surveyable.own
  rw [hp.table.user_names, hq.table.user_names] at hapart
  obtain ⟨c, hc⟩ : ∃ c, assemble (p ++ q) = .ok c := by
    have hfirst : Acceptable p := exists_assemble_iff.mp ⟨a, ha⟩
    refine exists_assemble_iff.mpr (hfirst.append hacceptable hapart ?_ ?_)
    · rwa [← hp.length_code, ← hq.length_code]
    · rwa [hp.table.addresses_variable hp.count_lt, hq.table.addresses_variable hq.count_lt,
        List.length_mapIdx, List.length_mapIdx] at hcells
  have hpq := assembled_of_assemble hc
  have hcode := Assembled.code_append hapart hfree hp hq hpq
  refine ⟨c, hc, hcode, fun x hx => ?_, hp.addresses_label_append hq hpq,
    Assembled.addresses_variable_append hapart hfree hp hq hpq, fun hnone => ?_⟩
  · obtain ⟨k, hk⟩ := List.mem_iff_getElem?.mp hx
    have hmoved := Assembled.code_right hapart hfree hq hpq hk
    rw [← hp.extent_eq] at hmoved
    have hi : (a.extent p).instructions ≤ 32767 := by
      show a.code.length ≤ 32767
      omega
    have hv : (a.extent p).cells ≤ 32767 := by
      show (a.table.addresses .variable).length ≤ 32767
      omega
    exact hq.encode_displaced hi hv hk (hpq.encodable hmoved)
  · rw [Assembly.binary, hcode, List.map_append, List.map_map]
    refine congrArg (a.binary ++ ·) (List.map_congr_left fun x _ => ?_)
    have hzero := Placed.displacement_eq_zero
      (Offset.displacement_of_entries_nil (o := a.extent p) hnone) q x
    rw [Function.comp_apply, Placed.displaced, hzero, Instruction.advance_zero]

/-- the label and the variable of the second program move, its predefined name does not -/
theorem assemble_linked_countdown :
    ∃ a b c, assemble countdown = .ok a ∧ assemble ["@m", "@NEXT", "(NEXT)", "@R1"] = .ok b ∧
      assemble (countdown ++ ["@m", "@NEXT", "(NEXT)", "@R1"]) = .ok c ∧
      c.table.addresses .label = [("LOOP", 2), ("END", 8), ("NEXT", 10)] ∧
      c.table.addresses .variable = [("n", 16), ("m", 17)] := by
  have hp : (assemble countdown).map (fun a => (a.code.length, a.table.user.names,
      a.table.addresses .label, a.table.addresses .variable)) =
      .ok (8, ["LOOP", "END", "n"], [("LOOP", 2), ("END", 8)], [("n", 16)]) := by decide +kernel
  have hq : (assemble ["@m", "@NEXT", "(NEXT)", "@R1"]).map (fun b => (b.code.length,
      b.table.user.names, b.table.addresses .label, b.table.addresses .variable)) =
      .ok (3, ["NEXT", "m"], [("NEXT", 2)], [("m", 16)]) := by decide +kernel
  obtain ⟨a, ha, e⟩ := map_eq_ok_iff.mp hp
  obtain ⟨b, hb, e'⟩ := map_eq_ok_iff.mp hq
  simp only [Prod.mk.injEq] at e e'
  obtain ⟨hcode, hnames, hlabels, hvariables⟩ := e
  obtain ⟨hcode', hnames', hlabels', hvariables'⟩ := e'
  obtain ⟨c, hc, -, -, hl, hv, -⟩ := assemble_linked ha hb (by simp [hnames, hnames'])
    (by rw [hcode, hcode']; decide) (by rw [hvariables, hvariables']; decide)
  refine ⟨a, b, c, ha, hb, hc, ?_, ?_⟩
  · rw [hl, hlabels, hlabels', hcode]
    rfl
  · rw [hv, hvariables, hvariables']
    rfl

end HackAssembler
