import HackAssembler.Proofs.SecondPass
import HackAssembler.Proofs.SurveyTable

/-!
# Counters: numbers of fixed width that never wrap

Both passes count in words of a fixed width: instructions in thirty-two bits, label addresses and
data cells in sixteen, and the second pass turns the size of its code into an address.  Each counter
is bounded where it is used, so it agrees with the unbounded count.

* `Survey.Describes.toNat_count`, `Survey.Describes.step_label`   the instructions, and their number
                                as the address of a label;
* `Survey.cellRequests`         how often an allocation takes a data cell;
* `Survey.toNat_nextVariable`   the next data cell, told by that number;
* `Survey.cellRequests_le`      an allocation takes at most one cell beyond the last address;
* `Assembly.Places.exact`       the size of the code as an address;
* `counters_exact`              all of them, along both passes.
-/

namespace HackAssembler

/-! ## instructions and labels -/

theorem toNat_toUInt16_of_le {n : UInt32} (h : n.toNat ≤ 32767) : n.toUInt16.toNat = n.toNat := by
  rw [UInt32.toNat_toUInt16]
  exact Nat.mod_eq_of_lt (by omega)

namespace Survey

section
variable {xs : List String} {s : Survey}

theorem Describes.toNat_count (h : Describes xs s) (hn : instructionCount xs < UInt32.size) :
    s.count.toNat = instructionCount xs := by
  rw [h.count]
  exact UInt32.toNat_ofNat_of_lt' hn

/-- the count is cut down to an address only where it is one -/
theorem Describes.step_label (h : Describes xs s) (hn : instructionCount xs < UInt32.size)
    (i : Nat) (name : String) :
    step i (.label name) s =
      if instructionCount xs ≤ 32767 then
        (s.table.add name ⟨.label, s.count.toUInt16⟩).map fun t => ⟨t, s.mentions, s.count⟩
      else
        .error ⟨.outOfRange, name⟩ := by
  have hle : s.count ≤ maxAddress.toUInt32 ↔ instructionCount xs ≤ 32767 := by
    rw [← h.toNat_count hn]
    exact UInt32.le_iff_toNat_le
  show s.addLabel name = _
  rw [addLabel_eq]
  simp only [hle]
  cases s.table.add name ⟨.label, s.count.toUInt16⟩ <;> rfl

end

/-! ## data cells -/

/-- an allocation gets to mention number `k`, and takes a data cell for its name, still unbound -/
def takesCell (ms : List (String × Nat)) (t : SymbolTable) (k : Nat) : Bool :=
  match ms[k]?, allocate (ms.take k) t with
  | some m, .ok t' => !t'.contains m.1
  | _, _ => false

/-- how often an allocation takes a data cell; the last one may lie beyond the last address -/
def cellRequests (ms : List (String × Nat)) (t : SymbolTable) : Nat :=
  (List.range ms.length).countP (takesCell ms t)

section
variable {ps qs : List (String × Nat)} {m : String × Nat} {t t' : SymbolTable}

theorem allocate_append (ps qs : List (String × Nat)) (t : SymbolTable) :
    allocate (ps ++ qs) t = (allocate ps t).bind fun t' => allocate qs t' := by
  induction ps generalizing t with
  | nil => rfl
  | cons m ps ih =>
    obtain ⟨name, line⟩ := m
    rw [List.cons_append]
    by_cases h : t.contains name
    · rw [allocate_bound h, allocate_bound h, ih]
    · rw [allocate_unbound h, allocate_unbound h]
      split
      · cases (t.takeVariable.2.add name ⟨.variable, t.nextVariable⟩).mapError (LocatedFault.mk line) with
        | error e => rfl
        | ok t' => exact ih t'
      · rfl

/-- what one more mention does to the table -/
theorem allocate_singleton (h : allocate [m] t = .ok t') :
    (t.contains m.1 ∧ t' = t) ∨
      (¬ t.contains m.1 ∧ t.nextVariable ≤ maxAddress ∧
        t'.nextVariable = t.nextVariable + 1) := by
  obtain ⟨name, line⟩ := m
  by_cases hc : t.contains name
  · rw [allocate_bound hc] at h
    cases h
    exact .inl ⟨hc, rfl⟩
  · by_cases hroom : t.nextVariable ≤ maxAddress
    · obtain ⟨u, hu, -, hnext, -⟩ := allocate_fresh line [] hc hroom
      rw [hu] at h
      cases h
      exact .inr ⟨hc, hroom, hnext⟩
    · rw [allocate_full hc hroom] at h
      cases h

theorem takesCell_concat (ps : List (String × Nat)) (m : String × Nat) (t : SymbolTable) {k : Nat}
    (hk : k < ps.length) : takesCell (ps ++ [m]) t k = takesCell ps t k := by
  unfold takesCell
  rw [List.getElem?_append_left hk, List.take_append_of_le_length (Nat.le_of_lt hk)]

theorem cellRequests_concat (ps : List (String × Nat)) (m : String × Nat) (t : SymbolTable) :
    cellRequests (ps ++ [m]) t =
      cellRequests ps t + if takesCell (ps ++ [m]) t ps.length then 1 else 0 := by
  have hold : (List.range ps.length).countP (takesCell (ps ++ [m]) t) = cellRequests ps t :=
    List.countP_congr fun k hk => by rw [takesCell_concat ps m t (List.mem_range.mp hk)]
  rw [cellRequests, List.length_append, List.length_singleton, List.range_succ,
    List.countP_append, hold, List.countP_singleton]

theorem cellRequests_concat_of_ok (h : allocate ps t = .ok t') (m : String × Nat) :
    cellRequests (ps ++ [m]) t = cellRequests ps t + if t'.contains m.1 then 0 else 1 := by
  have hlast : takesCell (ps ++ [m]) t ps.length = !t'.contains m.1 := by
    unfold takesCell
    rw [List.getElem?_concat_length, List.take_left, h]
  rw [cellRequests_concat, hlast]
  cases t'.contains m.1 <;> rfl

/-- an allocation that has failed asks for nothing any more -/
theorem cellRequests_concat_of_error {e : LocatedFault} (h : allocate ps t = .error e)
    (m : String × Nat) : cellRequests (ps ++ [m]) t = cellRequests ps t := by
  have hlast : takesCell (ps ++ [m]) t ps.length = false := by
    unfold takesCell
    rw [List.getElem?_concat_length, List.take_left, h]
  rw [cellRequests_concat, hlast]
  rfl

/-- one more data cell does not wrap the counter -/
theorem toNat_succ_of_le {w : Word} (h : w.toNat ≤ 32768) : (w + 1).toNat = w.toNat + 1 := by
  rw [UInt16.toNat_add]
  exact Nat.mod_eq_of_lt (show w.toNat + 1 < 65536 by omega)

/-- the counter of a table, after an allocation that has not failed so far -/
theorem toNat_nextVariable (hstart : t.nextVariable.toNat ≤ 32768) (h : allocate ps t = .ok t') :
    t'.nextVariable.toNat = t.nextVariable.toNat + cellRequests ps t ∧
      t'.nextVariable.toNat ≤ 32768 := by
  induction ps using List.reverseRecOn generalizing t' with
  | nil =>
    cases h
    exact ⟨rfl, hstart⟩
  | append_singleton ps m ih =>
    rw [allocate_append] at h
    obtain ⟨u, hu, hm⟩ := bind_eq_ok_iff.mp h
    obtain ⟨hcount, hle⟩ := ih hu
    rw [cellRequests_concat_of_ok hu]
    rcases allocate_singleton hm with ⟨hc, rfl⟩ | ⟨hc, hroom, hnext⟩
    · rw [if_pos hc]
      exact ⟨hcount, hle⟩
    · -- the check of the address keeps the counter below the last word
      have hroom : u.nextVariable.toNat ≤ 32767 := UInt16.le_iff_toNat_le.mp hroom
      rw [if_neg hc, hnext, toNat_succ_of_le hle]
      omega

theorem cellRequests_le (hstart : t.nextVariable.toNat ≤ 32768) (ms : List (String × Nat)) :
    t.nextVariable.toNat + cellRequests ms t ≤ 32769 := by
  induction ms using List.reverseRecOn with
  | nil => exact Nat.le_succ_of_le hstart
  | append_singleton ps m ih =>
    cases h : allocate ps t with
    | error e =>
      rw [cellRequests_concat_of_error h]
      exact ih
    | ok t' =>
      -- this request may be the one that finds no address, so the bound is one higher than before
      obtain ⟨hcount, hle⟩ := toNat_nextVariable hstart h
      rw [cellRequests_concat_of_ok h]
      split <;> omega

/-- a name that needs a data cell is new, and the table takes it -/
theorem add_takeVariable {name : String} (h : ¬ t.contains name) :
    ∃ t', t.takeVariable.2.add name ⟨.variable, t.takeVariable.1⟩ = .ok t' := by
  obtain ⟨t', ht, -⟩ := SymbolTable.add_of_not_contains
    (t := t.takeVariable.2) h ⟨.variable, t.takeVariable.1⟩
  exact ⟨t', ht⟩

end

/-! ## the first pass -/

/-- the state after `xs`: the instructions are counted exactly, a label gets their number as its
address if that is one, and no data cell has been taken -/
structure Exact (xs : List String) (s : Survey) : Prop where
  count : s.count.toNat = instructionCount xs
  step_label : ∀ name, step xs.length (.label name) s =
    if instructionCount xs ≤ 32767 then
      (s.table.add name ⟨.label, s.count.toUInt16⟩).map fun t => ⟨t, s.mentions, s.count⟩
    else
      .error ⟨.outOfRange, name⟩
  address : instructionCount xs ≤ 32767 → s.count.toUInt16.toNat = instructionCount xs
  nextVariable : s.table.nextVariable.toNat = 16

/-- the table `t` that an allocation has come to through `ps`: the counter tells the cells taken so
far, one more does not wrap it, and a name without a cell can be added -/
structure CellsExact (t₀ : SymbolTable) (ps : List (String × Nat)) (t : SymbolTable) : Prop where
  nextVariable : t.nextVariable.toNat = 16 + cellRequests ps t₀
  nextVariable_le : t.nextVariable.toNat ≤ 32768
  taken : t.takeVariable.2.nextVariable.toNat = t.nextVariable.toNat + 1
  add : ∀ name, ¬ t.contains name →
    ∃ t', t.takeVariable.2.add name ⟨.variable, t.takeVariable.1⟩ = .ok t'

section
variable {xs : List String} {s : Survey}

theorem Describes.toNat_nextVariable (h : Describes xs s) : s.table.nextVariable.toNat = 16 := by
  rw [h.nextVariable]
  rfl

theorem Describes.exact (h : Describes xs s) (hn : instructionCount xs < UInt32.size) :
    Exact xs s where
  count := h.toNat_count hn
  step_label := h.step_label hn xs.length
  address := by
    rw [← h.toNat_count hn]
    exact toNat_toUInt16_of_le
  nextVariable := h.toNat_nextVariable

theorem Describes.cellsExact (h : Describes xs s) {ps : List (String × Nat)} {t : SymbolTable}
    (ht : allocate ps s.table = .ok t) : CellsExact s.table ps t := by
  have hstart := h.toNat_nextVariable
  obtain ⟨hcount, hle⟩ := Survey.toNat_nextVariable (by omega) ht
  rw [hstart] at hcount
  exact ⟨hcount, hle, toNat_succ_of_le hle, fun name => add_takeVariable⟩

theorem Describes.cellRequests_le (h : Describes xs s) (ms : List (String × Nat)) :
    cellRequests ms s.table ≤ 32753 := by
  have hstart := h.toNat_nextVariable
  have hle := Survey.cellRequests_le (t := s.table) (by omega) ms
  omega

/-- an allocation runs out of addresses, and fails for no other reason -/
theorem Describes.cause_of_allocate (h : Describes xs s) {e : LocatedFault}
    (he : allocate s.mentions.toList s.table = .error e) : e.fault.cause = .outOfRange := by
  by_cases hfit : (variableNames xs).length ≤ 32752
  · obtain ⟨t, ht, -⟩ := h.allocate_ok hfit
    rw [ht] at he
    cases he
  · have hget := List.getElem?_eq_getElem (show 32752 < (variableNames xs).length by omega)
    rw [h.allocate_error hget] at he
    cases he
    rfl

end

end Survey

/-! ## the second pass -/

namespace Assembly

/-- the code of `xs`: its size is an address as long as there is room for an instruction, and the
last size that it can come to still fits into a word -/
structure Exact (t : SymbolTable) (xs : List String) (code : Array Placed) : Prop where
  size_le : code.size ≤ 32768
  toNat_size : (UInt16.ofNat code.size).toNat = code.size
  place : ∀ text, place t xs.length (.instruction text) code =
    if code.size ≤ 32767 then
      (Instruction.parse t text).map fun i => code.push ⟨xs.length, .ofNat code.size, i⟩
    else
      .error ⟨.outOfRange, "32768"⟩

theorem Places.exact {t : SymbolTable} {xs : List String} {code : Array Placed}
    (h : Places t xs code) : Exact t xs code where
  size_le := h.fits
  toNat_size := toNat_ofNat_of_le h.fits
  place := by
    intro text
    rw [Assembly.place]
    by_cases hroom : code.size ≤ 32767
    · rw [if_pos hroom, if_pos (show code.size ≤ maxAddress.toNat from hroom)]
      cases Instruction.parse t text <;> rfl
    · have hfull : code.size = 32768 := by
        have hfits := h.fits
        omega
      rw [if_neg hroom, if_neg (show ¬ code.size ≤ maxAddress.toNat from hroom), hfull]
      rfl

end Assembly

/-- **The counters of both passes never wrap.**  Along the first pass over fewer than `2 ^ 32`
instruction lines, the number of instructions is exact, and it is cut down to an address only where
it is one; the allocation that follows takes at most one cell beyond the last address, so its
counter stays exact as well, and a name that gets a cell is never refused.  Along the second pass,
under any table, the size of the code fits into a word. -/
theorem counters_exact (lines : List String) :
    (instructionCount lines < UInt32.size →
      (∀ xs s, xs <+: lines → walk Survey.step 0 xs .empty = .ok s → Survey.Exact xs s) ∧
      ∀ s, walk Survey.step 0 lines .empty = .ok s →
        survey lines = Survey.allocate s.mentions.toList s.table ∧
        (∀ ps t, ps <+: s.mentions.toList → Survey.allocate ps s.table = .ok t →
          Survey.CellsExact s.table ps t) ∧
        Survey.cellRequests s.mentions.toList s.table ≤ 32753 ∧
        ∀ e, survey lines = .error e → e.fault.cause = .outOfRange) ∧
    ∀ t xs code, xs <+: lines → walk (Assembly.place t) 0 xs #[] = .ok code →
      Assembly.Exact t xs code := by
  refine ⟨fun hn => ⟨fun xs s hxs hw => ?_, fun s hw => ?_⟩, fun t xs code _ hw => ?_⟩
  · have hs := Survey.keeps.inv_of_walk Survey.describes_empty hw
    exact hs.exact (Nat.lt_of_le_of_lt (instructionCount_mono hxs) hn)
  · have hs := Survey.keeps.inv_of_walk Survey.describes_empty hw
    have hsurvey := Survey.survey_of_walk hw
    refine ⟨hsurvey, fun ps t _ ht => hs.cellsExact ht, hs.cellRequests_le _, fun e he => ?_⟩
    exact hs.cause_of_allocate (hsurvey.symm.trans he)
  · exact ((Assembly.keeps t).inv_of_walk (Assembly.places_empty t) hw).exact

/-- the first pass over the whole program, its allocation before the variable `n`, and the second
pass over the first two lines -/
theorem counters_exact_countdown :
    instructionCount countdown < UInt32.size ∧
    (∃ s, walk Survey.step 0 countdown .empty = .ok s ∧ s.count.toNat = 8 ∧
      s.count.toUInt16.toNat = 8 ∧
      Survey.cellRequests s.mentions.toList s.table ≤ 32753 ∧
      ∃ t, [("R0", 0)] <+: s.mentions.toList ∧ Survey.allocate [("R0", 0)] s.table = .ok t ∧
        ¬ t.contains "n" ∧ t.takeVariable.2.nextVariable.toNat = t.nextVariable.toNat + 1 ∧
        ∃ t', t.takeVariable.2.add "n" ⟨.variable, t.takeVariable.1⟩ = .ok t') ∧
    ∃ code, countdown.take 2 <+: countdown ∧
      walk (Assembly.place .empty) 0 (countdown.take 2) #[] = .ok code ∧
      (UInt16.ofNat code.size).toNat = code.size := by
  have hn : instructionCount countdown < UInt32.size := by decide +kernel
  have hcount : instructionCount countdown = 8 := by decide +kernel
  obtain ⟨s, hw⟩ : ∃ s, walk Survey.step 0 countdown .empty = .ok s :=
    exists_of_isOk (by decide +kernel)
  obtain ⟨code, hcode⟩ :
      ∃ code, walk (Assembly.place .empty) 0 (countdown.take 2) #[] = .ok code :=
    exists_of_isOk (by decide +kernel)
  obtain ⟨hfirst, hsecond⟩ := counters_exact countdown
  obtain ⟨hwalk, hallocate⟩ := hfirst hn
  have hs := hwalk countdown s (List.prefix_refl _) hw
  obtain ⟨-, hcells, hrequests, -⟩ := hallocate s hw
  have hd := Survey.keeps.inv_of_walk Survey.describes_empty hw
  have hmentions : [("R0", 0)] <+: s.mentions.toList := by
    rw [hd.mentions]
    decide +kernel
  have hbound : Survey.allocate [("R0", 0)] s.table = .ok s.table :=
    Survey.allocate_bound (by rw [hd.contains_eq]; decide +kernel)
  have hfree : ¬ s.table.contains "n" := by
    rw [hd.contains_eq]
    decide +kernel
  have ht := hcells _ _ hmentions hbound
  refine ⟨hn, ⟨s, hw, hs.count.trans hcount, ?_, hrequests, s.table, hmentions, hbound, hfree,
    ht.taken, ht.add "n" hfree⟩, code, List.take_prefix 2 _, hcode, ?_⟩
  · exact (hs.address (by omega)).trans hcount
  · exact (hsecond _ _ code (List.take_prefix 2 _) hcode).toNat_size

end HackAssembler
