import HackAssembler.Program.Survey

/-!
# Allocation: data cells for the names that are still unbound

* `cells`              names bound to consecutive data cells;
* `Survey.unbound`     the names that an allocation has to bind;
* `Survey.allocate_eq_ok`   as long as addresses last, the unbound names get cells in order;
* `Survey.allocate_eq_error`   the first name past the last address is the fault.

The mentions that are walked have distinct names, so binding one of them leaves the others unbound.
-/

namespace HackAssembler

/-- names bound to the data cells from `n` on -/
def cells (n : Nat) (names : List String) : List (String × Binding) :=
  names.mapIdx fun j name => (name, ⟨.variable, .ofNat (n + j)⟩)

theorem cells_cons (n : Nat) (name : String) (names : List String) :
    cells n (name :: names) = (name, ⟨.variable, .ofNat n⟩) :: cells (n + 1) names := by
  simp only [cells, List.mapIdx_cons, Nat.add_zero, Nat.add_right_comm n 1, Nat.add_assoc]

namespace Survey

/-- the mentions whose names have no binding -/
def unbound (t : SymbolTable) (ms : List (String × Nat)) : List (String × Nat) :=
  ms.filter fun m => !t.contains m.1

/-! ## one name -/

section
variable {t : SymbolTable} {name : String} {line : Nat} {ms : List (String × Nat)}

theorem allocate_bound (h : t.contains name) : allocate ((name, line) :: ms) t = allocate ms t := by
  rw [allocate, if_pos h]

theorem unbound_bound (h : t.contains name) : unbound t ((name, line) :: ms) = unbound t ms := by
  simp [unbound, h]

theorem unbound_fresh (h : ¬ t.contains name) :
    unbound t ((name, line) :: ms) = (name, line) :: unbound t ms := by
  simp [unbound, h]

/-- one step for a name without a binding -/
theorem allocate_unbound (h : ¬ t.contains name) :
    allocate ((name, line) :: ms) t =
      if t.nextVariable ≤ maxAddress then
        ((t.takeVariable.2.add name ⟨.variable, t.nextVariable⟩).mapError (LocatedFault.mk line)).bind
          fun t' => allocate ms t'
      else
        .error ⟨line, ⟨.outOfRange, name⟩⟩ := by
  rw [allocate, if_neg h]
  by_cases hroom : t.nextVariable ≤ maxAddress
  · rw [if_pos hroom]
    refine (if_pos hroom).trans ?_
    simp only [SymbolTable.takeVariable]
    cases SymbolTable.add _ name ⟨.variable, t.nextVariable⟩ <;> rfl
  · rw [if_neg hroom]
    exact if_neg hroom

theorem allocate_full (h : ¬ t.contains name) (hfull : ¬ t.nextVariable ≤ maxAddress) :
    allocate ((name, line) :: ms) t = .error ⟨line, ⟨.outOfRange, name⟩⟩ := by
  rw [allocate, if_neg h]
  exact if_neg hfull

theorem allocate_fresh (line : Nat) (ms : List (String × Nat)) (h : ¬ t.contains name)
    (hroom : t.nextVariable ≤ maxAddress) :
    ∃ t', allocate ((name, line) :: ms) t = allocate ms t' ∧
      t'.entries = t.entries ++ [(name, ⟨.variable, t.nextVariable⟩)] ∧
      t'.nextVariable = t.nextVariable + 1 ∧
      ∀ other, t'.contains other ↔ other = name ∨ t.contains other := by
  obtain ⟨t', ht, he, hv⟩ := SymbolTable.add_of_not_contains
    (t := t.takeVariable.2) h ⟨.variable, t.nextVariable⟩
  refine ⟨t', ?_, he, hv, fun other => ?_⟩
  · rw [allocate, if_neg h]
    refine (if_pos hroom).trans ?_
    simp only [SymbolTable.takeVariable] at ht ⊢
    rw [ht]
  · rw [SymbolTable.contains, SymbolTable.lookup?_add ht]
    by_cases e : other = name
    · simp [e]
    · simp [e, SymbolTable.contains, SymbolTable.lookup?, SymbolTable.takeVariable]

/-- a name that is not mentioned again may be bound without touching the others -/
theorem unbound_congr {t' : SymbolTable} (hname : name ∉ ms.map (·.1))
    (h : ∀ other, t'.contains other ↔ other = name ∨ t.contains other) :
    unbound t' ms = unbound t ms := by
  refine List.filter_congr fun m hm => ?_
  have hne : m.1 ≠ name := fun e => hname (e ▸ List.mem_map_of_mem hm)
  have hc : t'.contains m.1 = t.contains m.1 := Bool.eq_iff_iff.mpr (by simp [h, hne])
  rw [hc]

end

/-! ## all names -/

theorem nextVariable_le {t : SymbolTable} {n : Nat} (h : t.nextVariable = .ofNat n)
    (hn : n ≤ 32768) : t.nextVariable ≤ maxAddress ↔ n ≤ 32767 := by
  rw [h]
  exact ofNat_le_maxAddress_iff hn

theorem allocate_eq_ok (ms : List (String × Nat)) :
    ∀ (t : SymbolTable) (n : Nat), (ms.map (·.1)).Nodup → t.nextVariable = .ofNat n →
      n + (unbound t ms).length ≤ 32768 →
      ∃ t', allocate ms t = .ok t' ∧
        t'.entries = t.entries ++ cells n ((unbound t ms).map (·.1)) := by
  induction ms with
  | nil =>
    intro t n _ _ _
    exact ⟨t, rfl, (List.append_nil _).symm⟩
  | cons m ms ih =>
    intro t n hnd hnext hfit
    obtain ⟨name, line⟩ := m
    obtain ⟨hname, hnd⟩ := List.nodup_cons.mp hnd
    by_cases h : t.contains name
    · rw [unbound_bound h] at hfit ⊢
      rw [allocate_bound h]
      exact ih t n hnd hnext hfit
    · rw [unbound_fresh h] at hfit ⊢
      rw [List.length_cons] at hfit
      have hroom : t.nextVariable ≤ maxAddress :=
        (nextVariable_le hnext (by omega)).mpr (by omega)
      obtain ⟨t', ha, he, hv, hc⟩ := allocate_fresh line ms h hroom
      have hu := unbound_congr hname hc
      have hnext' : t'.nextVariable = .ofNat (n + 1) := by
        rw [hv, hnext]
        exact (UInt16.ofNat_add n 1).symm
      obtain ⟨t'', ho, he'⟩ := ih t' (n + 1) hnd hnext' (by rw [hu]; omega)
      refine ⟨t'', ha.trans ho, ?_⟩
      rw [he', he, hu, hnext, List.map_cons, cells_cons, List.append_assoc]
      rfl

theorem allocate_eq_error (ms : List (String × Nat)) :
    ∀ (t : SymbolTable) (n : Nat), (ms.map (·.1)).Nodup → t.nextVariable = .ofNat n →
      n ≤ 32768 → ∀ name line, (unbound t ms)[32768 - n]? = some (name, line) →
      allocate ms t = .error ⟨line, ⟨.outOfRange, name⟩⟩ := by
  induction ms with
  | nil =>
    intro t n _ _ _ name line h
    simp [unbound] at h
  | cons m ms ih =>
    intro t n hnd hnext hn name line hget
    obtain ⟨name₀, line₀⟩ := m
    obtain ⟨hname, hnd⟩ := List.nodup_cons.mp hnd
    by_cases h : t.contains name₀
    · rw [unbound_bound h] at hget
      rw [allocate_bound h]
      exact ih t n hnd hnext hn name line hget
    · rw [unbound_fresh h] at hget
      by_cases hroom : n ≤ 32767
      · obtain ⟨t', ha, he, hv, hc⟩ :=
          allocate_fresh line₀ ms h ((nextVariable_le hnext hn).mpr hroom)
        have hnext' : t'.nextVariable = .ofNat (n + 1) := by
          rw [hv, hnext]
          exact (UInt16.ofNat_add n 1).symm
        have hidx : 32768 - n = 32768 - (n + 1) + 1 := by omega
        rw [hidx, List.getElem?_cons_succ, ← unbound_congr hname hc] at hget
        rw [ha]
        exact ih t' (n + 1) hnd hnext' (by omega) name line hget
      · have hidx : 32768 - n = 0 := by omega
        rw [hidx, List.getElem?_cons_zero] at hget
        cases hget
        exact allocate_full h (mt (nextVariable_le hnext hn).mp hroom)

end Survey

end HackAssembler
