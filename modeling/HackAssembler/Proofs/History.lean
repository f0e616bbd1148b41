import HackAssembler.Symbol.Table
import Mathlib.Tactic.TFAE

/-!
# Histories: a symbol table under any calls

A history is a list of calls, made one after another on a table that is empty at first.

* `SymbolTable.answer`   one call: what it replies, and the table it leaves;
* `transcript`, `tableAfter`   the calls of a history with their replies, and the table at its end;
* `Reflects.answer`      what one call preserves: the entries of the table are the additions so far,
                         and its counter is as many cells on as have been taken;
* `reflects_history`     so it is at the end of every history;
* `table_of_history`     what a table answers, told from its history.
-/

namespace HackAssembler

/-! ## calls -/

inductive Call where
  | add (name : String) (binding : Binding)
  | takeVariable
  deriving DecidableEq, Repr

inductive Reply where
  | added
  | refused (f : Fault)
  | taken (address : Word)
  deriving DecidableEq, Repr

namespace SymbolTable

/-- what a call replies, and the table it leaves, which for a refused name is the one it found -/
def answer (t : SymbolTable) : Call → Reply × SymbolTable
  | .add name binding =>
    match t.add name binding with
    | .ok t' => (.added, t')
    | .error f => (.refused f, t)
  | .takeVariable => (.taken t.takeVariable.1, t.takeVariable.2)

variable {t : SymbolTable} {name : String}

theorem answer_add_of_contains (h : t.contains name) (b : Binding) :
    t.answer (.add name b) = (.refused ⟨.redefinedLabel, name⟩, t) := by
  rw [answer, add_of_contains h]

theorem answer_add_of_not_contains (h : ¬ t.contains name) (b : Binding) :
    ∃ t', t.add name b = .ok t' ∧ t.answer (.add name b) = (.added, t') ∧
      t'.entries = t.entries ++ [(name, b)] ∧ t'.nextVariable = t.nextVariable := by
  obtain ⟨t', hadd, hentries, hnext⟩ := add_of_not_contains h b
  refine ⟨t', hadd, ?_, hentries, hnext⟩
  rw [answer, hadd]

theorem answer_add_eq_added_iff {b : Binding} :
    (t.answer (.add name b)).1 = .added ↔ ¬ t.contains name := by
  constructor
  · intro h hc
    rw [answer_add_of_contains hc] at h
    cases h
  · intro hc
    obtain ⟨t', -, he, -⟩ := answer_add_of_not_contains hc b
    rw [he]

/-- no call changes what a bound name is bound to -/
theorem lookup?_answer {b : Binding} (h : t.lookup? name = some b) (c : Call) :
    (t.answer c).2.lookup? name = some b := by
  cases c with
  | takeVariable => exact h
  | add other binding =>
    by_cases hc : t.contains other
    · rw [answer_add_of_contains hc]
      exact h
    · obtain ⟨t', hadd, he, -⟩ := answer_add_of_not_contains hc binding
      have hne : name ≠ other := by
        rintro rfl
        exact hc (by rw [contains, h]; rfl)
      rw [he, lookup?_add hadd, if_neg hne]
      exact h

/-- the four ways to see that a name is bound -/
theorem tfae_bound (t : SymbolTable) (name : String) :
    List.TFAE [t.contains name = true, ∃ a, t.address name = .ok a, ∃ k, t.kind? name = some k,
      (predefined.lookup name).isSome ∨ name ∈ t.entries.map (·.1)] := by
  have hcontains : t.contains name = true ↔ ∃ b, t.lookup? name = some b := Option.isSome_iff_exists
  tfae_have 1 ↔ 2 := by
    simp only [address_eq_ok_iff]
    rw [hcontains]
    exact ⟨fun ⟨b, hb⟩ => ⟨b.address, b, hb, rfl⟩, fun ⟨_, b, hb, _⟩ => ⟨b, hb⟩⟩
  tfae_have 1 ↔ 3 := by
    simp only [kind?, Option.map_eq_some_iff]
    rw [hcontains]
    exact ⟨fun ⟨b, hb⟩ => ⟨b.kind, b, hb, rfl⟩, fun ⟨_, b, hb, _⟩ => ⟨b, hb⟩⟩
  tfae_have 1 ↔ 4 := contains_iff
  tfae_finish

end SymbolTable

/-! ## histories -/

/-- the table that the calls leave -/
def SymbolTable.after (t : SymbolTable) (calls : List Call) : SymbolTable :=
  calls.foldl (fun t c => (t.answer c).2) t

/-- the calls, each with its reply -/
def SymbolTable.replies (t : SymbolTable) : List Call → List (Call × Reply)
  | [] => []
  | c :: calls => (c, (t.answer c).1) :: (t.answer c).2.replies calls

def tableAfter (calls : List Call) : SymbolTable := SymbolTable.empty.after calls

def transcript (calls : List Call) : List (Call × Reply) := SymbolTable.empty.replies calls

def addition? : Call × Reply → Option (String × Binding)
  | (.add name b, .added) => some (name, b)
  | _ => none

/-- the additions that were not refused, in the order of their calls -/
def additions (log : List (Call × Reply)) : List (String × Binding) := log.filterMap addition?

def takenAddress? : Call × Reply → Option Word
  | (_, .taken a) => some a
  | _ => none

/-- the cells that were handed out, in the order of their calls -/
def takenAddresses (log : List (Call × Reply)) : List Word := log.filterMap takenAddress?

/-- how many cells the calls ask for -/
def takes (calls : List Call) : Nat := calls.count .takeVariable

theorem takes_append (xs ys : List Call) : takes (xs ++ ys) = takes xs + takes ys :=
  List.count_append

theorem additions_concat (log : List (Call × Reply)) (x : Call × Reply) :
    additions (log ++ [x]) = additions log ++ (addition? x).toList := by
  rw [additions, List.filterMap_append]
  cases h : addition? x <;> simp [additions, h]

theorem takenAddresses_concat (log : List (Call × Reply)) (x : Call × Reply) :
    takenAddresses (log ++ [x]) = takenAddresses log ++ (takenAddress? x).toList := by
  rw [takenAddresses, List.filterMap_append]
  cases h : takenAddress? x <;> simp [takenAddresses, h]

/-- a call is replied to by a cell if it asks for one -/
theorem length_takenAddress?_answer (t : SymbolTable) (c : Call) :
    (takenAddress? (c, (t.answer c).1)).toList.length = takes [c] := by
  cases c with
  | takeVariable => rfl
  | add name b =>
    by_cases hc : t.contains name
    · rw [SymbolTable.answer_add_of_contains hc]
      rfl
    · rw [SymbolTable.answer_add_eq_added_iff.mpr hc]
      rfl

/-! ## what a table holds -/

/-- the table `t` at the end of the calls of `log` -/
structure Reflects (t : SymbolTable) (log : List (Call × Reply)) : Prop where
  entries : t.entries = additions log
  /-- the cells so far, the first one above the registers -/
  taken : (takenAddresses log).map (·.toNat) = List.range' 16 (takenAddresses log).length
  /-- the cell that comes next -/
  counter : t.nextVariable.toNat = 16 + (takenAddresses log).length

theorem reflects_empty : Reflects .empty [] := ⟨rfl, rfl, rfl⟩

namespace Reflects

variable {t : SymbolTable} {log : List (Call × Reply)}

theorem refused (h : Reflects t log) (name : String) (b : Binding) (f : Fault) :
    Reflects t (log ++ [(.add name b, .refused f)]) := by
  have hadd : additions (log ++ [(.add name b, .refused f)]) = additions log :=
    (additions_concat ..).trans (List.append_nil _)
  have htake : takenAddresses (log ++ [(.add name b, .refused f)]) = takenAddresses log :=
    (takenAddresses_concat ..).trans (List.append_nil _)
  exact ⟨hadd ▸ h.entries, htake ▸ h.taken, htake ▸ h.counter⟩

theorem added (h : Reflects t log) {t' : SymbolTable} {name : String} {b : Binding}
    (hentries : t'.entries = t.entries ++ [(name, b)]) (hnext : t'.nextVariable = t.nextVariable) :
    Reflects t' (log ++ [(.add name b, .added)]) := by
  have hadd : additions (log ++ [(.add name b, .added)]) = additions log ++ [(name, b)] :=
    additions_concat ..
  have htake : takenAddresses (log ++ [(.add name b, .added)]) = takenAddresses log :=
    (takenAddresses_concat ..).trans (List.append_nil _)
  refine ⟨?_, htake ▸ h.taken, ?_⟩
  · rw [hentries, h.entries, hadd]
  · rw [hnext, h.counter, htake]

/-- the counter leaves the words after 65519 cells -/
theorem takeVariable (h : Reflects t log) (hroom : (takenAddresses log).length < 65519) :
    Reflects t.takeVariable.2 (log ++ [(.takeVariable, .taken t.takeVariable.1)]) := by
  have hadd : additions (log ++ [(.takeVariable, .taken t.nextVariable)]) = additions log :=
    (additions_concat ..).trans (List.append_nil _)
  have htake : takenAddresses (log ++ [(.takeVariable, .taken t.nextVariable)]) =
      takenAddresses log ++ [t.nextVariable] := takenAddresses_concat ..
  have hnext : (t.nextVariable + 1).toNat = 16 + (takenAddresses log).length + 1 := by
    rw [UInt16.toNat_add, h.counter]
    exact Nat.mod_eq_of_lt (by simp only [UInt16.reduceToNat]; omega)
  rw [SymbolTable.takeVariable]
  refine ⟨hadd ▸ h.entries, ?_, ?_⟩
  · rw [htake, List.map_append, List.length_append, h.taken, List.length_singleton,
      List.range'_1_concat, List.map_singleton, h.counter]
  · rw [htake, List.length_append, List.length_singleton, ← Nat.add_assoc]
    exact hnext

theorem answer (h : Reflects t log) (c : Call)
    (hroom : (takenAddresses log).length + takes [c] ≤ 65519) :
    Reflects (t.answer c).2 (log ++ [(c, (t.answer c).1)]) := by
  cases c with
  | add name b =>
    by_cases hc : t.contains name
    · rw [SymbolTable.answer_add_of_contains hc]
      exact h.refused name b _
    · obtain ⟨t', -, he, hentries, hnext⟩ := SymbolTable.answer_add_of_not_contains hc b
      rw [he]
      exact h.added hentries hnext
  | takeVariable => exact h.takeVariable hroom

theorem after (h : Reflects t log) (calls : List Call)
    (hroom : (takenAddresses log).length + takes calls ≤ 65519) :
    Reflects (t.after calls) (log ++ t.replies calls) := by
  induction calls generalizing t log with
  | nil => rwa [SymbolTable.replies, List.append_nil]
  | cons c calls ih =>
    have hcons : takes (c :: calls) = takes [c] + takes calls := takes_append [c] calls
    have hlog : log ++ t.replies (c :: calls) =
        log ++ [(c, (t.answer c).1)] ++ (t.answer c).2.replies calls := by
      rw [SymbolTable.replies, List.append_assoc, List.singleton_append]
    have hlength : (takenAddresses (log ++ [(c, (t.answer c).1)])).length =
        (takenAddresses log).length + takes [c] := by
      rw [takenAddresses_concat, List.length_append, length_takenAddress?_answer]
    rw [hlog]
    exact ih (h.answer c (by omega)) (by omega)

end Reflects

theorem reflects_history {calls : List Call} (h : takes calls ≤ 65519) :
    Reflects (tableAfter calls) (transcript calls) := by
  refine reflects_empty.after calls ?_
  rwa [takenAddresses, List.filterMap_nil, List.length_nil, Nat.zero_add]

theorem length_takenAddresses (t : SymbolTable) (calls : List Call) :
    (takenAddresses (t.replies calls)).length = takes calls := by
  induction calls generalizing t with
  | nil => rfl
  | cons c calls ih =>
    have hcons : takes (c :: calls) = takes [c] + takes calls := takes_append [c] calls
    have htake : takenAddresses (t.replies (c :: calls)) =
        (takenAddress? (c, (t.answer c).1)).toList ++ takenAddresses ((t.answer c).2.replies calls) :=
      List.filterMap_append (l := [(c, (t.answer c).1)])
    rw [htake, List.length_append, ih, hcons, length_takenAddress?_answer]

/-! ## what a table answers -/

/-- what a history binds `name` to: what every program knows, or else the first addition of it -/
def firstBinding? (calls : List Call) (name : String) : Option Binding :=
  ((predefined.lookup name).map (Binding.mk .predefined)).or
    ((additions (transcript calls)).lookup name)

/-- a name that is neither predefined nor added in a history -/
def Unbound (calls : List Call) (name : String) : Prop :=
  predefined.lookup name = none ∧ name ∉ (additions (transcript calls)).map (·.1)

section
variable {calls : List Call} (h : takes calls ≤ 65519)
include h

theorem lookup?_tableAfter (name : String) :
    (tableAfter calls).lookup? name = firstBinding? calls name := by
  rw [SymbolTable.lookup?_eq, (reflects_history h).entries, firstBinding?]

theorem not_contains_tableAfter_iff {name : String} :
    ¬ (tableAfter calls).contains name ↔ Unbound calls name := by
  rw [SymbolTable.contains_iff, not_or, Option.not_isSome_iff_eq_none, Unbound,
    ← (reflects_history h).entries]
  rfl

theorem answer_add_bound {name : String} (hn : ¬ Unbound calls name) (b : Binding) :
    (tableAfter calls).answer (.add name b) = (.refused ⟨.redefinedLabel, name⟩, tableAfter calls) := by
  rw [← not_contains_tableAfter_iff h, Classical.not_not] at hn
  exact SymbolTable.answer_add_of_contains hn b

end

theorem lookup?_after {t : SymbolTable} {name : String} {b : Binding} (h : t.lookup? name = some b)
    (calls : List Call) : (t.after calls).lookup? name = some b := by
  induction calls generalizing t with
  | nil => exact h
  | cons c calls ih => exact ih (SymbolTable.lookup?_answer h c)

theorem tableAfter_append (xs ys : List Call) :
    tableAfter (xs ++ ys) = (tableAfter xs).after ys :=
  List.foldl_append

/-- **A table is its history.**  A name is added unless it is bound already, and a refusal leaves
the table as it was; the entries are the additions in the order of their calls; all queries agree on
which names are bound, namely the predefined ones and the entries; a name stands for what it was
bound to first, and keeps it under any further calls; and the cells are handed out one after another,
whatever is added in between. -/
theorem table_of_history {calls : List Call} (h : takes calls ≤ 65519) :
    (∀ earlier name b later, calls = earlier ++ .add name b :: later →
      (((tableAfter earlier).answer (.add name b)).1 = .added ↔ Unbound earlier name) ∧
      (¬ Unbound earlier name →
        (tableAfter earlier).answer (.add name b) =
          (.refused ⟨.redefinedLabel, name⟩, tableAfter earlier))) ∧
    (tableAfter calls).entries = additions (transcript calls) ∧
    (∀ name, List.TFAE [(tableAfter calls).contains name = true,
      ∃ a, (tableAfter calls).address name = .ok a,
      ∃ k, (tableAfter calls).kind? name = some k,
      (predefined.lookup name).isSome ∨ name ∈ (tableAfter calls).entries.map (·.1)]) ∧
    (∀ earlier later, calls = earlier ++ later → ∀ name b, firstBinding? earlier name = some b →
      (tableAfter calls).address name = .ok b.address ∧
      (tableAfter calls).kind? name = some b.kind) ∧
    (takenAddresses (transcript calls)).map (·.toNat) = List.range' 16 (takes calls) ∧
    (tableAfter calls).nextVariable.toNat = 16 + takes calls := by
  have hcalls := reflects_history h
  have hfits : ∀ earlier later, calls = earlier ++ later → takes earlier ≤ 65519 := by
    rintro earlier later rfl
    rw [takes_append] at h
    omega
  refine ⟨fun earlier name b later hsplit => ?_, hcalls.entries, SymbolTable.tfae_bound _,
    fun earlier later hsplit name b hb => ?_, ?_, ?_⟩
  · have hearlier := hfits _ _ hsplit
    refine ⟨?_, fun hn => answer_add_bound hearlier hn b⟩
    rw [SymbolTable.answer_add_eq_added_iff, not_contains_tableAfter_iff hearlier]
  · have hlookup : (tableAfter calls).lookup? name = some b := by
      rw [hsplit, tableAfter_append]
      exact lookup?_after ((lookup?_tableAfter (hfits _ _ hsplit) name).trans hb) later
    refine ⟨SymbolTable.address_eq_ok_iff.mpr ⟨b, hlookup, rfl⟩, ?_⟩
    rw [SymbolTable.kind?, hlookup]
    rfl
  · rw [hcalls.taken, transcript, length_takenAddresses]
  · rw [hcalls.counter, transcript, length_takenAddresses]

/-- two refusals, one of a name added before and one of a predefined name, between two cells -/
theorem table_of_history_refusals :
    let calls : List Call := [.add "LOOP" ⟨.label, 4⟩, .takeVariable, .add "LOOP" ⟨.variable, 40000⟩,
      .add "R1" ⟨.label, 9⟩, .takeVariable]
    takes calls ≤ 65519 ∧ (tableAfter calls).entries = [("LOOP", ⟨.label, 4⟩)] ∧
      (tableAfter calls).address "LOOP" = .ok 4 ∧ (tableAfter calls).address "R1" = .ok 1 ∧
      (takenAddresses (transcript calls)).map (·.toNat) = [16, 17] := by
  intro calls
  have htakes : takes calls ≤ 65519 := by decide
  obtain ⟨-, hentries, -, hbinding, htaken, -⟩ := table_of_history htakes
  have hadded : additions (transcript calls) = [("LOOP", ⟨.label, 4⟩)] := by decide +kernel
  have hloop : firstBinding? calls "LOOP" = some ⟨.label, 4⟩ := by decide +kernel
  have hr1 : firstBinding? calls "R1" = some ⟨.predefined, 1⟩ := by decide +kernel
  refine ⟨htakes, hentries.trans hadded, ?_, ?_, htaken⟩
  · exact (hbinding calls [] (List.append_nil _).symm _ _ hloop).1
  · exact (hbinding calls [] (List.append_nil _).symm _ _ hr1).1

end HackAssembler
