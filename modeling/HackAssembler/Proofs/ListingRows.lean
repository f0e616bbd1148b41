import HackAssembler.Proofs.SecondPass
import HackAssembler.Report

/-!
# The rows of a listing: no instruction is lost, repeated or moved

The rows take the code from the front.  Code that has no row yet stands on the lines to come, in
their order (`Ahead`), and one row leaves the next one such code (`Ahead.takeAt`).

* `placedAt`               the instruction that was placed on a line, wherever it is in the code;
* `rowsFrom_eq_map`, `rows_eq_map`   so each row shows what was placed on its line;
* `placed_rows`            and the rows from top to bottom show the whole code.
-/

namespace HackAssembler

namespace Listing

/-- the instruction that was placed on a line -/
def placedAt (code : List Placed) (line : Nat) : Option Placed :=
  code.find? fun p => p.line == line

/-- code for the lines from `line` on, in their order -/
structure Ahead (line : Nat) (code : List Placed) : Prop where
  sorted : code.Pairwise fun p q => p.line < q.line
  le : ∀ p ∈ code, line ≤ p.line

section
variable {line j : Nat} {p : Placed} {code : List Placed}

theorem placedAt_cons_of_eq (h : p.line = j) : placedAt (p :: code) j = some p :=
  List.find?_cons_of_pos (beq_iff_eq.mpr h)

theorem placedAt_cons_of_ne (h : p.line ≠ j) : placedAt (p :: code) j = placedAt code j :=
  List.find?_cons_of_neg fun e => h (beq_iff_eq.mp e)

theorem placedAt_eq_none (h : ∀ q ∈ code, q.line ≠ j) : placedAt code j = none :=
  List.find?_eq_none.mpr fun q hq e => h q hq (beq_iff_eq.mp e)

/-- no two instructions stand on one line -/
theorem placedAt_line (hsorted : code.Pairwise fun p q => p.line < q.line) (hp : p ∈ code) :
    placedAt code p.line = some p := by
  induction code with
  | nil => cases hp
  | cons q code ih =>
    obtain ⟨hq, hcode⟩ := List.pairwise_cons.mp hsorted
    rcases List.mem_cons.mp hp with rfl | hp
    · exact placedAt_cons_of_eq rfl
    · rw [placedAt_cons_of_ne (Nat.ne_of_lt (hq p hp)), ih hcode hp]

/-! ## one row -/

theorem takeAt_cons_of_eq (h : p.line = line) : takeAt line (p :: code) = (some p, code) :=
  if_pos h

theorem takeAt_cons_of_ne (h : p.line ≠ line) : takeAt line (p :: code) = (none, p :: code) :=
  if_neg h

/-- what is handed out is what was placed on the line, and the rest is for the lines below -/
theorem Ahead.takeAt (h : Ahead line code) :
    (takeAt line code).1 = placedAt code line ∧
      Ahead (line + 1) (takeAt line code).2 ∧
      ∀ j, line < j → placedAt (takeAt line code).2 j = placedAt code j := by
  cases code with
  | nil => exact ⟨rfl, ⟨.nil, List.forall_mem_nil _⟩, fun _ _ => rfl⟩
  | cons p code =>
    obtain ⟨hp, hsorted⟩ := List.pairwise_cons.mp h.sorted
    by_cases hline : p.line = line
    · rw [takeAt_cons_of_eq hline]
      refine ⟨(placedAt_cons_of_eq hline).symm, ⟨hsorted, fun q hq => ?_⟩, fun j hj => ?_⟩
      · exact hline ▸ hp q hq
      · exact (placedAt_cons_of_ne (by omega)).symm
    · rw [takeAt_cons_of_ne hline]
      have hbelow : ∀ q ∈ p :: code, line < q.line := by
        have hle := h.le p List.mem_cons_self
        have hpline : line < p.line := by omega
        exact List.forall_mem_cons.mpr ⟨hpline, fun q hq => Nat.lt_trans hpline (hp q hq)⟩
      refine ⟨?_, ⟨h.sorted, hbelow⟩, fun _ _ => rfl⟩
      exact (placedAt_eq_none fun q hq => Nat.ne_of_gt (hbelow q hq)).symm

/-! ## all rows -/

theorem rowsFrom_eq_map (h : Ahead line code) (raws : List String) :
    rowsFrom [] line raws code =
      (raws.zipIdx line).map fun (raw, i) => row i raw (placedAt code i) := by
  induction raws generalizing line code with
  | nil => rfl
  | cons raw raws ih =>
    obtain ⟨htaken, hrest, hlater⟩ := h.takeAt
    show rowsFrom [row line raw (takeAt line code).1] (line + 1) raws (takeAt line code).2 = _
    rw [rowsFrom_eq, ih hrest, htaken, List.zipIdx_cons, List.map_cons]
    apply congrArg (row line raw (placedAt code line) :: ·)
    apply List.map_congr_left
    rintro ⟨raw', i⟩ hi
    show row i raw' (placedAt (takeAt line code).2 i) = row i raw' (placedAt code i)
    rw [hlater i (List.le_snd_of_mem_zipIdx hi)]

end

/-- each row is the row of some line -/
theorem exists_line_of_mem_rowsFrom {line : Nat} {raws : List String} {code : List Placed} {r : Row}
    (hr : r ∈ rowsFrom [] line raws code) :
    ∃ i raw, raw ∈ raws ∧ ∃ placed?, r = row i raw placed? := by
  induction raws generalizing line code with
  | nil => cases hr
  | cons raw raws ih =>
    have hrows : r ∈ rowsFrom [row line raw (takeAt line code).1] (line + 1) raws _ := hr
    rw [rowsFrom_eq, List.reverse_singleton, List.singleton_append, List.mem_cons] at hrows
    rcases hrows with rfl | hrest
    · exact ⟨line, raw, List.mem_cons_self, _, rfl⟩
    · obtain ⟨i, raw', hraw', hrow⟩ := ih hrest
      exact ⟨i, raw', List.mem_cons_of_mem raw hraw', hrow⟩

section
variable {t : SymbolTable} {lines : List String} {code : Array Placed}
  (h : Assembly.Places t lines code)
include h

theorem rows_eq_map :
    rows lines code.toList =
      lines.zipIdx.map fun (raw, i) => row i raw (placedAt code.toList i) :=
  rowsFrom_eq_map ⟨h.pairwise_line, fun _ _ => Nat.zero_le _⟩ lines

theorem getElem?_rows {i : Nat} {raw : String} (hi : lines[i]? = some raw) :
    (rows lines code.toList)[i]? = some (row i raw (placedAt code.toList i)) := by
  rw [rows_eq_map h, List.getElem?_map, List.getElem?_zipIdx, hi]
  simp

/-- an instruction line is one on which an instruction was placed -/
theorem exists_placedAt {i : Nat} {raw text : String} (hi : lines[i]? = some raw)
    (ht : instructionText? raw = some text) :
    ∃ p ∈ code, p.line = i ∧ placedAt code.toList i = some p := by
  have hline : (i, text) ∈ instructionLines lines :=
    List.mem_of_getElem? (getElem?_instructionLines.mpr ⟨raw, hi, ht, rfl⟩)
  obtain ⟨p, hp, rfl⟩ := h.exists_of_mem hline
  exact ⟨p, hp, rfl, placedAt_line h.pairwise_line (Array.mem_toList_iff.mpr hp)⟩

end

/-! ## what a row shows -/

section
variable {raw : String} (placed? : Option Placed)

theorem content_blank (h : Line.parse raw = .ok .blank) : content raw placed? = .empty := by
  unfold content
  rw [h]

theorem content_label {name : String} (h : Line.parse raw = .ok (.label name)) :
    content raw placed? = .label name := by
  unfold content
  rw [h]

theorem content_instruction {text : String} (h : Line.parse raw = .ok (.instruction text))
    (p : Placed) : content raw (some p) = .word p := by
  unfold content
  rw [h]

end

/-- the instruction that a row shows -/
def Row.placed? (r : Row) : Option Placed :=
  match r.content with
  | .word placed => some placed
  | .label _ => none
  | .empty => none

theorem placed?_row (i : Nat) (raw : String) (placed? : Option Placed) :
    (row i raw placed?).placed? = (instructionText? raw).bind fun _ => placed? := by
  unfold row content Row.placed? instructionText?
  rcases Line.parse raw with _ | _ | _ | _
  · rfl
  · rfl
  · rfl
  · cases placed? <;> rfl

/-- the rows show the code, each instruction once and in order -/
theorem placed_rows {t : SymbolTable} {lines : List String} {code : Array Placed}
    (h : Assembly.Places t lines code) :
    (rows lines code.toList).filterMap Row.placed? = code.toList := by
  calc (rows lines code.toList).filterMap Row.placed?
      = ((instructionLines lines).map (·.1)).filterMap (placedAt code.toList) := by
        rw [rows_eq_map h, instructionLines, List.filterMap_map, List.filterMap_map,
          List.filterMap_filterMap]
        apply List.filterMap_congr
        rintro ⟨raw, i⟩ _
        show (row i raw (placedAt code.toList i)).placed? =
          ((instructionText? raw).map fun text => (i, text)).bind fun l => placedAt code.toList l.1
        rw [placed?_row]
        cases instructionText? raw <;> rfl
    _ = code.toList.filterMap some := by
        rw [← h.map_line, List.filterMap_map]
        exact List.filterMap_congr fun p hp => placedAt_line h.pairwise_line hp
    _ = code.toList := List.filterMap_some

end Listing

end HackAssembler
