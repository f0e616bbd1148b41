import HackAssembler.Program.Walk
import HackAssembler.Proofs.Outcome
import HackAssembler.Proofs.Outline

/-!
# Judgements: the line at which a walk stops

A judgement tells the fault of a line from the line and the lines above it.  A walk whose steps
agree with a judgement goes through a faultless program, and stops at the first fault of any other.

* `faultless_or_firstFault`   a program is faultless or has a first fault;
* `line_of_walk_error`        the line that a walk stops at, and the lines above it;
* `Keeps.inv_of_walk`         an invariant of the steps holds where a walk has gone through;
* `Agrees.walk_eq_error_iff`   a walk stops exactly at the first fault.
-/

namespace HackAssembler

/-- the fault of a line, if it has one, given the lines above it -/
abbrev Judgement := List String → String → Option Fault

def Faultless (judge : Judgement) (lines : List String) : Prop :=
  ∀ i raw, lines[i]? = some raw → judge (lines.take i) raw = none

/-- line `i` has the fault `f`, and no line above it has one -/
structure FirstFault (judge : Judgement) (lines : List String) (i : Nat) (f : Fault) : Prop where
  fault : ∃ raw, lines[i]? = some raw ∧ judge (lines.take i) raw = some f
  above : ∀ j < i, ∀ raw, lines[j]? = some raw → judge (lines.take j) raw = none

/-! ## one more line -/

section
variable {judge : Judgement} {xs ys : List String} {x : String}

theorem faultless_concat :
    Faultless judge (xs ++ [x]) ↔ Faultless judge xs ∧ judge xs x = none := by
  constructor
  · intro h
    refine ⟨fun i raw hi => ?_, ?_⟩
    · have hlt : i < xs.length := (List.getElem?_eq_some_iff.mp hi).1
      have := h i raw (getElem?_concat_eq_some_iff.mpr (.inl hi))
      rwa [List.take_append_of_le_length (Nat.le_of_lt hlt)] at this
    · have := h xs.length x (getElem?_concat_eq_some_iff.mpr (.inr ⟨rfl, rfl⟩))
      rwa [List.take_left] at this
  · rintro ⟨hxs, hx⟩ i raw hi
    rcases getElem?_concat_eq_some_iff.mp hi with h | ⟨rfl, rfl⟩
    · have hlt : i < xs.length := (List.getElem?_eq_some_iff.mp h).1
      rw [List.take_append_of_le_length (Nat.le_of_lt hlt)]
      exact hxs i raw h
    · rwa [List.take_left]

theorem FirstFault.append {i : Nat} {f : Fault} (h : FirstFault judge xs i f)
    (ys : List String) : FirstFault judge (xs ++ ys) i f := by
  obtain ⟨raw, hraw, hf⟩ := h.fault
  have hi : i < xs.length := (List.getElem?_eq_some_iff.mp hraw).1
  refine ⟨⟨raw, ?_, ?_⟩, fun j hj raw' hraw' => ?_⟩
  · rwa [List.getElem?_append_left hi]
  · rwa [List.take_append_of_le_length (Nat.le_of_lt hi)]
  · have hjx : j < xs.length := Nat.lt_trans hj hi
    rw [List.getElem?_append_left hjx] at hraw'
    rw [List.take_append_of_le_length (Nat.le_of_lt hjx)]
    exact h.above j hj raw' hraw'

theorem Faultless.firstFault_concat {f : Fault} (h : Faultless judge xs)
    (hx : judge xs x = some f) : FirstFault judge (xs ++ [x]) xs.length f := by
  refine ⟨⟨x, getElem?_concat_eq_some_iff.mpr (.inr ⟨rfl, rfl⟩), ?_⟩, fun j hj raw hraw => ?_⟩
  · rwa [List.take_left]
  · rw [List.getElem?_append_left hj] at hraw
    rw [List.take_append_of_le_length (Nat.le_of_lt hj)]
    exact h j raw hraw

end

/-! ## more lines -/

section
variable {judge : Judgement} {xs ys : List String}

theorem Faultless.of_append (h : Faultless judge (xs ++ ys)) : Faultless judge xs := by
  intro i raw hraw
  have hi : i < xs.length := (List.getElem?_eq_some_iff.mp hraw).1
  have hfree := h i raw (by rwa [List.getElem?_append_left hi])
  rwa [List.take_append_of_le_length (Nat.le_of_lt hi)] at hfree

theorem Faultless.append (hxs : Faultless judge xs)
    (hys : ∀ i raw, ys[i]? = some raw → judge (xs ++ ys.take i) raw = none) :
    Faultless judge (xs ++ ys) := by
  intro i raw hraw
  rcases Nat.lt_or_ge i xs.length with hi | hi
  · rw [List.getElem?_append_left hi] at hraw
    rw [List.take_append_of_le_length (Nat.le_of_lt hi)]
    exact hxs i raw hraw
  · rw [List.getElem?_append_right hi] at hraw
    rw [List.take_append, List.take_of_length_le hi]
    exact hys _ raw hraw

end

/-! ## the first fault -/

section
variable {judge : Judgement} {lines : List String}

theorem faultless_or_firstFault (judge : Judgement) (lines : List String) :
    Faultless judge lines ∨ ∃ i f, FirstFault judge lines i f := by
  induction lines using List.reverseRecOn with
  | nil => exact .inl fun i raw h => by simp at h
  | append_singleton xs x ih =>
    rcases ih with h | ⟨i, f, h⟩
    · cases hx : judge xs x with
      | none => exact .inl (faultless_concat.mpr ⟨h, hx⟩)
      | some f => exact .inr ⟨xs.length, f, h.firstFault_concat hx⟩
    · exact .inr ⟨i, f, h.append [x]⟩

/-- only the faults of the lines of the program matter -/
theorem firstFault_congr {judge' : Judgement} {i : Nat} {f : Fault}
    (h : ∀ above, ∀ raw ∈ lines, judge above raw = judge' above raw) :
    FirstFault judge lines i f ↔ FirstFault judge' lines i f := by
  have hline : ∀ j raw, lines[j]? = some raw →
      judge (lines.take j) raw = judge' (lines.take j) raw :=
    fun j raw hraw => h _ raw (List.mem_of_getElem? hraw)
  constructor
  · rintro ⟨⟨raw, hraw, hf⟩, habove⟩
    refine ⟨⟨raw, hraw, (hline i raw hraw).symm.trans hf⟩, fun j hj raw' hraw' => ?_⟩
    exact (hline j raw' hraw').symm.trans (habove j hj raw' hraw')
  · rintro ⟨⟨raw, hraw, hf⟩, habove⟩
    refine ⟨⟨raw, hraw, (hline i raw hraw).trans hf⟩, fun j hj raw' hraw' => ?_⟩
    exact (hline j raw' hraw').trans (habove j hj raw' hraw')

/-- the program up to its first fault -/
theorem FirstFault.split {i : Nat} {f : Fault} (h : FirstFault judge lines i f) :
    ∃ xs x ys, lines = xs ++ x :: ys ∧ xs.length = i ∧ Faultless judge xs ∧ judge xs x = some f := by
  obtain ⟨raw, hraw, hf⟩ := h.fault
  obtain ⟨hi, hget⟩ := List.getElem?_eq_some_iff.mp hraw
  refine ⟨lines.take i, raw, lines.drop (i + 1), ?_, ?_, fun j raw' hraw' => ?_, hf⟩
  · rw [← hget, ← List.drop_eq_getElem_cons hi, List.take_append_drop]
  · exact List.length_take_of_le (Nat.le_of_lt hi)
  · obtain ⟨hj, -⟩ := List.getElem?_eq_some_iff.mp hraw'
    have hji : j < i := by rw [List.length_take] at hj; omega
    rw [List.getElem?_take_of_lt hji] at hraw'
    rw [List.take_take, Nat.min_eq_left (Nat.le_of_lt hji)]
    exact h.above j hji raw' hraw'

end

/-! ## walks -/

section
variable {σ : Type}

/-- one line of a walk -/
def readLine (step : Nat → Line → σ → Except Fault σ) (i : Nat) (raw : String) (s : σ) :
    Except Fault σ :=
  (Line.parse raw).bind fun line => step i line s

/-- the steps keep a relation between the lines read so far and the state -/
def Keeps (step : Nat → Line → σ → Except Fault σ) (Inv : List String → σ → Prop) : Prop :=
  ∀ xs x s s', Inv xs s → readLine step xs.length x s = .ok s' → Inv (xs ++ [x]) s'

/-- on the lines of a program, the steps fail where a judgement finds a fault -/
def Agrees (step : Nat → Line → σ → Except Fault σ) (Inv : List String → σ → Prop)
    (judge : Judgement) (lines : List String) : Prop :=
  ∀ xs x s, xs ++ [x] <+: lines → Inv xs s → faultOf? (readLine step xs.length x s) = judge xs x

variable {step : Nat → Line → σ → Except Fault σ} {Inv : List String → σ → Prop}
  {judge : Judgement} {lines : List String} {s₀ : σ}

theorem walk_concat_of_ok {xs : List String} {s : σ} (h : walk step 0 xs s₀ = .ok s) (x : String) :
    walk step 0 (xs ++ [x]) s₀ =
      (readLine step xs.length x s).mapError (LocatedFault.mk xs.length) := by
  rw [walk_append, h]
  show walk step (0 + xs.length) [x] s = _
  rw [walk_cons, Nat.zero_add]
  show ((readLine step xs.length x s).mapError _).bind _ = _
  cases readLine step xs.length x s <;> rfl

theorem walk_concat_eq_ok {xs : List String} {x : String} {s' : σ}
    (h : walk step 0 (xs ++ [x]) s₀ = .ok s') :
    ∃ s, walk step 0 xs s₀ = .ok s ∧ readLine step xs.length x s = .ok s' := by
  cases hxs : walk step 0 xs s₀ with
  | error e =>
    rw [walk_append, hxs] at h
    cases h
  | ok s =>
    rw [walk_concat_of_ok hxs] at h
    exact ⟨s, rfl, mapError_eq_ok_iff.mp h⟩

/-- a walk that fails has gone through the lines above the one it fails on -/
theorem line_of_walk_error {e : LocatedFault} (h : walk step 0 lines s₀ = .error e) :
    ∃ x s, lines[e.line]? = some x ∧ walk step 0 (lines.take e.line) s₀ = .ok s ∧
      readLine step e.line x s = .error e.fault := by
  induction lines using List.reverseRecOn with
  | nil => cases h
  | append_singleton xs x ih =>
    cases hxs : walk step 0 xs s₀ with
    | error e' =>
      rw [walk_append, hxs] at h
      cases h
      obtain ⟨y, s, hy, hrest⟩ := ih hxs
      have hlt : e.line < xs.length := (List.getElem?_eq_some_iff.mp hy).1
      refine ⟨y, s, ?_, ?_⟩
      · rwa [List.getElem?_append_left hlt]
      · rwa [List.take_append_of_le_length (Nat.le_of_lt hlt)]
    | ok s =>
      rw [walk_concat_of_ok hxs] at h
      obtain ⟨f, hf, rfl⟩ := mapError_eq_error_iff.mp h
      refine ⟨x, s, getElem?_concat_eq_some_iff.mpr (.inr ⟨rfl, rfl⟩), ?_, hf⟩
      rwa [List.take_left]

theorem Keeps.inv_of_walk (hkeep : Keeps step Inv) (h₀ : Inv [] s₀) {s : σ}
    (h : walk step 0 lines s₀ = .ok s) : Inv lines s := by
  induction lines using List.reverseRecOn generalizing s with
  | nil =>
    cases h
    exact h₀
  | append_singleton xs x ih =>
    obtain ⟨s', hxs, hx⟩ := walk_concat_eq_ok h
    exact hkeep xs x s' s (ih hxs) hx

theorem Agrees.restrict {xs : List String} (hagree : Agrees step Inv judge lines)
    (hp : xs <+: lines) : Agrees step Inv judge xs :=
  fun ys y s hy => hagree ys y s (hy.trans hp)

theorem Agrees.walk_ok (hagree : Agrees step Inv judge lines) (hkeep : Keeps step Inv)
    (h₀ : Inv [] s₀) (h : Faultless judge lines) : ∃ s, walk step 0 lines s₀ = .ok s := by
  induction lines using List.reverseRecOn with
  | nil => exact ⟨s₀, rfl⟩
  | append_singleton xs x ih =>
    obtain ⟨hxs, hx⟩ := faultless_concat.mp h
    obtain ⟨s, hs⟩ := ih (hagree.restrict (List.prefix_append xs [x])) hxs
    have hf := hagree xs x s (List.prefix_refl _) (hkeep.inv_of_walk h₀ hs)
    obtain ⟨s', hr⟩ := faultOf?_eq_none_iff.mp (hf.trans hx)
    exact ⟨s', by rw [walk_concat_of_ok hs, hr]; rfl⟩

theorem Agrees.walk_eq_error (hagree : Agrees step Inv judge lines) (hkeep : Keeps step Inv)
    (h₀ : Inv [] s₀) {i : Nat} {f : Fault} (h : FirstFault judge lines i f) :
    walk step 0 lines s₀ = .error ⟨i, f⟩ := by
  obtain ⟨xs, x, ys, rfl, rfl, hxs, hx⟩ := h.split
  have hp : xs ++ [x] <+: xs ++ x :: ys := ⟨ys, by simp⟩
  obtain ⟨s, hs⟩ := (hagree.restrict ((List.prefix_append xs [x]).trans hp)).walk_ok hkeep h₀ hxs
  have hf := hagree xs x s hp (hkeep.inv_of_walk h₀ hs)
  have hr := faultOf?_eq_some_iff.mp (hf.trans hx)
  have hw : walk step 0 (xs ++ [x]) s₀ = .error ⟨xs.length, f⟩ := by
    rw [walk_concat_of_ok hs, hr]
    rfl
  rw [List.append_cons, walk_append, hw]
  rfl

theorem Agrees.walk_eq_error_iff (hagree : Agrees step Inv judge lines) (hkeep : Keeps step Inv)
    (h₀ : Inv [] s₀) {e : LocatedFault} :
    walk step 0 lines s₀ = .error e ↔ FirstFault judge lines e.line e.fault := by
  constructor
  · intro h
    rcases faultless_or_firstFault judge lines with hl | ⟨i, f, hf⟩
    · obtain ⟨s, hs⟩ := hagree.walk_ok hkeep h₀ hl
      rw [hs] at h
      cases h
    · rw [hagree.walk_eq_error hkeep h₀ hf] at h
      cases h
      exact hf
  · exact hagree.walk_eq_error hkeep h₀

end

end HackAssembler
