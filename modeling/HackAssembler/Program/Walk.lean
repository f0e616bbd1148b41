import HackAssembler.Source.Line

/-!
# Walks: one pass over the lines of a program

A pass keeps a state and takes a step for each line, in order.  It stops at the first fault, which
it ties to the line it was found on.

* `walk_cons`     one line;
* `walk_append`   the lines of two programs in a row;
* `walk_congr`    only what the steps do on the lines of the program counts.
-/

namespace HackAssembler

variable {σ : Type}

/-- `i` is the number of the first of the lines -/
@[specialize] def walk (step : Nat → Line → σ → Except Fault σ) :
    Nat → List String → σ → Except LocatedFault σ
  | _, [], s => .ok s
  | i, raw :: raws, s =>
    match Line.parse raw with
    | .error f => .error ⟨i, f⟩
    | .ok line =>
      match step i line s with
      | .error f => .error ⟨i, f⟩
      | .ok s' => walk step (i + 1) raws s'

theorem walk_cons (step : Nat → Line → σ → Except Fault σ) (i : Nat) (raw : String)
    (raws : List String) (s : σ) :
    walk step i (raw :: raws) s =
      (((Line.parse raw).bind fun line => step i line s).mapError (LocatedFault.mk i)).bind
        fun s' => walk step (i + 1) raws s' := by
  rw [walk]
  cases Line.parse raw with
  | error f => rfl
  | ok line =>
    show _ = ((step i line s).mapError (LocatedFault.mk i)).bind _
    cases h : step i line s <;> simp only [h] <;> rfl

theorem walk_append (step : Nat → Line → σ → Except Fault σ) (i : Nat) (xs ys : List String)
    (s : σ) :
    walk step i (xs ++ ys) s = (walk step i xs s).bind fun s' => walk step (i + xs.length) ys s' := by
  induction xs generalizing i s with
  | nil => rfl
  | cons x xs ih =>
    rw [List.cons_append, walk_cons, walk_cons]
    cases ((Line.parse x).bind fun line => step i line s).mapError (LocatedFault.mk i) with
    | error f => rfl
    | ok s' =>
      show walk step (i + 1) (xs ++ ys) s' = (walk step (i + 1) xs s').bind _
      rw [ih, List.length_cons, Nat.add_right_comm, Nat.add_assoc]

theorem walk_congr {step step' : Nat → Line → σ → Except Fault σ} {lines : List String}
    (h : ∀ raw ∈ lines, ∀ line, Line.parse raw = .ok line → ∀ i s, step i line s = step' i line s)
    (i : Nat) (s : σ) : walk step i lines s = walk step' i lines s := by
  induction lines generalizing i s with
  | nil => rfl
  | cons raw raws ih =>
    obtain ⟨hraw, hraws⟩ := List.forall_mem_cons.mp h
    have hrest : (fun s' => walk step (i + 1) raws s') = fun s' => walk step' (i + 1) raws s' := by
      funext s'
      exact ih hraws (i + 1) s'
    rw [walk_cons, walk_cons, hrest]
    cases hl : Line.parse raw with
    | error f => rfl
    | ok line =>
      show ((step i line s).mapError _).bind _ = ((step' i line s).mapError _).bind _
      rw [hraw line hl]

end HackAssembler
