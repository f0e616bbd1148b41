import HackAssembler.Fault

/-!
# Outcomes: results and faults of one step after another

* `bind_eq_ok_iff`, `bind_eq_error_iff`   where a sequence of two steps ends;
* `map_eq_ok_iff`, `mapError_eq_ok_iff` and the like   the same for a result or a fault that is told
  otherwise;
* `faultOf?`   the fault alone;
* `Alike`   two outcomes that are both results or both faults, and related as such.
-/

namespace HackAssembler

section
variable {ε δ α β : Type} {r : Except ε α}

theorem exists_of_isOk (h : r.isOk) : ∃ a, r = .ok a := by
  cases r with
  | error e => cases h
  | ok a => exact ⟨a, rfl⟩

theorem bind_eq_ok_iff {g : α → Except ε β} {b : β} :
    r.bind g = .ok b ↔ ∃ a, r = .ok a ∧ g a = .ok b := by
  cases r <;> simp [Except.bind]

theorem bind_eq_error_iff {g : α → Except ε β} {e : ε} :
    r.bind g = .error e ↔ r = .error e ∨ ∃ a, r = .ok a ∧ g a = .error e := by
  cases r <;> simp [Except.bind]

theorem map_eq_ok_iff {g : α → β} {b : β} : r.map g = .ok b ↔ ∃ a, r = .ok a ∧ g a = b := by
  cases r <;> simp [Except.map]

theorem map_eq_error_iff {g : α → β} {e : ε} : r.map g = .error e ↔ r = .error e := by
  cases r <;> simp [Except.map]

theorem mapError_eq_ok_iff {g : ε → δ} {a : α} : r.mapError g = .ok a ↔ r = .ok a := by
  cases r with
  | error e => constructor <;> intro h <;> cases h
  | ok b =>
    show Except.ok b = .ok a ↔ Except.ok b = .ok a
    simp

theorem mapError_eq_error_iff {g : ε → δ} {d : δ} :
    r.mapError g = .error d ↔ ∃ e, r = .error e ∧ g e = d := by
  cases r with
  | error e =>
    show Except.error (g e) = .error d ↔ _
    simp
  | ok b =>
    constructor
    · intro h
      cases h
    · rintro ⟨e, h, -⟩
      cases h

end

/-- a fault that says nothing about the one it replaces -/
theorem mapError_const_eq_error_iff {ε δ α : Type} {r : Except ε α} {d d' : δ} :
    r.mapError (fun _ => d') = .error d ↔ (¬ ∃ a, r = .ok a) ∧ d = d' := by
  rw [mapError_eq_error_iff]
  cases r <;> simp [eq_comm]

section
variable {α : Type} {r : Except Fault α}

def faultOf? : Except Fault α → Option Fault
  | .ok _ => none
  | .error f => some f

theorem faultOf?_eq_none_iff : faultOf? r = none ↔ ∃ a, r = .ok a := by
  cases r <;> simp [faultOf?]

theorem faultOf?_eq_some_iff {f : Fault} : faultOf? r = some f ↔ r = .error f := by
  cases r <;> simp [faultOf?]

end

/-! ## two outcomes -/

/-- both outcomes are faults that `E` relates, or both are results that `R` relates -/
inductive Alike {ε δ α β : Type} (E : ε → δ → Prop) (R : α → β → Prop) :
    Except ε α → Except δ β → Prop
  | error {e : ε} {d : δ} (h : E e d) : Alike E R (.error e) (.error d)
  | ok {a : α} {b : β} (h : R a b) : Alike E R (.ok a) (.ok b)

namespace Alike

variable {ε δ α β : Type} {E : ε → δ → Prop} {R : α → β → Prop} {r : Except ε α} {q : Except δ β}

theorem bind {γ ζ : Type} {S : γ → ζ → Prop} {g : α → Except ε γ} {k : β → Except δ ζ}
    (h : Alike E R r q) (hg : ∀ a b, R a b → Alike E S (g a) (k b)) :
    Alike E S (r.bind g) (q.bind k) := by
  cases h with
  | error h => exact .error h
  | ok h => exact hg _ _ h

theorem imp {F : ε → δ → Prop} {S : α → β → Prop} (h : Alike E R r q)
    (hE : ∀ e d, E e d → F e d) (hR : ∀ a b, R a b → S a b) : Alike F S r q := by
  cases h with
  | error h => exact .error (hE _ _ h)
  | ok h => exact .ok (hR _ _ h)

theorem mapError {ζ η : Type} {F : ζ → η → Prop} {g : ε → ζ} {k : δ → η} (h : Alike E R r q)
    (hg : ∀ e d, E e d → F (g e) (k d)) : Alike F R (r.mapError g) (q.mapError k) := by
  cases h with
  | error h => exact .error (hg _ _ h)
  | ok h => exact .ok h

/-- outcomes that show the same of their results -/
theorem map_eq {γ : Type} {r' : Except ε β} {g : α → γ} {k : β → γ} {E : ε → ε → Prop}
    (h : Alike E R r r') (hE : ∀ e d, E e d → e = d) (hR : ∀ a b, R a b → g a = k b) :
    r.map g = r'.map k := by
  cases h with
  | error h => exact congrArg Except.error (hE _ _ h)
  | ok h => exact congrArg Except.ok (hR _ _ h)

theorem trans {ζ γ : Type} {F : δ → ζ → Prop} {S : β → γ → Prop} {E' : ε → ζ → Prop}
    {R' : α → γ → Prop} {p : Except ζ γ} (h : Alike E R r q) (h' : Alike F S q p)
    (hE : ∀ e d z, E e d → F d z → E' e z) (hR : ∀ a b c, R a b → S b c → R' a c) :
    Alike E' R' r p := by
  cases h with
  | error h =>
    cases h' with
    | error h' => exact .error (hE _ _ _ h h')
  | ok h =>
    cases h' with
    | ok h' => exact .ok (hR _ _ _ h h')

theorem exists_ok (h : Alike E R r q) {a : α} (ha : r = .ok a) : ∃ b, q = .ok b ∧ R a b := by
  cases h with
  | error h => cases ha
  | ok h =>
    cases ha
    exact ⟨_, rfl, h⟩

theorem exists_error (h : Alike E R r q) {e : ε} (he : r = .error e) :
    ∃ d, q = .error d ∧ E e d := by
  cases h with
  | error h =>
    cases he
    exact ⟨_, rfl, h⟩
  | ok h => cases he

theorem ok_iff (h : Alike E R r q) : (∃ b, q = .ok b) ↔ ∃ a, r = .ok a := by
  cases h <;> simp

end Alike

end HackAssembler
