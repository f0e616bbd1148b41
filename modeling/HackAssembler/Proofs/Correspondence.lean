import HackAssembler.Program.Assembly
import HackAssembler.Proofs.Allocation
import HackAssembler.Proofs.Renaming

/-!
# Correspondence: a program under other names and in another layout

A program follows another one when it has the same lines, under other names, perhaps with blank
lines between them.  Both passes then go through the two programs side by side.

* `Follows`               the lines of the two programs, and where each line has gone;
* `Follows.walk`          two walks stay related as long as each step keeps them so;
* `Survey.step_renamed`, `Survey.allocate_renamed`, `Assembly.place_renamed`   the steps of the passes;
* `Follows.assemble`      both programs are assembled to the same code, or have the same fault.
-/

namespace HackAssembler

/-- line `i` of one program is line `move i` of the other one; `Follows f move i xs j ys` is about
the lines `xs` from line `i` on and the lines `ys` from line `j` on -/
inductive Follows (f : Renaming) (move : Nat → Nat) :
    Nat → List String → Nat → List String → Prop
  | nil (i j : Nat) : Follows f move i [] j []
  | blank {i j : Nat} {raw : String} {xs ys : List String} (h : Line.parse raw = .ok .blank)
      (rest : Follows f move i xs (j + 1) ys) : Follows f move i xs j (raw :: ys)
  | line {i j : Nat} {raw raw' : String} {xs ys : List String} (hj : move i = j)
      (h : Alike Eq (Line.Renamed f) (Line.parse raw) (Line.parse raw'))
      (rest : Follows f move (i + 1) xs (j + 1) ys) : Follows f move i (raw :: xs) j (raw' :: ys)

/-- the fault of a line, at the place where the line has gone -/
def LocatedFault.Moved (f : Renaming) (move : Nat → Nat) (x y : LocatedFault) : Prop :=
  y.line = move x.line ∧ Fault.Renamed f x.fault y.fault

variable {f : Renaming} {move : Nat → Nat}

/-! ## walks -/

section
variable {σ τ : Type} {R : σ → τ → Prop} {step : Nat → Line → σ → Except Fault σ}
  {step' : Nat → Line → τ → Except Fault τ}

theorem Follows.walk (hblank : ∀ j t, step' j .blank t = .ok t)
    (hstep : ∀ i line line' s t, Line.Renamed f line line' → R s t →
      Alike (Fault.Renamed f) R (step i line s) (step' (move i) line' t))
    {i j : Nat} {xs ys : List String} (h : Follows f move i xs j ys) {s : σ} {t : τ} (hst : R s t) :
    Alike (LocatedFault.Moved f move) R (walk step i xs s) (walk step' j ys t) := by
  induction h generalizing s t with
  | nil i j => exact .ok hst
  | @blank i j raw xs ys h rest ih =>
    have hskip : HackAssembler.walk step' j (raw :: ys) t = HackAssembler.walk step' (j + 1) ys t := by
      rw [walk_cons, h]
      show ((step' j .blank t).mapError _).bind _ = _
      rw [hblank]
      rfl
    rw [hskip]
    exact ih hst
  | @line i j raw raw' xs ys hj h rest ih =>
    subst hj
    rw [walk_cons, walk_cons]
    have hline : Alike (Fault.Renamed f) R ((Line.parse raw).bind fun line => step i line s)
        ((Line.parse raw').bind fun line => step' (move i) line t) :=
      (h.imp (fun x _ e => e ▸ .refl f x) fun _ _ hl => hl).bind
        fun line line' hl => hstep i line line' s t hl hst
    refine (hline.mapError ?_).bind ?_
    · intro x y hxy
      exact ⟨rfl, hxy⟩
    · intro s' t' hst'
      exact ih hst'

end

/-! ## the first pass -/

structure Survey.Renamed (f : Renaming) (move : Nat → Nat) (s s' : Survey) : Prop where
  table : SymbolTable.Renamed f s.table s'.table
  mentions : Directory.Renamed f move s.mentions s'.mentions
  count : s'.count = s.count

namespace Survey

theorem renamed_empty (f : Renaming) (move : Nat → Nat) : Survey.Renamed f move .empty .empty where
  table := .empty f
  mentions := ⟨rfl, fun _ h => nomatch h⟩
  count := rfl

section
variable {s s' : Survey} (h : Survey.Renamed f move s s')
include h

theorem addLabel_renamed {name : String} (hn : isName name) :
    Alike (Fault.Renamed f) (Survey.Renamed f move) (s.addLabel name) (s'.addLabel (f name)) := by
  rw [addLabel_eq, addLabel_eq, h.count]
  split
  · refine (h.table.add hn _).bind fun t t' ht => .ok ⟨ht, h.mentions, rfl⟩
  · exact .error (Fault.renamed_name f _ name)

theorem addInstruction_renamed (i : Nat) {text text' : String}
    (hl : Line.Renamed f (.instruction text) (.instruction text')) :
    Alike (Fault.Renamed f) (Survey.Renamed f move) (s.addInstruction i text)
      (s'.addInstruction (move i) text') := by
  rw [addInstruction_eq, addInstruction_eq]
  refine (mention?_renamed hl).bind ?_
  rintro m _ ⟨rfl, hnames⟩
  refine .ok ⟨h.table, ?_, congrArg (· + 1) h.count⟩
  cases m with
  | none => exact h.mentions
  | some name => exact h.mentions.insertIfNew (hnames name rfl) i

theorem step_renamed (i : Nat) {line line' : Line} (hl : Line.Renamed f line line') :
    Alike (Fault.Renamed f) (Survey.Renamed f move) (step i line s) (step (move i) line' s') := by
  cases hl with
  | blank => exact .ok h
  | label hn => exact addLabel_renamed h hn
  | symbol ho hn ho' => exact addInstruction_renamed h i (.symbol ho hn ho')
  | other ho => exact addInstruction_renamed h i (.other ho)

end

theorem allocate_renamed {ms : List (String × Nat)} (hms : ∀ m ∈ ms, isName m.1)
    {t t' : SymbolTable} (h : SymbolTable.Renamed f t t') :
    Alike (LocatedFault.Moved f move) (SymbolTable.Renamed f) (allocate ms t)
      (allocate (ms.map fun m => (f m.1, move m.2)) t') := by
  induction ms generalizing t t' with
  | nil => exact .ok h
  | cons m ms ih =>
    obtain ⟨name, line⟩ := m
    obtain ⟨hn, hms⟩ := List.forall_mem_cons.mp hms
    rw [List.map_cons]
    by_cases hc : t.contains name
    · rw [allocate_bound hc, allocate_bound (h.contains hn ▸ hc)]
      exact ih hms h
    · have hlater := h.takeVariable
      rw [allocate_unbound hc, allocate_unbound (h.contains hn ▸ hc), h.nextVariable]
      split
      · refine ((hlater.add hn _).mapError ?_).bind fun u u' hu => ih hms hu
        exact fun x y hxy => ⟨rfl, hxy⟩
      · exact .error ⟨rfl, Fault.renamed_name f _ name⟩

end Survey

theorem survey_eq (lines : List String) :
    survey lines =
      (walk Survey.step 0 lines .empty).bind fun s => Survey.allocate s.mentions.toList s.table := by
  rw [survey]
  cases walk Survey.step 0 lines .empty <;> rfl

/-- both first passes come to the same table, or have the same fault -/
theorem Follows.survey {p q : List String} (h : Follows f move 0 p 0 q) :
    Alike (LocatedFault.Moved f move) (SymbolTable.Renamed f) (survey p) (survey q) := by
  rw [survey_eq, survey_eq]
  have hw := h.walk (fun _ _ => rfl) (fun i _ _ _ _ hl hs => Survey.step_renamed hs i hl)
    (Survey.renamed_empty f move)
  refine hw.bind fun s s' hs => ?_
  rw [hs.mentions.toList]
  exact Survey.allocate_renamed hs.mentions.isName hs.table

/-! ## the second pass -/

/-- an instruction at the place where its line has gone -/
def Placed.moved (move : Nat → Nat) (p : Placed) : Placed := { p with line := move p.line }

structure Assembly.Renamed (f : Renaming) (move : Nat → Nat) (a b : Assembly) : Prop where
  table : SymbolTable.Renamed f a.table b.table
  code : b.code = a.code.map (Placed.moved move)

namespace Assembly

/-- the place of an instruction does not show in its word -/
theorem Renamed.binary {a b : Assembly} (h : Assembly.Renamed f move a b) : b.binary = a.binary := by
  rw [Assembly.binary, h.code, List.map_map]
  rfl

theorem place_instruction_eq (t : SymbolTable) (line : Nat) (text : String) (code : Array Placed) :
    place t line (.instruction text) code =
      if code.size ≤ maxAddress.toNat then
        (Instruction.parse t text).bind fun i => .ok (code.push ⟨line, .ofNat code.size, i⟩)
      else
        .error ⟨.outOfRange, toString code.size⟩ := by
  rw [place]
  cases Instruction.parse t text <;> rfl

section
variable {t t' : SymbolTable} (ht : SymbolTable.Renamed f t t')
include ht

theorem place_instruction_renamed (i : Nat) {text text' : String}
    (hl : Line.Renamed f (.instruction text) (.instruction text')) (code : Array Placed) :
    Alike (Fault.Renamed f) (fun c c' => c' = c.map (Placed.moved move))
      (place t i (.instruction text) code)
      (place t' (move i) (.instruction text') (code.map (Placed.moved move))) := by
  rw [place_instruction_eq, place_instruction_eq, Array.size_map]
  split
  · refine (Instruction.parse_renamed ht hl).bind ?_
    rintro instruction _ rfl
    refine .ok ?_
    rw [Array.map_push]
    rfl
  · exact .error (.refl f _)

theorem place_renamed (i : Nat) {line line' : Line} (hl : Line.Renamed f line line')
    (code : Array Placed) :
    Alike (Fault.Renamed f) (fun c c' => c' = c.map (Placed.moved move)) (place t i line code)
      (place t' (move i) line' (code.map (Placed.moved move))) := by
  cases hl with
  | blank => exact .ok rfl
  | label hn => exact .ok rfl
  | symbol ho hn ho' => exact place_instruction_renamed ht i (.symbol ho hn ho') code
  | other ho => exact place_instruction_renamed ht i (.other ho) code

end

theorem generate_eq (t : SymbolTable) (lines : List String) :
    generate t lines = (walk (place t) 0 lines #[]).bind fun code => .ok ⟨t, code.toList⟩ := by
  rw [generate]
  cases walk (place t) 0 lines #[] <;> rfl

end Assembly

/-- both second passes make the same code, or have the same fault -/
theorem Follows.generate {p q : List String} (h : Follows f move 0 p 0 q) {t t' : SymbolTable}
    (ht : SymbolTable.Renamed f t t') :
    Alike (LocatedFault.Moved f move) (Assembly.Renamed f move) (Assembly.generate t p)
      (Assembly.generate t' q) := by
  rw [Assembly.generate_eq, Assembly.generate_eq]
  have hw := h.walk (R := fun c c' => c' = c.map (Placed.moved move))
    (s := #[]) (fun _ _ => rfl)
    (fun i _ _ code _ hl hcode => hcode ▸ Assembly.place_renamed ht i hl code)
    Array.map_empty.symm
  refine hw.bind ?_
  rintro code _ rfl
  exact .ok ⟨ht, Array.toList_map ..⟩

theorem assemble_eq (lines : List String) :
    assemble lines = (survey lines).bind fun t => Assembly.generate t lines := by
  rw [assemble]
  cases survey lines <;> rfl

theorem Follows.assemble {p q : List String} (h : Follows f move 0 p 0 q) :
    Alike (LocatedFault.Moved f move) (Assembly.Renamed f move) (assemble p) (assemble q) := by
  rw [assemble_eq, assemble_eq]
  exact h.survey.bind fun _ _ ht => h.generate ht

end HackAssembler
