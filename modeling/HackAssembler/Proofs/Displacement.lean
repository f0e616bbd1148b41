import HackAssembler.Proofs.Acceptance

/-!
# Displacement: a program inside another one

The instructions of a program may stand further down in another program, and its variables further
up in the data cells.  A symbol of the program then has the address it had, and the distance that
its kind has moved.

* `Offset`                  how far lines, instructions and variables have moved;
* `Carried`                 a name that means the same thing in both programs;
* `Surveyed.lookup?_carried`, `Surveyed.parse_carried`   its address, and the instruction that
                            loads it;
* `Assembled.code_carried`  the code of the program inside the code of the other one.
-/

namespace HackAssembler

/-! ## offsets -/

/-- how far a program has moved -/
structure Offset where
  lines : Nat
  instructions : Nat
  cells : Nat

namespace Offset

/-- a program that has not moved -/
def zero : Offset := ⟨0, 0, 0⟩

/-- how far the address of a symbol has moved -/
def distance (o : Offset) : SymbolKind → Nat
  | .predefined => 0
  | .label => o.instructions
  | .variable => o.cells

/-- how far the value of a line has moved: that of the symbol it mentions, if it mentions one -/
def displacement (o : Offset) (t : SymbolTable) (raw : String) : Nat :=
  ((mentionedSymbol? raw).bind t.kind?).elim 0 o.distance

@[simp] theorem distance_zero (kind : SymbolKind) : zero.distance kind = 0 := by
  cases kind <;> rfl

@[simp] theorem displacement_zero (t : SymbolTable) (raw : String) :
    zero.displacement t raw = 0 := by
  unfold displacement
  cases (mentionedSymbol? raw).bind t.kind? with
  | none => rfl
  | some kind => exact distance_zero kind

section
variable {o : Offset} {t : SymbolTable} {raw : String}

theorem displacement_of_none (h : mentionedSymbol? raw = none) : o.displacement t raw = 0 := by
  rw [displacement, h]
  rfl

theorem displacement_of_lookup? {name : String} (h : mentionedSymbol? raw = some name)
    {b : Binding} (hb : t.lookup? name = some b) :
    o.displacement t raw = o.distance b.kind := by
  rw [displacement, h, Option.bind_some, SymbolTable.kind?, hb]
  rfl

end

end Offset

def Binding.displaced (o : Offset) (b : Binding) : Binding :=
  { b with address := b.address + .ofNat (o.distance b.kind) }

/-- an address instruction whose value has grown -/
def Instruction.advance (d : Nat) : Instruction → Instruction
  | address value => .address (value + .ofNat d)
  | compute dest comp jump => .compute dest comp jump

/-- how far the value of an instruction of the program `lines` with the table `t` has moved -/
def Placed.displacement (o : Offset) (lines : List String) (t : SymbolTable) (x : Placed) : Nat :=
  lines[x.line]?.elim 0 (o.displacement t)

/-- the instruction where the program has moved -/
def Placed.displaced (o : Offset) (lines : List String) (t : SymbolTable) (x : Placed) : Placed :=
  { line := x.line + o.lines
    address := x.address + .ofNat o.instructions
    instruction := x.instruction.advance (x.displacement o lines t) }

@[simp] theorem Binding.displaced_zero (b : Binding) : b.displaced .zero = b := by
  obtain ⟨kind, address⟩ := b
  simp [displaced]

@[simp] theorem Instruction.advance_zero (i : Instruction) : i.advance 0 = i := by
  cases i <;> simp [advance]

namespace Placed

theorem displacement_eq (o : Offset) {lines : List String} (t : SymbolTable) {x : Placed}
    {raw : String} (h : lines[x.line]? = some raw) :
    x.displacement o lines t = o.displacement t raw := by
  rw [displacement, h]
  rfl

theorem displacement_eq_zero {o : Offset} {t : SymbolTable} (h : ∀ raw, o.displacement t raw = 0)
    (lines : List String) (x : Placed) : x.displacement o lines t = 0 := by
  unfold displacement
  cases lines[x.line]? with
  | none => rfl
  | some raw => exact h raw

@[simp] theorem displaced_zero (lines : List String) (t : SymbolTable) (x : Placed) :
    x.displaced .zero lines t = x := by
  rw [displaced, displacement_eq_zero (Offset.displacement_zero t), Instruction.advance_zero]
  simp [Offset.zero]

end Placed

/-! ## names that mean the same -/

/-- what the program `xs` makes of a name is found in `ys` too, an offset further -/
structure Carried (o : Offset) (xs ys : List String) (name : String) : Prop where
  label : ∀ k, (name, k) ∈ labels xs → (name, k + o.instructions) ∈ labels ys
  cell : ∀ j : Nat, (variableNames xs)[j]? = some name →
    (variableNames ys)[j + o.cells]? = some name

section
variable {o : Offset} {xs ys : List String} {t u : SymbolTable}

theorem Surveyed.lookup?_carried (hx : Surveyed xs t) (hy : Surveyed ys u) {name : String}
    (hc : Carried o xs ys name) {b : Binding} (hb : t.lookup? name = some b) :
    u.lookup? name = some (b.displaced o) := by
  rcases hx.lookup?_cases hb with ⟨address, hp, rfl⟩ | ⟨k, hl, rfl⟩ | ⟨j, hj, rfl⟩
  · rw [SymbolTable.lookup?, hp]
    simp [Binding.displaced, Offset.distance]
  · rw [hy.lookup?_label (hc.label k hl)]
    simp [Binding.displaced, Offset.distance]
  · rw [hy.lookup?_variable (hc.cell j hj)]
    simp [Binding.displaced, Offset.distance, ← Nat.add_assoc]

/-- the instruction of a line whose symbol is carried -/
theorem Surveyed.parse_carried (hx : Surveyed xs t) (hy : Surveyed ys u) {raw text : String}
    (ht : instructionText? raw = some text)
    (hc : ∀ name, mentionedSymbol? raw = some name → Carried o xs ys name) {i : Instruction}
    (hi : Instruction.parse t text = .ok i) :
    Instruction.parse u text = .ok (i.advance (o.displacement t raw)) := by
  cases hm : mentionedSymbol? raw with
  | none =>
    -- no name is looked up, so any two tables agree on the line
    have hno : ∀ name, operandText? text = some name → isName name →
        u.address name = t.address name := by
      intro name ho hn
      have hsome := mentionedSymbol?_eq_some_iff.mpr ⟨text, ht, ho, hn⟩
      rw [hm] at hsome
      cases hsome
    rw [Instruction.parse_congr hno, hi, Offset.displacement_of_none hm, Instruction.advance_zero]
  | some name =>
    obtain ⟨text', ht', ho, hn⟩ := mentionedSymbol?_eq_some_iff.mp hm
    obtain rfl := Option.some.inj (ht.symm.trans ht')
    rw [Instruction.parse_symbol ho hn] at hi
    obtain ⟨value, hv, hi⟩ := bind_eq_ok_iff.mp hi
    obtain ⟨b, hb, rfl⟩ := SymbolTable.address_eq_ok_iff.mp hv
    rw [Instruction.ofAddress, if_pos (hx.address_le hb)] at hi
    cases hi
    have hb' := hx.lookup?_carried hy (hc name hm) hb
    rw [Instruction.parse_symbol ho hn, SymbolTable.address_eq_ok_iff.mpr ⟨_, hb', rfl⟩]
    show (Instruction.ofAddress (b.displaced o).address).mapError _ = _
    rw [Instruction.ofAddress, if_pos (hy.address_le hb'), Offset.displacement_of_lookup? hm hb]
    rfl

end

/-! ## code inside other code -/

theorem Assembled.code_carried {o : Offset} {xs ys : List String} {a c : Assembly}
    (ha : Assembled xs a) (hc : Assembled ys c)
    (hcarried : ∀ name ∈ mentionedNames xs, Carried o xs ys name) {k : Nat} {x : Placed}
    (hx : a.code[k]? = some x) {i : Nat}
    (hi : ∀ text, (instructionLines xs)[k]? = some (x.line, text) →
      (instructionLines ys)[k + o.instructions]? = some (i, text)) :
    c.code[k + o.instructions]? = some { x.displaced o xs a.table with line := i } := by
  obtain ⟨text, hl, haddress, hparse⟩ := (ha.code k x).mp hx
  obtain ⟨raw, hraw, ht, -⟩ := getElem?_instructionLines.mp hl
  refine (hc.code _ _).mpr ⟨text, hi text hl, ?_, ?_⟩
  · show x.address + .ofNat o.instructions = _
    rw [haddress, UInt16.ofNat_add]
  · show _ = Except.ok (x.instruction.advance (x.displacement o xs a.table))
    rw [Placed.displacement_eq o a.table hraw]
    refine ha.table.parse_carried hc.table ht (fun name hm => hcarried name ?_) hparse
    exact mem_mentionedNames.mpr ⟨raw, List.mem_of_getElem? hraw, hm⟩

end HackAssembler
