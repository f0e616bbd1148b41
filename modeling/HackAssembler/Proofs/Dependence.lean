import HackAssembler.Proofs.History
import HackAssembler.Proofs.SecondPass

/-!
# Dependence: what the second pass takes from its table

The table may be any, also one that no first pass makes, with addresses that no instruction can
carry.

* `SameAddresses`               two tables that agree on the symbols of a program;
* `Assembly.place_congr`        a step of the pass reads the symbol of its line and nothing else;
* `Assembly.generate_congr`     so the whole pass comes to the same end under both tables;
* `generate_of_same_addresses`   that end, and the code that it may be, line by line.
-/

namespace HackAssembler

/-- the tables answer alike for every symbol that stands behind an `@` in `lines` -/
def SameAddresses (lines : List String) (t t' : SymbolTable) : Prop :=
  ∀ raw ∈ lines, ∀ name ∈ mentionedSymbol? raw, t.address name = t'.address name

instance (lines : List String) (t t' : SymbolTable) : Decidable (SameAddresses lines t t') :=
  inferInstanceAs
    (Decidable (∀ raw ∈ lines, ∀ name ∈ mentionedSymbol? raw, t.address name = t'.address name))

namespace Assembly

section
variable {lines : List String} {t t' : SymbolTable} (h : SameAddresses lines t t')
include h

theorem place_congr {raw : String} (hraw : raw ∈ lines) {line : Line}
    (hline : Line.parse raw = .ok line) (i : Nat) (code : Array Placed) :
    place t i line code = place t' i line code := by
  cases line with
  | blank => rfl
  | label name => rfl
  | instruction text =>
    have hparse : Instruction.parse t text = Instruction.parse t' text := by
      apply Instruction.parse_congr
      intro name ho hn
      apply h raw hraw name
      exact mentionedSymbol?_eq_some_iff.mpr ⟨text, instructionText?_eq_some_iff.mpr hline, ho, hn⟩
    rw [place, place, hparse]

/-- the pass under one table, and the pass under the other one -/
theorem generate_congr :
    (∃ e, generate t lines = .error e ∧ generate t' lines = .error e) ∨
      ∃ code, generate t lines = .ok ⟨t, code⟩ ∧ generate t' lines = .ok ⟨t', code⟩ := by
  have hwalk : walk (place t) 0 lines #[] = walk (place t') 0 lines #[] :=
    walk_congr (fun _ hraw _ hline => place_congr h hraw hline) 0 #[]
  unfold generate
  rw [← hwalk]
  cases walk (place t) 0 lines #[] with
  | error e => exact .inl ⟨e, rfl, rfl⟩
  | ok code => exact .inr ⟨code.toList, rfl, rfl⟩

end

/-! ## the code -/

section
variable {t : SymbolTable} {lines : List String} {code : Array Placed}

/-- the addresses count up from zero -/
theorem Places.map_address (h : Places t lines code) :
    code.toList.map (·.address.toNat) = List.range code.size := by
  apply List.ext_getElem?
  intro k
  rw [List.getElem?_map, Array.getElem?_toList]
  cases hk : code[k]? with
  | none =>
    have hout : code.size ≤ k := Array.getElem?_eq_none_iff.mp hk
    rw [List.getElem?_eq_none (by rwa [List.length_range]), Option.map_none]
  | some p =>
    have hlt : k < code.size := (Array.getElem?_eq_some_iff.mp hk).1
    obtain ⟨text, -, haddress, -⟩ := h.getElem?_eq_some_iff.mp hk
    have hfits := h.fits
    rw [List.getElem?_range hlt, Option.map_some, haddress, toNat_ofNat_of_le (by omega)]

/-- an instruction is what its line says -/
theorem Places.line_of_mem (h : Places t lines code) {p : Placed} (hp : p ∈ code) :
    ∃ raw text, lines[p.line]? = some raw ∧ Line.parse raw = .ok (.instruction text) ∧
      Instruction.parse t text = .ok p.instruction := by
  obtain ⟨k, text, hl, -, hparse⟩ := h.exists_text_of_mem hp
  obtain ⟨raw, hraw, ht, -⟩ := getElem?_instructionLines.mp hl
  exact ⟨raw, text, hraw, instructionText?_eq_some_iff.mp ht, hparse⟩

end

end Assembly

/-- **The second pass reads only the addresses it needs.**  Two tables that agree on the symbols of
a program lead to the same fault, or to the same code, and each table is handed on as it is.  The
code holds the instruction lines from top to bottom, at the addresses from zero on, each read from
the text of its line; and no value exceeds fifteen bits, whatever the tables hold. -/
theorem generate_of_same_addresses {lines : List String} {t t' : SymbolTable}
    (h : SameAddresses lines t t') :
    (∃ e, Assembly.generate t lines = .error e ∧ Assembly.generate t' lines = .error e) ∨
    ∃ code,
      Assembly.generate t lines = .ok ⟨t, code⟩ ∧ Assembly.generate t' lines = .ok ⟨t', code⟩ ∧
      code.map (·.line) = (instructionLines lines).map (·.1) ∧
      (code.map (·.line)).Pairwise (· < ·) ∧
      code.map (·.address.toNat) = List.range code.length ∧ code.length ≤ 32768 ∧
      ∀ p ∈ code,
        (∃ raw text, lines[p.line]? = some raw ∧ Line.parse raw = .ok (.instruction text) ∧
          Instruction.parse t text = .ok p.instruction) ∧
        ∀ value, p.instruction = .address value → value ≤ maxAddress := by
  rcases Assembly.generate_congr h with hfault | ⟨code, hcode, hcode'⟩
  · exact .inl hfault
  · right
    obtain ⟨-, placed, rfl, hplaces⟩ := Assembly.places_of_generate hcode
    refine ⟨_, hcode, hcode', hplaces.map_line, ?_, ?_, ?_, ?_⟩
    · rw [List.pairwise_map]
      exact hplaces.pairwise_line
    · rw [hplaces.map_address, Array.length_toList]
    · rw [Array.length_toList]
      exact hplaces.fits
    · intro p hp
      rw [Array.mem_toList_iff] at hp
      refine ⟨hplaces.line_of_mem hp, ?_⟩
      intro value hvalue
      have hfit := hplaces.encodable hp
      rwa [hvalue] at hfit

/-- the tables differ in kinds, in their counters and in a name that is not mentioned; the second
program mentions one whose address is too large -/
theorem generate_of_same_addresses_large :
    let t := tableAfter [.add "x" ⟨.variable, 20⟩, .takeVariable, .add "y" ⟨.label, 40000⟩,
      .add "z" ⟨.label, 1⟩]
    let t' := tableAfter [.add "y" ⟨.predefined, 40000⟩, .add "x" ⟨.label, 20⟩]
    (∃ code, Assembly.generate t ["@x", "(y)", "@7 // z"] = .ok ⟨t, code⟩ ∧
      Assembly.generate t' ["@x", "(y)", "@7 // z"] = .ok ⟨t', code⟩ ∧
      code.map (·.line) = [0, 2]) ∧
    Assembly.generate t ["@x", "@y"] = .error ⟨1, ⟨.outOfRange, "y"⟩⟩ ∧
      Assembly.generate t' ["@x", "@y"] = .error ⟨1, ⟨.outOfRange, "y"⟩⟩ := by
  intro t t'
  have hok : SameAddresses ["@x", "(y)", "@7 // z"] t t' := by decide +kernel
  have hfault : SameAddresses ["@x", "@y"] t t' := by decide +kernel
  constructor
  · obtain ⟨a, ha⟩ : ∃ a, Assembly.generate t ["@x", "(y)", "@7 // z"] = .ok a :=
      exists_of_isOk (by decide +kernel)
    rcases generate_of_same_addresses hok with ⟨e, he, -⟩ | ⟨code, h, h', hlines, -⟩
    · rw [he] at ha
      cases ha
    · exact ⟨code, h, h', hlines.trans (by decide +kernel)⟩
  · have hrun : (Assembly.generate t ["@x", "@y"]).map (·.binary) =
        .error ⟨1, ⟨.outOfRange, "y"⟩⟩ := by decide +kernel
    have hrun := map_eq_error_iff.mp hrun
    rcases generate_of_same_addresses hfault with ⟨e, he, he'⟩ | ⟨code, h, -⟩
    · rw [he] at hrun
      cases hrun
      exact ⟨he, he'⟩
    · rw [h] at hrun
      cases hrun

end HackAssembler
