import HackAssembler.Proofs.Correspondence
import HackAssembler.Proofs.Resolution
import HackAssembler.Proofs.WrittenForm

/-!
# Symbol names: which ones a program uses does not matter

* `Renaming.line`          a line that defines or mentions a name is written anew with the other
                           name; all other lines stay;
* `Renaming.line_renamed`  it is then read as the same line under other names;
* `assemble_renamed`       so both programs have the same code, and the same entries under other
                           names, or a fault of the same cause on the same line.
-/

namespace HackAssembler

namespace Renaming

/-- a line under other names; a comment on a line that is written anew is lost -/
def line (f : Renaming) (raw : String) : String :=
  match definedLabel? raw, mentionedSymbol? raw with
  | some name, _ => "(" ++ f name ++ ")"
  | none, some name => "@" ++ f name
  | none, none => raw

section
variable (f : Renaming) {raw name text : String}

theorem line_of_label (h : definedLabel? raw = some name) : f.line raw = "(" ++ f name ++ ")" := by
  rw [line, h]

theorem line_of_symbol (hl : definedLabel? raw = none) (h : mentionedSymbol? raw = some name) :
    f.line raw = "@" ++ f name := by
  rw [line, hl, h]

theorem line_of_none (hl : definedLabel? raw = none) (h : mentionedSymbol? raw = none) :
    f.line raw = raw := by
  rw [line, hl, h]

/-- an instruction line under other names -/
theorem line_renamed_of_instruction (h : Line.parse raw = .ok (.instruction text)) :
    ∃ text', Line.parse (f.line raw) = .ok (.instruction text') ∧
      Line.Renamed f (.instruction text) (.instruction text') := by
  have htext : instructionText? raw = some text := instructionText?_eq_some_iff.mpr h
  have hlabel := definedLabel?_of_instruction htext
  cases hm : mentionedSymbol? raw with
  | none =>
    rw [f.line_of_none hlabel hm]
    refine ⟨text, h, .other fun name ho hn => ?_⟩
    rw [mentionedSymbol?_eq_some_iff.mpr ⟨text, htext, ho, hn⟩] at hm
    cases hm
  | some name =>
    obtain ⟨_, htext', ho, hn⟩ := mentionedSymbol?_eq_some_iff.mp hm
    obtain rfl := Option.some.inj (htext.symm.trans htext')
    have hplain := plain_of_isName (f.isName_map hn)
    rw [f.line_of_symbol hlabel hm]
    exact ⟨_, Line.parse_at hplain, .symbol ho hn (operandText?_at hplain)⟩

theorem line_renamed (raw : String) :
    Alike Eq (Line.Renamed f) (Line.parse raw) (Line.parse (f.line raw)) := by
  cases h : Line.parse raw with
  | error x =>
    have hline : f.line raw = raw :=
      f.line_of_none (by rw [definedLabel?, h])
        (by rw [mentionedSymbol?, instructionText?, h, Option.bind_none])
    rw [hline, h]
    exact .error rfl
  | ok line =>
    cases line with
    | blank =>
      have hline : f.line raw = raw :=
        f.line_of_none (by rw [definedLabel?, h])
          (by rw [mentionedSymbol?, instructionText?_of_blank h, Option.bind_none])
      rw [hline, h]
      exact .ok .blank
    | label name =>
      have hlabel : definedLabel? raw = some name := definedLabel?_eq_some_iff.mpr h
      have hn := isName_of_definedLabel? hlabel
      rw [f.line_of_label hlabel, Line.parse_label (f.isName_map hn)]
      exact .ok (.label hn)
    | instruction text =>
      obtain ⟨text', h', hl⟩ := f.line_renamed_of_instruction h
      rw [h']
      exact .ok hl

end

/-- each line of the program under other names stands where its line stood -/
theorem follows (f : Renaming) (lines : List String) (i : Nat) :
    Follows f (fun i => i) i lines i (lines.map f.line) := by
  induction lines generalizing i with
  | nil => exact .nil i i
  | cons raw raws ih => exact .line rfl (f.line_renamed raw) (ih (i + 1))

end Renaming

theorem Placed.map_moved_id (code : List Placed) : code.map (Placed.moved fun i => i) = code :=
  List.map_id code

/-- **Names do not matter.**  A program under other names is assembled just when the program is: to
the same code, with the same entries under the other names; or both have a fault of the same cause
on the same line. -/
theorem assemble_renamed (f : Renaming) (lines : List String) :
    ((∃ b, assemble (lines.map f.line) = .ok b) ↔ ∃ a, assemble lines = .ok a) ∧
    (∀ a, assemble lines = .ok a → ∃ b, assemble (lines.map f.line) = .ok b ∧
      b.code = a.code ∧ b.binary = a.binary ∧
      b.table.entries = a.table.entries.map fun e => (f e.1, e.2)) ∧
    (∀ x, assemble lines = .error x → ∃ y, assemble (lines.map f.line) = .error y ∧
      y.line = x.line ∧ y.fault.cause = x.fault.cause) := by
  have halike := (f.follows lines 0).assemble
  refine ⟨halike.ok_iff, fun a ha => ?_, fun x hx => ?_⟩
  · obtain ⟨b, hb, hab⟩ := halike.exists_ok ha
    exact ⟨b, hb, hab.code.trans (Placed.map_moved_id a.code), hab.binary, hab.table.entries⟩
  · obtain ⟨y, hy, hline, hfault⟩ := halike.exists_error hx
    exact ⟨y, hy, hline, hfault.1⟩

/-! ## an underscore in front -/

theorem isName_underscore {name : String} (h : isName name) : isName ("_" ++ name) := by
  have hchars : ("_" ++ name).toList = '_' :: name.toList := by simp
  rw [isName, hchars, isNameChars_cons]
  exact ⟨by decide, isNameRest_of_isName h⟩

theorem lookup_underscore (name : String) : predefined.lookup ("_" ++ name) = none := by
  have key : ∀ b ∈ predefined, b.1.toList.head? ≠ some '_' := by decide
  cases h : predefined.lookup ("_" ++ name) with
  | none => rfl
  | some address =>
    refine absurd ?_ (key _ (mem_of_lookup h))
    simp

section
variable {name : String}

/-- an underscore in front of the program's own names -/
def underscore (name : String) : String :=
  if (predefined.lookup name).isSome then name else "_" ++ name

theorem underscore_of_predefined (h : (predefined.lookup name).isSome) : underscore name = name :=
  if_pos h

theorem underscore_of_own (h : ¬ (predefined.lookup name).isSome) :
    underscore name = "_" ++ name :=
  if_neg h

theorem underscore_inj {a b : String} (h : underscore a = underscore b) : a = b := by
  by_cases ha : (predefined.lookup a).isSome <;> by_cases hb : (predefined.lookup b).isSome
  · rwa [underscore_of_predefined ha, underscore_of_predefined hb] at h
  · rw [underscore_of_predefined ha, underscore_of_own hb] at h
    rw [h, lookup_underscore] at ha
    cases ha
  · rw [underscore_of_own ha, underscore_of_predefined hb] at h
    rw [← h, lookup_underscore] at hb
    cases hb
  · rw [underscore_of_own ha, underscore_of_own hb] at h
    simpa using h

end

def Renaming.underscored : Renaming where
  map := underscore
  inj := fun _ _ _ _ h => underscore_inj h
  fixes := fun _ _ h => underscore_of_predefined (by simp [h])
  fresh := fun name hn h => by
    rw [underscore_of_own (by simp [h])]
    exact ⟨isName_underscore hn, lookup_underscore name⟩

theorem assemble_renamed_countdown :
    ∃ a b, assemble countdown = .ok a ∧
      assemble ["@R0", "D=M", "(_LOOP)", "@_n", "M=D", "@_END", "D;JEQ", "@_LOOP",
        "MD=D-1;JMP", "(_END)"] = .ok b ∧
      b.binary = a.binary ∧ b.table.entries.map (·.1) = ["_LOOP", "_END", "_n"] := by
  have hnames : (assemble countdown).map (fun a => a.table.entries.map (·.1)) =
      .ok ["LOOP", "END", "n"] := by decide +kernel
  obtain ⟨a, ha, hnames⟩ := map_eq_ok_iff.mp hnames
  have hlines : countdown.map Renaming.underscored.line =
      ["@R0", "D=M", "(_LOOP)", "@_n", "M=D", "@_END", "D;JEQ", "@_LOOP", "MD=D-1;JMP",
        "(_END)"] := by decide +kernel
  obtain ⟨b, hb, -, hbinary, hentries⟩ := (assemble_renamed .underscored countdown).2.1 a ha
  refine ⟨a, b, ha, hlines ▸ hb, hbinary, ?_⟩
  calc b.table.entries.map (·.1)
      = (a.table.entries.map (·.1)).map underscore := by
        rw [hentries, List.map_map, List.map_map]
        rfl
    _ = ["_LOOP", "_END", "_n"] := by
        rw [hnames]
        decide +kernel

end HackAssembler
