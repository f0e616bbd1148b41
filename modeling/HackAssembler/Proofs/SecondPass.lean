import HackAssembler.Program.Assembly
import HackAssembler.Proofs.Statements

/-!
# The second pass: code, line by line

* `placeFault?`        what the second pass finds wrong with a line under a table;
* `Assembly.Places`    the code of some lines, told from the lines alone;
* `Assembly.keeps`, `Assembly.agrees`   one step keeps the code in place, and fails as `placeFault?`
                       says;
* `Assembly.places_of_generate`, `Assembly.generate_eq_error_iff`   the same for a whole pass.

The table may be any: nothing here assumes that it comes from a first pass.
-/

namespace HackAssembler

/-- what the second pass finds wrong with a line: the instruction memory has `maxAddress + 1`
words, and an instruction without a place is not looked at -/
def placeFault? (t : SymbolTable) : Judgement := fun above raw =>
  match Line.parse raw with
  | .error _ => some ⟨.malformedLabel, codeOf raw⟩
  | .ok (.instruction text) =>
    if instructionCount above ≤ maxAddress.toNat then
      faultOf? (Instruction.parse t text)
    else
      some ⟨.outOfRange, "32768"⟩
  | .ok _ => none

namespace Assembly

/-- the code of `lines`: one instruction for each instruction line, in order -/
structure Places (t : SymbolTable) (lines : List String) (code : Array Placed) : Prop where
  size : code.size = instructionCount lines
  fits : code.size ≤ 32768
  placed : ∀ k i text, (instructionLines lines)[k]? = some (i, text) →
    ∃ p : Placed, code[k]? = some p ∧ p.line = i ∧ p.address.toNat = k ∧
      Instruction.parse t text = .ok p.instruction

theorem places_empty (t : SymbolTable) : Places t [] #[] where
  size := rfl
  fits := Nat.zero_le _
  placed := fun k i text h => by simp [instructionLines] at h

section
variable {t : SymbolTable} {xs : List String} {x : String} {code code' : Array Placed}

theorem Places.skip (h : Places t xs code) (hx : instructionText? x = none) :
    Places t (xs ++ [x]) code := by
  have hlines : instructionLines (xs ++ [x]) = instructionLines xs := by
    rw [instructionLines_concat, hx]
    simp
  refine ⟨?_, h.fits, ?_⟩
  · rw [h.size, instructionCount_concat, hx]
    rfl
  · rw [hlines]
    exact h.placed

theorem Places.instruction (h : Places t xs code) {text : String}
    (hx : instructionText? x = some text) (hfits : code.size ≤ 32767) {i : Instruction}
    (hi : Instruction.parse t text = .ok i) :
    Places t (xs ++ [x]) (code.push ⟨xs.length, .ofNat code.size, i⟩) := by
  have hlines : instructionLines (xs ++ [x]) = instructionLines xs ++ [(xs.length, text)] := by
    rw [instructionLines_concat, hx]
    rfl
  refine ⟨?_, ?_, fun k line text' hk => ?_⟩
  · rw [Array.size_push, h.size, instructionCount_concat, hx]
    rfl
  · rw [Array.size_push]
    exact Nat.succ_le_succ hfits
  · rw [hlines, getElem?_concat_eq_some_iff, length_instructionLines, ← h.size] at hk
    rcases hk with hold | ⟨rfl, e⟩
    · obtain ⟨p, hp, hrest⟩ := h.placed k line text' hold
      have hlt : k < code.size := (Array.getElem?_eq_some_iff.mp hp).1
      exact ⟨p, by rwa [Array.getElem?_push_lt hlt, ← Array.getElem?_eq_getElem hlt], hrest⟩
    · cases e
      have haddress : (UInt16.ofNat code.size).toNat = code.size :=
        toNat_ofNat_of_le (Nat.le_succ_of_le hfits)
      exact ⟨_, Array.getElem?_push_size, rfl, haddress, hi⟩

/-- the code, instruction by instruction -/
theorem Places.getElem?_eq_some_iff (h : Places t xs code) {k : Nat} {p : Placed} :
    code[k]? = some p ↔
      ∃ text, (instructionLines xs)[k]? = some (p.line, text) ∧ p.address = .ofNat k ∧
        Instruction.parse t text = .ok p.instruction := by
  constructor
  · intro hp
    have hk : k < (instructionLines xs).length := by
      rw [length_instructionLines, ← h.size]
      exact (Array.getElem?_eq_some_iff.mp hp).1
    obtain ⟨⟨i, text⟩, hl⟩ : ∃ l, (instructionLines xs)[k]? = some l :=
      ⟨_, List.getElem?_eq_getElem hk⟩
    obtain ⟨p', hp', rfl, haddress, hparse⟩ := h.placed k i text hl
    obtain rfl := Option.some.inj (hp.symm.trans hp')
    exact ⟨text, hl, by rw [← haddress, UInt16.ofNat_toNat], hparse⟩
  · rintro ⟨text, hl, haddress, hparse⟩
    obtain ⟨p', hp', hline, haddress', hparse'⟩ := h.placed k _ _ hl
    obtain ⟨line, address, instruction⟩ := p'
    obtain rfl : line = p.line := hline
    obtain rfl : address = p.address := by
      rw [haddress, ← haddress', UInt16.ofNat_toNat]
    obtain rfl : instruction = p.instruction := Except.ok.inj (hparse'.symm.trans hparse)
    exact hp'

/-- each placed instruction comes from the instruction line of its number -/
theorem Places.exists_text_of_mem (h : Places t xs code) {p : Placed} (hp : p ∈ code) :
    ∃ (k : Nat) (text : String), (instructionLines xs)[k]? = some (p.line, text) ∧
      p.address.toNat = k ∧ Instruction.parse t text = .ok p.instruction := by
  obtain ⟨k, hk⟩ := Array.mem_iff_getElem?.mp hp
  obtain ⟨text, hl, haddress, hparse⟩ := h.getElem?_eq_some_iff.mp hk
  have hlt : k < code.size := (Array.getElem?_eq_some_iff.mp hk).1
  have hfits : k ≤ 32768 := Nat.le_trans (Nat.le_of_lt hlt) h.fits
  exact ⟨k, text, hl, by rw [haddress, toNat_ofNat_of_le hfits], hparse⟩

/-- a placed instruction fits into its word, whatever the table holds -/
theorem Places.encodable (h : Places t xs code) {p : Placed} (hp : p ∈ code) :
    p.instruction.Encodable := by
  obtain ⟨k, text, -, -, hparse⟩ := h.exists_text_of_mem hp
  exact Instruction.encodable_of_parse hparse

theorem Places.exists_of_mem (h : Places t xs code) {l : Nat × String}
    (hl : l ∈ instructionLines xs) : ∃ p ∈ code, p.line = l.1 := by
  obtain ⟨k, hk⟩ := List.mem_iff_getElem?.mp hl
  obtain ⟨p, hp, hline, -⟩ := h.placed k l.1 l.2 hk
  exact ⟨p, Array.mem_of_getElem? hp, hline⟩

/-- the lines of the code are the instruction lines -/
theorem Places.map_line (h : Places t xs code) :
    code.toList.map (·.line) = (instructionLines xs).map (·.1) := by
  apply List.ext_getElem?
  intro k
  rw [List.getElem?_map, List.getElem?_map, Array.getElem?_toList]
  cases hl : (instructionLines xs)[k]? with
  | none =>
    have hout : code.size ≤ k := by
      rw [h.size, ← length_instructionLines]
      exact List.getElem?_eq_none_iff.mp hl
    rw [Array.getElem?_eq_none hout]
    rfl
  | some l =>
    obtain ⟨p, hp, hline, -⟩ := h.placed k l.1 l.2 hl
    rw [hp, Option.map_some, hline, Option.map_some]

theorem Places.pairwise_line (h : Places t xs code) :
    code.toList.Pairwise fun p q => p.line < q.line := by
  have hlines : (code.toList.map (·.line)).Pairwise (· < ·) := by
    rw [h.map_line, List.pairwise_map]
    exact instructionLines_pairwise xs
  rwa [List.pairwise_map] at hlines

theorem place_instruction {line : Nat} {text : String}
    (h : place t line (.instruction text) code = .ok code') :
    code.size ≤ 32767 ∧ ∃ i, Instruction.parse t text = .ok i ∧
      code' = code.push ⟨line, .ofNat code.size, i⟩ := by
  rw [place] at h
  split at h
  · next hfits =>
    cases hi : Instruction.parse t text with
    | error f =>
      rw [hi] at h
      cases h
    | ok i =>
      rw [hi] at h
      cases h
      exact ⟨hfits, i, rfl, rfl⟩
  · cases h

end

/-! ## one line -/

theorem keeps (t : SymbolTable) : Keeps (place t) (Places t) := by
  intro xs x code code' h hs
  unfold readLine at hs
  obtain ⟨line, hx, hs⟩ := bind_eq_ok_iff.mp hs
  cases line with
  | blank =>
    cases hs
    exact h.skip (instructionText?_of_blank hx)
  | label name =>
    cases hs
    exact h.skip (instructionText?_of_label hx)
  | instruction text =>
    obtain ⟨hfits, i, hi, rfl⟩ := place_instruction hs
    exact h.instruction (instructionText?_eq_some_iff.mpr hx) hfits hi

theorem faultOf?_place (t : SymbolTable) (line : Nat) (text : String) (code : Array Placed) :
    faultOf? (place t line (.instruction text) code) =
      if code.size ≤ maxAddress.toNat then faultOf? (Instruction.parse t text)
      else some ⟨.outOfRange, toString code.size⟩ := by
  rw [place]
  split
  · cases Instruction.parse t text <;> rfl
  · rfl

theorem agrees (t : SymbolTable) (lines : List String) :
    Agrees (place t) (Places t) (placeFault? t) lines := by
  intro xs x code _ h
  unfold readLine placeFault?
  cases hx : Line.parse x with
  | error f => exact congrArg some (Line.parse_eq_error hx)
  | ok line =>
    cases line with
    | blank => rfl
    | label name => rfl
    | instruction text =>
      show faultOf? (place t xs.length (.instruction text) code) = _
      rw [faultOf?_place, h.size]
      split
      · rfl
      · next hfull =>
        have hsize : instructionCount xs = 32768 := by
          have hfull : ¬ instructionCount xs ≤ 32767 := hfull
          have hfits := h.size ▸ h.fits
          omega
        rw [hsize]
        rfl

/-! ## a whole pass -/

section
variable {t : SymbolTable} {lines : List String}

theorem places_of_generate {a : Assembly} (h : generate t lines = .ok a) :
    a.table = t ∧ ∃ code, a.code = code.toList ∧ Places t lines code := by
  unfold generate at h
  split at h
  · cases h
  · next code hw =>
    cases h
    exact ⟨rfl, code, rfl, (keeps t).inv_of_walk (places_empty t) hw⟩

theorem generate_eq_error_iff {e : LocatedFault} :
    generate t lines = .error e ↔ FirstFault (placeFault? t) lines e.line e.fault := by
  rw [← (agrees t lines).walk_eq_error_iff (keeps t) (places_empty t), generate]
  cases walk (place t) 0 lines #[] <;> simp

theorem generate_ok_of_faultless (h : Faultless (placeFault? t) lines) :
    ∃ a, generate t lines = .ok a := by
  obtain ⟨code, hw⟩ := (agrees t lines).walk_ok (keeps t) (places_empty t) h
  exact ⟨⟨t, code.toList⟩, by rw [generate, hw]⟩

end

end Assembly

end HackAssembler
