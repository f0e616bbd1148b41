import HackAssembler.Proofs.Correspondence

/-!
# Layout: blanks, comments and empty lines do not matter

* `uncommented_append`, `trim_uncommented_append`   what stands around the code of a line;
* `Dressed`, `Remark`      a line with more around its code, a line without code;
* `Edit`, `Edits`          changes of the layout, and where they move each line;
* `assemble_of_edits`      a program and what edits make of it have the same code, on the lines that
                           were moved, or the same fault, on the line that was moved.
-/

namespace HackAssembler

/-! ## the code of a line -/

/-- what stands in front of the first `//` -/
def uncommented (cs : List Char) : List Char :=
  match splitOnce? ['/', '/'] cs with
  | some (before, _) => before
  | none => cs

theorem codeOf_eq (raw : String) : codeOf raw = String.ofList (trim (uncommented raw.toList)) := by
  rw [codeOf, splitComment, uncommented]
  cases splitOnce? ['/', '/'] raw.toList <;> rfl

theorem uncommented_append {ws : List Char} (h : '/' ∉ ws) (cs : List Char) :
    uncommented (ws ++ cs) = ws ++ uncommented cs := by
  rw [uncommented, uncommented, splitOnce?_append h]
  cases splitOnce? ['/', '/'] cs <;> rfl

/-- what follows a line is part of its comment, if it has one, and else of its code -/
theorem uncommented_append_eq_or (cs : List Char) {ds : List Char} (h : '/' ∉ ds.head?) :
    uncommented (cs ++ ds) = uncommented cs ∨
      uncommented (cs ++ ds) = uncommented cs ++ uncommented ds := by
  have hsep : ∀ d ∈ ds.head?, d ∉ ['/', '/'] := by
    rintro d hd hmem
    have : d = '/' := by simpa using hmem
    exact h (this ▸ hd)
  cases hc : splitOnce? ['/', '/'] cs with
  | some p =>
    left
    rw [uncommented, uncommented, splitOnce?_append_of_some hc, hc]
  | none =>
    right
    rw [uncommented, uncommented, uncommented, splitOnce?_append_of_none hc hsep, hc]
    cases splitOnce? ['/', '/'] ds <;> rfl

theorem trim_uncommented_append (cs : List Char) {ds : List Char} (h : '/' ∉ ds.head?)
    (hblank : ∀ c ∈ uncommented ds, isBlank c) :
    trim (uncommented (cs ++ ds)) = trim (uncommented cs) := by
  rcases uncommented_append_eq_or cs h with e | e
  · rw [e]
  · rw [e, trim_append_blank hblank]

/-! ## edits -/

def isBlankText (s : String) : Bool := s.toList.all isBlank

/-- a line with blanks in front of it, or with blanks or a comment behind it -/
inductive Dressed (raw : String) : String → Prop
  | before (ws : String) (h : isBlankText ws) : Dressed raw (ws ++ raw)
  | after (ws : String) (h : isBlankText ws) : Dressed raw (raw ++ ws)
  | comment (text : String) : Dressed raw (raw ++ " //" ++ text)

/-- a line of blanks, or of blanks and a comment -/
inductive Remark : String → Prop
  | blank (ws : String) (h : isBlankText ws) : Remark ws
  | comment (ws text : String) (h : isBlankText ws) : Remark (ws ++ "//" ++ text)

/-- one change of the layout of a program; line `i` of the program is line `move i` afterwards -/
inductive Edit : List String → List String → (Nat → Nat) → Prop
  | dress (xs ys : List String) {raw raw' : String} (h : Dressed raw raw') :
      Edit (xs ++ raw :: ys) (xs ++ raw' :: ys) fun i => i
  | insert (xs ys : List String) {raw : String} (h : Remark raw) :
      Edit (xs ++ ys) (xs ++ raw :: ys) fun i => if i < xs.length then i else i + 1

/-- any number of changes, one after another -/
inductive Edits : List String → List String → (Nat → Nat) → Prop
  | none (p : List String) : Edits p p fun i => i
  | step {p q r : List String} {move move' : Nat → Nat} (h : Edits p q move) (e : Edit q r move') :
      Edits p r fun i => move' (move i)

section
variable {raw raw' ws : String}

theorem isBlank_of_isBlankText (h : isBlankText ws) : ∀ c ∈ ws.toList, isBlank c :=
  List.all_eq_true.mp h

theorem slash_not_mem_of_isBlankText (h : isBlankText ws) : '/' ∉ ws.toList := by
  intro hs
  have hblank : isBlank '/' := isBlank_of_isBlankText h '/' hs
  revert hblank
  decide

theorem uncommented_of_isBlankText (h : isBlankText ws) : uncommented ws.toList = ws.toList := by
  rw [uncommented, splitOnce?_eq_none (slash_not_mem_of_isBlankText h)]

theorem uncommented_remark (h : isBlankText ws) (text : String) :
    uncommented (ws ++ "//" ++ text).toList = ws.toList := by
  have hchars : (ws ++ "//" ++ text).toList = ws.toList ++ '/' :: '/' :: text.toList := by simp
  have hmark : ['/', '/'] <+: '/' :: '/' :: text.toList := List.prefix_append ..
  have hcut : uncommented ('/' :: '/' :: text.toList) = [] := by
    rw [uncommented, splitOnce?_of_prefix_cons hmark]
  rw [hchars, uncommented_append (slash_not_mem_of_isBlankText h), hcut, List.append_nil]

theorem Dressed.codeOf_eq (h : Dressed raw raw') : codeOf raw' = codeOf raw := by
  rw [HackAssembler.codeOf_eq, HackAssembler.codeOf_eq]
  refine congrArg String.ofList ?_
  cases h with
  | before ws h =>
    rw [String.toList_append, uncommented_append (slash_not_mem_of_isBlankText h),
      trim_blank_append (isBlank_of_isBlankText h)]
  | after ws h =>
    rw [String.toList_append]
    refine trim_uncommented_append _ (fun hs => ?_) ?_
    · exact slash_not_mem_of_isBlankText h (List.mem_of_mem_head? hs)
    · rw [uncommented_of_isBlankText h]
      exact isBlank_of_isBlankText h
  | comment text =>
    have hblank : isBlankText " " := by decide
    -- the blank keeps a `/` at the end of the line out of the mark
    have hhead : '/' ∉ (" " ++ "//" ++ text).toList.head? := by simp
    have hwritten : raw ++ " //" ++ text = raw ++ (" " ++ "//" ++ text) := String.append_assoc
    rw [hwritten, String.toList_append, trim_uncommented_append _ hhead]
    rw [uncommented_remark hblank]
    exact isBlank_of_isBlankText hblank

theorem Remark.parse_eq (h : Remark raw) : Line.parse raw = .ok .blank := by
  have hblank : ∀ c ∈ uncommented raw.toList, isBlank c := by
    cases h with
    | blank ws h =>
      rw [uncommented_of_isBlankText h]
      exact isBlank_of_isBlankText h
    | comment ws text h =>
      rw [uncommented_remark h]
      exact isBlank_of_isBlankText h
  have hcode : codeOf raw = "" := by
    rw [codeOf_eq, ← List.nil_append (uncommented raw.toList), trim_append_blank hblank]
    rfl
  rw [Line.parse, hcode]
  rfl

/-- lines with the same code are read alike -/
theorem Line.alike_of_codeOf_eq (h : codeOf raw' = codeOf raw) :
    Alike Eq (Line.Renamed .id) (Line.parse raw) (Line.parse raw') := by
  have hparse : Line.parse raw' = Line.parse raw := by rw [Line.parse, h, Line.parse]
  rw [hparse]
  cases hp : Line.parse raw with
  | error x => exact .error rfl
  | ok line => exact .ok (Line.renamed_id hp)

end

/-! ## one edit -/

section
variable {move : Nat → Nat} {ys zs : List String}

/-- lines that stay in front of an edit -/
theorem Follows.prepend (xs : List String) {i : Nat} (hstay : ∀ k < i + xs.length, move k = k)
    (h : Follows .id move (i + xs.length) ys (i + xs.length) zs) :
    Follows .id move i (xs ++ ys) i (xs ++ zs) := by
  induction xs generalizing i with
  | nil => exact h
  | cons x xs ih =>
    have hi : i + (x :: xs).length = i + 1 + xs.length := by
      rw [List.length_cons]
      omega
    rw [hi] at hstay h
    exact .line (hstay i (by omega)) (Line.alike_of_codeOf_eq rfl) (ih hstay h)

/-- lines that move by the same distance -/
theorem Follows.shifted (ys : List String) {i : Nat} (n : Nat) (h : ∀ k, i ≤ k → move k = k + n) :
    Follows .id move i ys (i + n) ys := by
  induction ys generalizing i with
  | nil => exact .nil i (i + n)
  | cons y ys ih =>
    have hrest : Follows .id move (i + 1) ys (i + n + 1) ys := by
      rw [Nat.add_right_comm]
      exact ih fun k hk => h k (Nat.le_of_succ_le hk)
    exact .line (h i (Nat.le_refl i)) (Line.alike_of_codeOf_eq rfl) hrest

end

section
variable {p q : List String} {move : Nat → Nat}

theorem Edit.follows (e : Edit p q move) : Follows .id move 0 p 0 q := by
  cases e with
  | dress xs ys h =>
    refine .prepend xs (fun _ _ => rfl) (.line rfl (Line.alike_of_codeOf_eq h.codeOf_eq) ?_)
    exact .shifted ys 0 fun _ _ => rfl
  | insert xs ys h =>
    refine .prepend xs (fun k hk => if_pos (by omega)) (.blank h.parse_eq ?_)
    exact .shifted ys 1 fun k hk => if_neg (by omega)

/-- line `i` of the program is line `move i` afterwards -/
theorem Edit.getElem?_move (e : Edit p q move) {i : Nat} {raw : String} (h : p[i]? = some raw) :
    ∃ raw', q[move i]? = some raw' ∧ codeOf raw' = codeOf raw := by
  cases e with
  | @dress xs ys x x' hx =>
    show ∃ raw', (xs ++ x' :: ys)[i]? = some raw' ∧ _
    rcases Nat.lt_or_ge i xs.length with hi | hi
    · rw [List.getElem?_append_left hi] at h ⊢
      exact ⟨raw, h, rfl⟩
    · rw [List.getElem?_append_right hi] at h ⊢
      cases hk : i - xs.length with
      | zero =>
        rw [hk] at h
        cases h
        exact ⟨x', rfl, hx.codeOf_eq⟩
      | succ k =>
        rw [hk] at h
        exact ⟨raw, h, rfl⟩
  | @insert xs ys x hx =>
    show ∃ raw', (xs ++ x :: ys)[if i < xs.length then i else i + 1]? = some raw' ∧ _
    refine ⟨raw, ?_, rfl⟩
    split
    · next hi => rwa [List.getElem?_append_left hi] at h ⊢
    · next hi =>
      have hi : xs.length ≤ i := Nat.le_of_not_lt hi
      rw [List.getElem?_append_right hi] at h
      rwa [List.getElem?_append_right (Nat.le_succ_of_le hi), Nat.succ_sub hi,
        List.getElem?_cons_succ]

/-- the outcome of a program whose line `i` has become line `move i` -/
def Relaid (move : Nat → Nat) : Except LocatedFault Assembly → Except LocatedFault Assembly → Prop :=
  Alike (fun x y => y = ⟨move x.line, x.fault⟩)
    fun a b => b.code = a.code.map (Placed.moved move) ∧ b.table.entries = a.table.entries

theorem Edit.relaid (e : Edit p q move) : Relaid move (assemble p) (assemble q) := by
  refine e.follows.assemble.imp ?_ ?_
  · rintro ⟨line, fault⟩ ⟨line', fault'⟩ ⟨hline, hfault⟩
    obtain rfl : line' = move line := hline
    exact congrArg (LocatedFault.mk _) hfault.eq_of_id
  · intro a b hab
    exact ⟨hab.code, hab.table.entries.trans (List.map_id _)⟩

/-! ## all edits -/

theorem Edits.relaid (h : Edits p q move) : Relaid move (assemble p) (assemble q) := by
  induction h with
  | none =>
    cases assemble p with
    | error x => exact .error rfl
    | ok a => exact .ok ⟨(List.map_id _).symm, rfl⟩
  | step h e ih =>
    refine ih.trans e.relaid ?_ ?_
    · rintro x _ _ rfl rfl
      rfl
    · rintro a b c ⟨hcode, hentries⟩ ⟨hcode', hentries'⟩
      refine ⟨?_, hentries'.trans hentries⟩
      rw [hcode', hcode, List.map_map]
      rfl

theorem Edits.getElem?_move (h : Edits p q move) {i : Nat} {raw : String}
    (hi : p[i]? = some raw) :
    ∃ raw', q[move i]? = some raw' ∧ codeOf raw' = codeOf raw := by
  induction h with
  | none => exact ⟨raw, hi, rfl⟩
  | step h e ih =>
    obtain ⟨raw', hraw', hcode⟩ := ih
    obtain ⟨raw'', hraw'', hcode'⟩ := e.getElem?_move hraw'
    exact ⟨raw'', hraw'', hcode'.trans hcode⟩

end

/-- **Layout and comments do not matter.**  Edits keep the code of each line and move it somewhere;
the edited program is assembled just when the program is, to the same instructions at the same
addresses, written on the moved lines, and to the same entries; or it has the same fault, on the
line that the faulty one was moved to. -/
theorem assemble_of_edits {p q : List String} {move : Nat → Nat} (h : Edits p q move) :
    (∀ i raw, p[i]? = some raw → ∃ raw', q[move i]? = some raw' ∧ codeOf raw' = codeOf raw) ∧
    ((∃ b, assemble q = .ok b) ↔ ∃ a, assemble p = .ok a) ∧
    (∀ a, assemble p = .ok a → ∃ b, assemble q = .ok b ∧
      b.code = a.code.map (fun x => { x with line := move x.line }) ∧ b.binary = a.binary ∧
      b.table.entries = a.table.entries) ∧
    (∀ x, assemble p = .error x → assemble q = .error ⟨move x.line, x.fault⟩) := by
  have hrelaid := h.relaid
  refine ⟨fun i raw => h.getElem?_move, hrelaid.ok_iff, fun a ha => ?_, fun x hx => ?_⟩
  · obtain ⟨b, hb, hcode, hentries⟩ := hrelaid.exists_ok ha
    refine ⟨b, hb, hcode, ?_, hentries⟩
    rw [Assembly.binary, hcode, List.map_map]
    rfl
  · obtain ⟨_, hq, rfl⟩ := hrelaid.exists_error hx
    exact hq

/-- a comment line after the label, and a tabulator and a comment around the next line -/
theorem edits_loop (raw : String) (raws : List String) :
    Edits ("(LOOP)" :: raw :: raws)
      ("(LOOP)" :: " // (END)" :: ("\t" ++ raw ++ " //" ++ " @x //") :: raws)
      fun i => if i < 1 then i else i + 1 := by
  have hremark : Remark " // (END)" := .comment " " " (END)" (by decide)
  have hinsert := (Edits.none _).step (.insert ["(LOOP)"] (raw :: raws) hremark)
  have hbefore : Dressed raw ("\t" ++ raw) := .before "\t" (by decide)
  exact (hinsert.step (.dress ["(LOOP)", " // (END)"] raws hbefore)).step
    (.dress ["(LOOP)", " // (END)"] raws (.comment " @x //"))

theorem assemble_of_edits_loop :
    (∃ b, assemble ["(LOOP)", " // (END)", "\t@LOOP // @x //", "0;JMP"] = .ok b ∧
      b.code.map (·.line) = [2, 3] ∧ b.binary = ["0000000000000000", "1110101010000111"]) ∧
    assemble ["(LOOP)", " // (END)", "\t@LOOP/ // @x //"] =
      .error ⟨2, ⟨.invalidSymbol, "LOOP/"⟩⟩ := by
  constructor
  · have hcode : (assemble ["(LOOP)", "@LOOP", "0;JMP"]).map
        (fun a => (a.code.map (·.line), a.binary)) =
        .ok ([1, 2], ["0000000000000000", "1110101010000111"]) := by decide +kernel
    obtain ⟨a, ha, e⟩ := map_eq_ok_iff.mp hcode
    obtain ⟨hlines, hwords⟩ := Prod.mk.inj e
    have hmoved := (assemble_of_edits (edits_loop "@LOOP" ["0;JMP"])).2.2.1 a ha
    obtain ⟨b, hb, hcode, hbinary, -⟩ := hmoved
    refine ⟨b, hb, ?_, hbinary.trans hwords⟩
    calc b.code.map (·.line)
        = (a.code.map (·.line)).map fun i => if i < 1 then i else i + 1 := by
          rw [hcode, List.map_map, List.map_map]
          rfl
      _ = [2, 3] := by rw [hlines]; rfl
  · have hfault : (assemble ["(LOOP)", "@LOOP/"]).map (·.binary) =
        .error ⟨1, ⟨.invalidSymbol, "LOOP/"⟩⟩ := by decide +kernel
    exact (assemble_of_edits (edits_loop "@LOOP/" [])).2.2.2 _ (map_eq_error_iff.mp hfault)

end HackAssembler
