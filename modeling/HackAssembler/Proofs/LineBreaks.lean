import HackAssembler.Proofs.Layout

/-!
# Line breaks: a program as a text and as its lines

Reading a text loses a carriage return that a line ends in, and an empty last line.  Neither one is
part of the code of a line, and no later line is numbered otherwise.

* `joinLines`              the text of some lines, with a line break behind each of them, perhaps
                           not behind the last one;
* `sourceLines_append_break`   the first line that is read from such a text has the code of the
                           first line that is written there;
* `follows_joinLines`      so the lines follow those that are read;
* `assembleText_joinLines`   the text has the words of its lines, or their fault.
-/

namespace HackAssembler

inductive LineBreak
  | lineFeed
  | returnLineFeed
  deriving DecidableEq, Repr

/-- what stands in front of the line feed -/
def LineBreak.mark : LineBreak → String
  | lineFeed => ""
  | returnLineFeed => "\r"

def LineBreak.text (b : LineBreak) : String := b.mark ++ "\n"

/-- the lines with `breaks i` between line `i` and the next one; the last line may end with a
break, too -/
def joinLines (breaks : Nat → LineBreak) (final : Option LineBreak) : List String → String
  | [] => final.elim "" LineBreak.text
  | [line] => line ++ final.elim "" LineBreak.text
  | line :: next :: rest =>
    line ++ (breaks 0).text ++ joinLines (fun i => breaks (i + 1)) final (next :: rest)

/-! ## what is read -/

section
variable {line : String} (h : '\n' ∉ line.toList)

theorem codeOf_dropReturn (cs : List Char) :
    codeOf (String.ofList (dropReturn cs.reverse).reverse) = codeOf (String.ofList cs) := by
  unfold dropReturn
  split
  · next ds hds =>
    have hcs : String.ofList cs = String.ofList ds.reverse ++ "\r" := by
      rw [← List.reverse_reverse cs, hds, List.reverse_cons, String.ofList_append]
    rw [hcs]
    exact (Dressed.after "\r" (by decide)).codeOf_eq.symm
  · rw [List.reverse_reverse]

theorem LineBreak.codeOf_append_mark (b : LineBreak) : codeOf (line ++ b.mark) = codeOf line := by
  have hblank : isBlankText b.mark := by
    cases b <;> decide
  exact (Dressed.after b.mark hblank).codeOf_eq

include h

/-- a line with its break; the line that is read may lack a carriage return, but no code -/
theorem sourceLines_append_break (b : LineBreak) (rest : String) :
    ∃ raw, codeOf raw = codeOf line ∧
      sourceLines (line ++ b.text ++ rest) = raw :: sourceLines rest := by
  have hmark : '\n' ∉ (line ++ b.mark).toList := by
    refine not_mem_toList_append.mpr ⟨h, ?_⟩
    cases b <;> decide
  refine ⟨String.ofList (dropReturn (line ++ b.mark).toList.reverse).reverse, ?_, ?_⟩
  · rw [codeOf_dropReturn, String.ofList_toList, b.codeOf_append_mark]
  · have hchars : (line ++ b.text ++ rest).toList =
        (line ++ b.mark).toList ++ '\n' :: rest.toList := by
      simp [LineBreak.text]
    rw [sourceLines, hchars, lines_line_feed hmark, List.map_cons, sourceLines]

theorem sourceLines_final_break (b : LineBreak) :
    ∃ raw, codeOf raw = codeOf line ∧ sourceLines (line ++ b.text) = [raw] := by
  obtain ⟨raw, hcode, hread⟩ := sourceLines_append_break h b ""
  rw [String.append_empty] at hread
  exact ⟨raw, hcode, hread⟩

theorem sourceLines_last : sourceLines line = if line = "" then [] else [line] := by
  rw [sourceLines, lines_last h]
  by_cases he : line = ""
  · rw [if_pos he, he]
    rfl
  · have hne : ¬ line.toList.isEmpty := by
      rw [List.isEmpty_iff, String.toList_eq_nil_iff]
      exact he
    rw [if_neg he, if_neg hne, List.map_singleton, String.ofList_toList]

end

/-! ## the lines and what is read -/

section
variable {line : String} (h : '\n' ∉ line.toList)
include h

/-- the last line, which is not read if it is empty and has no break -/
theorem follows_last (final : Option LineBreak) (i : Nat) :
    Follows .id id i (sourceLines (line ++ final.elim "" LineBreak.text)) i [line] := by
  cases final with
  | none =>
    show Follows .id id i (sourceLines (line ++ "")) i [line]
    rw [String.append_empty, sourceLines_last h]
    split
    · next he =>
      have hblank : Line.parse line = .ok .blank := by
        rw [he]
        exact (Remark.blank "" rfl).parse_eq
      exact .blank hblank (.nil _ _)
    · exact .line rfl (Line.alike_of_codeOf_eq rfl) (.nil _ _)
  | some b =>
    obtain ⟨raw, hcode, hread⟩ := sourceLines_final_break h b
    show Follows .id id i (sourceLines (line ++ b.text)) i [line]
    rw [hread]
    exact .line rfl (Line.alike_of_codeOf_eq hcode.symm) (.nil _ _)

end

theorem follows_joinLines {line : String} {rest : List String}
    (h : ∀ raw ∈ line :: rest, '\n' ∉ raw.toList) (breaks : Nat → LineBreak)
    (final : Option LineBreak) (i : Nat) :
    Follows .id id i (sourceLines (joinLines breaks final (line :: rest))) i (line :: rest) := by
  induction rest generalizing line breaks i with
  | nil => exact follows_last (h line List.mem_cons_self) final i
  | cons next rest ih =>
    obtain ⟨hline, hrest⟩ := List.forall_mem_cons.mp h
    obtain ⟨raw, hcode, hread⟩ := sourceLines_append_break hline (breaks 0)
      (joinLines (fun k => breaks (k + 1)) final (next :: rest))
    rw [joinLines, hread]
    apply Follows.line rfl (Line.alike_of_codeOf_eq hcode.symm)
    exact ih hrest _ (i + 1)

/-- lines that follow others have the words of these, or their fault -/
theorem map_binary_of_follows {p q : List String} (h : Follows .id id 0 p 0 q) :
    (assemble p).map (·.binary) = (assemble q).map (·.binary) := by
  apply h.assemble.map_eq
  · rintro ⟨line, fault⟩ ⟨_, _⟩ ⟨rfl, hfault⟩
    exact congrArg (LocatedFault.mk _) hfault.eq_of_id.symm
  · intro a b hab
    exact hab.binary.symm

/-- **Every line break reads the same.**  Lines without a line feed, joined by any line breaks, with
or without one at the end, are assembled to the words that the lines are assembled to, or have the
fault that the lines have, at the same line and with the same text. -/
theorem assembleText_joinLines {lines : List String} (h : ∀ line ∈ lines, '\n' ∉ line.toList)
    (breaks : Nat → LineBreak) (final : Option LineBreak) :
    assembleText (joinLines breaks final lines) = (assemble lines).map (·.binary) := by
  cases lines with
  | nil =>
    cases final with
    | none => rfl
    | some b =>
      -- a break alone is read as an empty line
      have hempty : '\n' ∉ "".toList := by decide
      obtain ⟨raw, hcode, hread⟩ := sourceLines_final_break hempty b
      rw [String.empty_append] at hread
      have hblank : Line.parse raw = .ok .blank := by
        rw [Line.parse, hcode]
        rfl
      have hlines : Follows .id id 0 [] 0 (sourceLines b.text) := by
        rw [hread]
        exact .blank hblank (.nil 0 1)
      exact (map_binary_of_follows hlines).symm
  | cons line rest => exact map_binary_of_follows (follows_joinLines h breaks final 0)

/-- a carriage return in a comment, one at the end of a line, and an empty line at the end; in the
second text there is one inside a name, and it is quoted -/
theorem assembleText_joinLines_mixed :
    assembleText "@7 // \r seven\r\nD=A\r\n" = .ok ["0000000000000111", "1110110000010000"] ∧
    assembleText "(A)\r\n@x\ry\r\r\n" = .error ⟨1, ⟨.invalidSymbol, "x\ry"⟩⟩ := by
  constructor
  · have htext :
        joinLines (fun i => if i = 0 then .returnLineFeed else .lineFeed) none
          ["@7 // \r seven", "D=A\r", ""] = "@7 // \r seven\r\nD=A\r\n" := by
      decide +kernel
    rw [← htext, assembleText_joinLines (by decide +kernel)]
    decide +kernel
  · have htext : joinLines (fun _ => .returnLineFeed) (some .returnLineFeed) ["(A)", "@x\ry\r"] =
        "(A)\r\n@x\ry\r\r\n" := by decide +kernel
    rw [← htext, assembleText_joinLines (by decide +kernel)]
    decide +kernel

end HackAssembler
