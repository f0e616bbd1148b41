import HackAssembler.Proofs.Columns
import HackAssembler.Proofs.LineForm
import HackAssembler.Proofs.ListingRows
import HackAssembler.Proofs.Terminal

/-!
# The text of a listing

* `Row.text_word`, `Row.text_label`, `Row.text_empty`   what a row is written as;
* `shownWord?`, `shownLabel?`   read the word, or the label, off a written row;
* `RowText`                what the row of a line has to be written as;
* `listing_of_assemble`    the listing of an assembled program, row by row.
-/

namespace HackAssembler

namespace Listing

/-- a comment as a row shows it -/
def shownComment (comment : Option String) : String :=
  comment.elim "" fun text => weightCode .dim ++ "//" ++ text ++ weightCode .normal

/-- a label as a row shows it -/
def shownLabel (name : String) : String :=
  colorCode (some .green) ++ "(" ++ name ++ ")" ++ colorCode none

theorem render_commentSpans (comment : Option String) :
    render (commentSpans comment) = shownComment comment := by
  cases comment with
  | none => exact render_nil
  | some text =>
    simp [commentSpans, shownComment, render, renderFrom, Style.change, Style.plain,
      String.append_assoc]

theorem render_label (name : String) :
    render [.colored .green ("(" ++ name ++ ")")] = shownLabel name := by
  simp [shownLabel, render, renderFrom, Style.change, Style.plain, Span.colored,
    String.append_assoc]

/-! ## written rows -/

namespace Row

variable {r : Row} {p : Placed} {name : String}

def text (r : Row) : String := render r.spans

theorem text_word (h : r.content = .word p) :
    r.text = "[" ++ p.address.hex ++ "] " ++ p.instruction.binary ++ " " ++ r.numberColumn ++ "   "
      ++ (render p.instruction.spans ++ (" " ++ shownComment r.comment)) := by
  rw [text, spans, h, ← render_commentSpans, ← render_between]
  simp

theorem text_label (h : r.content = .label name) :
    r.text = alignRight wordWidth "" ++ r.numberColumn ++ " "
      ++ (shownLabel name ++ (" " ++ shownComment r.comment)) := by
  rw [text, spans, h, ← render_commentSpans, ← render_label, ← render_between]
  rfl

theorem text_empty (h : r.content = .empty) :
    r.text = alignRight wordWidth "" ++ r.numberColumn ++ " " ++ shownComment r.comment := by
  rw [text, spans, h, ← render_commentSpans, ← render_plain]
  rfl

/-- what stands in front of the columns of the source: the address and the word, or blanks -/
def lead (r : Row) : String :=
  match r.content with
  | .word placed => "[" ++ placed.address.hex ++ "] " ++ placed.instruction.binary ++ " "
  | .label _ => alignRight wordWidth ""
  | .empty => alignRight wordWidth ""

/-- what stands behind the number -/
def tail (r : Row) : String :=
  match r.content with
  | .word placed => "   " ++ (render placed.instruction.spans ++ (" " ++ shownComment r.comment))
  | .label name => " " ++ (shownLabel name ++ (" " ++ shownComment r.comment))
  | .empty => " " ++ shownComment r.comment

theorem text_eq (r : Row) :
    r.text = r.lead ++ ("| " ++ alignRight 4 (toString r.number)) ++ ":" ++ r.tail := by
  unfold lead tail
  cases h : r.content with
  | word p =>
    rw [text_word h, numberColumn]
    simp only [String.append_assoc]
  | label name =>
    rw [text_label h, numberColumn]
    simp only [String.append_assoc]
  | empty =>
    rw [text_empty h, numberColumn]
    simp only [String.append_assoc]

theorem isColumnText_lead (r : Row) : isColumnText r.lead := by
  have hblank : isColumnText (alignRight wordWidth "") := isColumnText_alignRight _ rfl
  have hopen : isColumnText "[" := by decide
  have hclose : isColumnText "] " := by decide
  have hspace : isColumnText " " := by decide
  unfold lead
  split
  · next p _ =>
    simp only [isColumnText_append, hopen, hclose, hspace, isColumnText_hex p.address,
      isColumnText_binary p.instruction, Bool.and_self]
  · exact hblank
  · exact hblank

/-- all that stands in front of the first `:` -/
theorem isColumnText_columns (r : Row) :
    isColumnText (r.lead ++ ("| " ++ alignRight 4 (toString r.number))) := by
  have hbar : isColumnText "| " := by decide
  have hnumber := isColumnText_alignRight 4 (isColumnText_toString r.number)
  simp only [isColumnText_append, r.isColumnText_lead, hbar, hnumber, Bool.and_self]

end Row

/-! ## reading a row -/

/-- the word of an instruction row, which stands behind four digits in brackets -/
def shownWord? (row : String) : Option String :=
  match row.toList with
  | '[' :: cs => some (String.ofList ((cs.drop 6).take 16))
  | _ => none

/-- the label at the start of the source column, which is green -/
def labelAt? : List Char → Option String
  | ' ' :: '\x1b' :: '[' :: '3' :: '2' :: 'm' :: '(' :: cs =>
    (splitOnce? [')'] cs).map fun (name, _) => String.ofList name
  | _ => none

/-- the label of a label row; the first `:` ends the number of the row -/
def shownLabel? (row : String) : Option String :=
  (splitOnce? [':'] row.toList).bind fun (_, cs) => labelAt? cs

namespace Row

/-- the label that a row shows -/
def label? (r : Row) : Option String :=
  match r.content with
  | .word _ => none
  | .label name => some name
  | .empty => none

theorem shownWord?_blank (number s : String) :
    shownWord? (alignRight wordWidth "" ++ number ++ " " ++ s) = none := by
  have hblank : (alignRight wordWidth "").toList = ' ' :: List.replicate 26 ' ' := by
    rw [alignRight, String.toList_ofList]
    rfl
  rw [shownWord?, String.toList_append, String.toList_append, String.toList_append, hblank]
  rfl

theorem shownWord?_word (address : Word) (instruction : Instruction) (number s : String) :
    shownWord? ("[" ++ address.hex ++ "] " ++ instruction.binary ++ " " ++ number ++ "   " ++ s) =
      some instruction.binary := by
  have hchars :
      ("[" ++ address.hex ++ "] " ++ instruction.binary ++ " " ++ number ++ "   " ++ s).toList =
        '[' :: ((address.hex.toList ++ [']', ' ']) ++
          (instruction.binary.toList ++ (" " ++ number ++ "   " ++ s).toList)) := by
    simp
  have hsix : (address.hex.toList ++ [']', ' ']).length = 6 := by
    rw [List.length_append, address.length_hex]
    rfl
  have hsixteen : instruction.binary.toList.length = 16 := length_binary instruction.encode
  rw [shownWord?, hchars]
  show some (String.ofList (List.take 16 (List.drop 6 _))) = _
  rw [List.drop_left' hsix, List.take_left' hsixteen, String.ofList_toList]

/-- the word can be read off a row just when the row shows an instruction -/
theorem shownWord?_text (r : Row) :
    shownWord? r.text = r.placed?.map (·.instruction.binary) := by
  unfold placed?
  cases h : r.content with
  | word p =>
    rw [text_word h, shownWord?_word]
    rfl
  | label name =>
    rw [text_label h, shownWord?_blank]
    rfl
  | empty =>
    rw [text_empty h, shownWord?_blank]
    rfl

theorem shownLabel?_eq (r : Row) : shownLabel? r.text = labelAt? r.tail.toList := by
  have hcolon : ':' ∉ (r.lead ++ ("| " ++ alignRight 4 (toString r.number))).toList :=
    not_mem_of_isColumnText r.isColumnText_columns (by decide)
  have hchars : r.text.toList =
      (r.lead ++ ("| " ++ alignRight 4 (toString r.number))).toList ++ ':' :: r.tail.toList := by
    rw [text_eq, String.toList_append, String.toList_append, List.append_assoc]
    rfl
  rw [shownLabel?, hchars, splitOnce?_append_cons hcolon]
  rfl

theorem labelAt?_shownLabel {name : String} (h : isName name) (s : String) :
    labelAt? (" " ++ (shownLabel name ++ s)).toList = some name := by
  have hparen : ')' ∉ name.toList := by
    intro hp
    have hrest := isNameRest_of_isName h _ hp
    revert hrest
    decide
  have hchars : (" " ++ (shownLabel name ++ s)).toList =
      ' ' :: '\x1b' :: '[' :: '3' :: '2' :: 'm' :: '(' ::
        (name.toList ++ ')' :: ((colorCode none).toList ++ s.toList)) := by
    simp [shownLabel, colorCode, escape]
  rw [hchars]
  show ((splitOnce? [')'] _).map fun (name, _) => String.ofList name) = _
  rw [splitOnce?_append_cons hparen]
  exact congrArg some String.ofList_toList

theorem labelAt?_shownComment (comment : Option String) :
    labelAt? (" " ++ shownComment comment).toList = none := by
  cases comment with
  | none => rfl
  | some text =>
    have hchars : (" " ++ shownComment (some text)).toList =
        ' ' :: '\x1b' :: '[' :: '2' :: 'm' :: '/' :: '/' ::
          (text.toList ++ (weightCode .normal).toList) := by
      simp [shownComment, weightCode, escape]
    rw [hchars]
    rfl

/-- the label can be read off a row just when the row shows a label -/
theorem shownLabel?_text (r : Row) (h : ∀ name ∈ r.label?, isName name) :
    shownLabel? r.text = r.label? := by
  rw [shownLabel?_eq]
  unfold label? at h ⊢
  unfold tail
  cases hc : r.content with
  | word p =>
    have hchars : ∀ s : String, ("   " ++ s).toList = ' ' :: ' ' :: ' ' :: s.toList := by simp
    simp only [hchars]
    rfl
  | label name =>
    rw [hc] at h
    exact labelAt?_shownLabel (h name rfl) _
  | empty => exact labelAt?_shownComment r.comment

/-! ## rows without line feeds -/

theorem line_feed_not_mem_shownComment {comment : Option String}
    (h : ∀ text ∈ comment, '\n' ∉ text.toList) : '\n' ∉ (shownComment comment).toList := by
  rw [← render_commentSpans]
  apply line_feed_not_mem_render
  cases comment with
  | none => exact List.forall_mem_nil _
  | some text =>
    refine List.forall_mem_singleton.mpr ?_
    exact not_mem_toList_append.mpr ⟨by decide, h text rfl⟩

theorem line_feed_not_mem_shownLabel {name : String} (h : isName name) :
    '\n' ∉ (shownLabel name).toList := by
  have hname : '\n' ∉ name.toList := fun hm =>
    (plain_of_isName h).not_isBlank hm (by decide)
  have hgreen : '\n' ∉ (colorCode (some .green) ++ "(").toList := by decide
  have hplain : '\n' ∉ (")" ++ colorCode none).toList := by decide
  rw [shownLabel, String.append_assoc, not_mem_toList_append, not_mem_toList_append]
  exact ⟨⟨hgreen, hname⟩, hplain⟩

theorem line_feed_not_mem_instruction (i : Instruction) : '\n' ∉ (render i.spans).toList :=
  line_feed_not_mem_render fun span hspan =>
    not_mem_of_isColumnText (i.isColumnText_of_mem_spans span hspan) (by decide)

theorem line_feed_not_mem_tail (r : Row) (h : ∀ name ∈ r.label?, isName name)
    (hc : ∀ text ∈ r.comment, '\n' ∉ text.toList) : '\n' ∉ r.tail.toList := by
  have hblank : '\n' ∉ " ".toList := by decide
  have hcomment := line_feed_not_mem_shownComment hc
  have hend := not_mem_toList_append.mpr ⟨hblank, hcomment⟩
  unfold label? at h
  unfold tail
  cases hr : r.content with
  | word p =>
    have hblanks : '\n' ∉ "   ".toList := by decide
    have hinstruction := line_feed_not_mem_instruction p.instruction
    exact not_mem_toList_append.mpr ⟨hblanks, not_mem_toList_append.mpr ⟨hinstruction, hend⟩⟩
  | label name =>
    rw [hr] at h
    have hlabel := line_feed_not_mem_shownLabel (h name rfl)
    exact not_mem_toList_append.mpr ⟨hblank, not_mem_toList_append.mpr ⟨hlabel, hend⟩⟩
  | empty => exact hend

theorem line_feed_not_mem_text (r : Row) (h : ∀ name ∈ r.label?, isName name)
    (hc : ∀ text ∈ r.comment, '\n' ∉ text.toList) : '\n' ∉ r.text.toList := by
  have hfeed : ¬ isColumnChar '\n' := by decide
  have hcolumns := not_mem_of_isColumnText r.isColumnText_columns hfeed
  have hcolon : '\n' ∉ ":".toList := by decide
  rw [text_eq, not_mem_toList_append, not_mem_toList_append]
  exact ⟨⟨hcolumns, hcolon⟩, r.line_feed_not_mem_tail h hc⟩

end Row

theorem line_feed_not_mem_header {path : String} (h : '\n' ∉ path.toList) :
    '\n' ∉ (header path).toList := by
  have hrule : ∀ width, '\n' ∉ (rule width).toList := fun width =>
    not_mem_of_isColumnText (isColumnText_rule width) (by decide)
  have hopen : '\n' ∉ "+------[".toList := by decide
  have hclose : '\n' ∉ "]".toList := by decide
  rw [header]
  simp only [not_mem_toList_append]
  exact ⟨⟨⟨⟨hrule _, hopen⟩, h⟩, hclose⟩, hrule _⟩

theorem line_feed_not_mem_footer : '\n' ∉ footer.toList := by
  decide +kernel

theorem not_mem_of_commentOf {raw : String} {c : Char} (h : c ∉ raw.toList) :
    ∀ text ∈ commentOf raw, c ∉ text.toList := by
  intro text htext
  obtain ⟨before, rfl, -⟩ := exists_before_comment htext
  exact (not_mem_toList_append.mp h).2

/-! ## the rows of an assembled program -/

/-- the number of line `i`, counted from one -/
def numberText (i : Nat) : String := "| " ++ alignRight 4 (toString (i + 1)) ++ ":"

/-- what the row of line `i` of a program has to be written as -/
inductive RowText (code : List Placed) (i : Nat) (raw : String) : String → Prop
  | word {text shown : String} {p : Placed} (hline : Line.parse raw = .ok (.instruction text))
      (hp : p ∈ code) (hi : p.line = i) (honly : ∀ q ∈ code, q.line = i → q = p)
      (hshown : uncolored shown = p.instruction.text)
      (hparse : ∀ t, Instruction.parse t p.instruction.text = .ok p.instruction) :
      RowText code i raw ("[" ++ p.address.hex ++ "] " ++ p.instruction.binary ++ " "
        ++ numberText i ++ "   " ++ (shown ++ (" " ++ shownComment (commentOf raw))))
  | label {name : String} (hline : Line.parse raw = .ok (.label name)) :
      RowText code i raw (alignRight wordWidth "" ++ numberText i ++ " "
        ++ (shownLabel name ++ (" " ++ shownComment (commentOf raw))))
  | empty (hline : Line.parse raw = .ok .blank) :
      RowText code i raw (alignRight wordWidth "" ++ numberText i ++ " "
        ++ shownComment (commentOf raw))

theorem label?_row (i : Nat) (raw : String) (placed? : Option Placed) :
    (row i raw placed?).label? = definedLabel? raw := by
  unfold row content Row.label? definedLabel?
  rcases Line.parse raw with _ | _ | _ | _
  · rfl
  · rfl
  · rfl
  · cases placed? <;> rfl

theorem isName_label? {lines : List String} {code : List Placed} {r : Row}
    (hr : r ∈ rows lines code) : ∀ name ∈ r.label?, isName name := by
  obtain ⟨i, raw, -, placed?, rfl⟩ := exists_line_of_mem_rowsFrom hr
  rw [label?_row]
  exact fun name hname => isName_of_definedLabel? hname

/-- the row of a line of an assembled program is written as it has to be -/
theorem rowText_of_assemble {lines : List String} {a : Assembly} (h : assemble lines = .ok a)
    {i : Nat} {raw : String} (hi : lines[i]? = some raw) :
    RowText a.code i raw (row i raw (placedAt a.code i)).text := by
  obtain ⟨t, code, hs, hcode, hplaces⟩ := places_of_assemble h
  obtain ⟨line, hline⟩ := (hs.readable raw (List.mem_of_getElem? hi)).line
  cases line with
  | blank =>
    rw [Row.text_empty (content_blank _ hline)]
    exact .empty hline
  | label name =>
    rw [Row.text_label (content_label _ hline)]
    exact .label hline
  | instruction text =>
    have ht : instructionText? raw = some text := instructionText?_eq_some_iff.mpr hline
    obtain ⟨p, hp, hpi, hplaced⟩ := exists_placedAt hplaces hi ht
    rw [← Array.mem_toList_iff, ← hcode] at hp
    rw [← hcode] at hplaced
    have honly : ∀ q ∈ a.code, q.line = i → q = p := by
      intro q hq hqi
      have hfound := placedAt_line (hcode ▸ hplaces.pairwise_line) hq
      rw [hqi, hplaced] at hfound
      exact (Option.some.inj hfound).symm
    have hshown : uncolored (render p.instruction.spans) = p.instruction.text := by
      rw [uncolored_render, Instruction.plainText_spans]
      intro span hspan
      exact not_mem_of_isColumnText (Instruction.isColumnText_of_mem_spans span hspan) (by decide)
    have hparse := Instruction.parse_text (Assembly.encodable h p hp)
    rw [hplaced, Row.text_word (content_instruction hline p)]
    exact .word hline hp hpi honly hshown hparse

theorem isSome_shownWord?_iff {code : List Placed} {i : Nat} {raw s : String}
    (h : RowText code i raw s) :
    (shownWord? s).isSome ↔ ∃ text, Line.parse raw = .ok (.instruction text) := by
  cases h with
  | @word text _ p hline =>
    rw [Row.shownWord?_word]
    exact iff_of_true rfl ⟨text, hline⟩
  | label hline =>
    rw [Row.shownWord?_blank, hline]
    exact iff_of_false nofun nofun
  | empty hline =>
    rw [Row.shownWord?_blank, hline]
    exact iff_of_false nofun nofun

theorem renderRows_listing (path : String) (lines : List String) (code : List Placed) :
    renderRows (listing path lines code) =
      String.join
        ((header path :: ((rows lines code).map Row.text ++ [footer])).map (· ++ "\n")) := by
  have hplain : ∀ s, render [.plain s] = s := by
    intro s
    rw [render_plain, render_nil, String.append_empty]
  rw [renderRows, listing]
  simp only [List.cons_append, List.map_cons, List.map_append, List.map_map, List.map_nil, hplain]
  rfl

/-- **The listing is complete and faithful.**  It has a header, a row for each line, and a footer,
each ended by the only line feed in it.  The row of a line is written as it has to be; a word can be
read off it just when the line is an instruction, and a name just when the line is a label with this
name; and the words, from top to bottom, are those of the program. -/
theorem listing_of_assemble {path : String} {lines : List String} {a : Assembly}
    (h : assemble lines = .ok a) (hpath : '\n' ∉ path.toList)
    (hlines : ∀ raw ∈ lines, '\n' ∉ raw.toList) :
    ∃ body : List String,
      renderRows (listing path lines a.code) =
        String.join ((header path :: (body ++ [footer])).map (· ++ "\n")) ∧
      (∀ row ∈ header path :: (body ++ [footer]), '\n' ∉ row.toList) ∧
      body.length = lines.length ∧
      (∀ i raw, lines[i]? = some raw → ∃ row, body[i]? = some row ∧ RowText a.code i raw row ∧
        ((shownWord? row).isSome ↔ ∃ text, Line.parse raw = .ok (.instruction text)) ∧
        ∀ name, shownLabel? row = some name ↔ Line.parse raw = .ok (.label name)) ∧
      body.filterMap shownWord? = a.binary := by
  obtain ⟨t, code, -, hcode, hplaces⟩ := places_of_assemble h
  refine ⟨(rows lines a.code).map Row.text, renderRows_listing path lines a.code, ?_, ?_, ?_, ?_⟩
  · simp only [List.forall_mem_cons, List.forall_mem_append, List.forall_mem_map]
    refine ⟨line_feed_not_mem_header hpath, fun r hr => ?_, line_feed_not_mem_footer,
      List.forall_mem_nil _⟩
    apply Row.line_feed_not_mem_text r (isName_label? hr)
    obtain ⟨i, raw, hraw, placed?, rfl⟩ := exists_line_of_mem_rowsFrom hr
    exact not_mem_of_commentOf (hlines raw hraw)
  · rw [List.length_map, rows, length_rowsFrom, List.length_nil, Nat.zero_add]
  · intro i raw hi
    have hrow := rowText_of_assemble h hi
    have hget : (rows lines a.code)[i]? = some (row i raw (placedAt a.code i)) := by
      rw [hcode]
      exact getElem?_rows hplaces hi
    refine ⟨_, ?_, hrow, isSome_shownWord?_iff hrow, fun name => ?_⟩
    · rw [List.getElem?_map, hget, Option.map_some]
    · rw [Row.shownLabel?_text _ (isName_label? (List.mem_of_getElem? hget)), label?_row]
      exact definedLabel?_eq_some_iff
  · calc ((rows lines a.code).map Row.text).filterMap shownWord?
        = (rows lines a.code).filterMap fun r => r.placed?.map (·.instruction.binary) := by
          rw [List.filterMap_map]
          exact List.filterMap_congr fun r _ => Row.shownWord?_text r
      _ = ((rows lines a.code).filterMap Row.placed?).map (·.instruction.binary) :=
          List.map_filterMap.symm
      _ = a.binary := by rw [hcode, placed_rows hplaces, Assembly.binary, hcode]

/-- the third line of the program is a label, and the fourth an instruction -/
theorem listing_of_assemble_countdown :
    ∃ a, assemble countdown = .ok a ∧ ∃ body : List String,
      renderRows (listing "countdown.asm" countdown a.code) =
        String.join ((header "countdown.asm" :: (body ++ [footer])).map (· ++ "\n")) ∧
      body.length = 10 ∧ body.filterMap shownWord? = a.binary ∧
      (∃ row, body[2]? = some row ∧ shownLabel? row = some "LOOP") ∧
      ∃ row, body[3]? = some row ∧ (shownWord? row).isSome := by
  obtain ⟨a, h⟩ : ∃ a, assemble countdown = .ok a := exists_of_isOk (by decide +kernel)
  have hpath : '\n' ∉ "countdown.asm".toList := by decide
  have hlines : ∀ raw ∈ countdown, '\n' ∉ raw.toList := by decide +kernel
  obtain ⟨body, hprinted, -, hlength, hrows, hwords⟩ := listing_of_assemble h hpath hlines
  refine ⟨a, h, body, hprinted, hlength, hwords, ?_, ?_⟩
  · obtain ⟨row, hrow, -, -, hlabel⟩ := hrows 2 "(LOOP)" rfl
    exact ⟨row, hrow, (hlabel "LOOP").mpr (by decide +kernel)⟩
  · obtain ⟨row, hrow, -, hword, -⟩ := hrows 3 "@n" rfl
    exact ⟨row, hrow, hword.mpr ⟨"@n", by decide +kernel⟩⟩

end Listing

end HackAssembler
