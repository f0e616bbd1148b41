import HackAssembler.Text.Styled
import HackAssembler.Text.Split

/-!
# Terminals: what a styled text looks like

A terminal shows a text without the codes in it.  A code starts with an escape character and ends
with the first `m` after it.

* `uncolored`              a text as a terminal shows it;
* `Invisible`              a text that shows nowhere, as the codes between two styles do;
* `uncolored_render`       a styled text shows as its spans;
* `render_between`         spans between plain ones are written as they are alone;
* `line_feed_not_mem_render`   a row of spans without line feeds is one row.
-/

namespace HackAssembler

/-- drops the codes; `inCode` tells whether one has been started -/
def withoutCodes (inCode : Bool) : List Char → List Char
  | [] => []
  | c :: cs =>
    if inCode then
      withoutCodes (c ≠ 'm') cs
    else if c = '\x1b' then
      withoutCodes true cs
    else
      c :: withoutCodes false cs

/-- a text as a terminal shows it -/
def uncolored (s : String) : String := String.ofList (withoutCodes false s.toList)

theorem withoutCodes_append {xs : List Char} (h : '\x1b' ∉ xs) (ys : List Char) :
    withoutCodes false (xs ++ ys) = xs ++ withoutCodes false ys := by
  induction xs with
  | nil => rfl
  | cons x xs ih =>
    obtain ⟨hx, hxs⟩ := List.ne_and_not_mem_of_not_mem_cons h
    rw [List.cons_append, withoutCodes, if_neg Bool.false_ne_true, if_neg hx.symm, ih hxs,
      List.cons_append]

theorem withoutCodes_code {xs : List Char} (h : 'm' ∉ xs) (ys : List Char) :
    withoutCodes true (xs ++ 'm' :: ys) = withoutCodes false ys := by
  induction xs with
  | nil => rfl
  | cons x xs ih =>
    obtain ⟨hx, hxs⟩ := List.ne_and_not_mem_of_not_mem_cons h
    rw [List.cons_append, withoutCodes, if_pos rfl, decide_eq_true hx.symm, ih hxs]

/-! ## codes -/

/-- a text that shows nowhere -/
def Invisible (code : String) : Prop :=
  ∀ cs, withoutCodes false (code.toList ++ cs) = withoutCodes false cs

namespace Invisible

theorem empty : Invisible "" := fun _ => rfl

theorem append {s t : String} (hs : Invisible s) (ht : Invisible t) : Invisible (s ++ t) := by
  intro cs
  rw [String.toList_append, List.append_assoc, hs, ht]

theorem escape {parameter : String} (h : 'm' ∉ parameter.toList) :
    Invisible (escape parameter) := by
  intro cs
  have hchars : (HackAssembler.escape parameter).toList ++ cs =
      '\x1b' :: (('[' :: parameter.toList) ++ 'm' :: cs) := by
    simp [HackAssembler.escape]
  have hm : 'm' ∉ '[' :: parameter.toList := List.not_mem_cons_of_ne_of_not_mem (by decide) h
  rw [hchars, withoutCodes, if_neg Bool.false_ne_true, if_pos rfl, withoutCodes_code hm]

theorem colorCode (color : Option Color) : Invisible (colorCode color) := by
  rcases color with _ | color
  · exact escape (by decide)
  · cases color <;> exact escape (by decide)

theorem weightCode (weight : Weight) : Invisible (weightCode weight) := by
  cases weight <;> exact escape (by decide)

theorem underlineCode (underlined : Bool) : Invisible (underlineCode underlined) := by
  cases underlined <;> exact escape (by decide)

/-- a code that may be left out -/
theorem ite {code : String} (h : Invisible code) (p : Prop) [Decidable p] :
    Invisible (if p then "" else code) := by
  split
  · exact empty
  · exact h

theorem change (old new : Style) : Invisible (old.change new) :=
  (((colorCode _).ite _).append ((weightCode _).ite _)).append ((underlineCode _).ite _)

end Invisible

/-! ## rows of spans -/

section
variable {style : Style} {spans : List Span}

theorem plainText_cons (span : Span) (spans : List Span) :
    plainText (span :: spans) = span.text ++ plainText spans := by
  rw [plainText, List.map_cons, String.join_cons, plainText]

theorem withoutCodes_renderFrom (h : ∀ span ∈ spans, '\x1b' ∉ span.text.toList) (style : Style) :
    withoutCodes false (renderFrom style spans).toList = (plainText spans).toList := by
  induction spans generalizing style with
  | nil =>
    have hchange := Invisible.change style .plain []
    rwa [List.append_nil] at hchange
  | cons span spans ih =>
    obtain ⟨hspan, hspans⟩ := List.forall_mem_cons.mp h
    rw [renderFrom, String.toList_append, String.toList_append, List.append_assoc,
      Invisible.change, withoutCodes_append hspan, ih hspans, plainText_cons, String.toList_append]

/-- a styled text shows as the texts of its spans -/
theorem uncolored_render (h : ∀ span ∈ spans, '\x1b' ∉ span.text.toList) :
    uncolored (render spans) = plainText spans := by
  rw [uncolored, render, withoutCodes_renderFrom h, String.ofList_toList]

/-- a plain span ends the style in front of it -/
theorem renderFrom_append_plain (style : Style) (spans : List Span) (text : String)
    (rest : List Span) :
    renderFrom style (spans ++ .plain text :: rest) =
      renderFrom style spans ++ text ++ render rest := by
  induction spans generalizing style with
  | nil => rfl
  | cons span spans ih =>
    rw [List.cons_append, renderFrom, ih, renderFrom]
    simp only [String.append_assoc]

/-- spans between two plain ones -/
theorem render_between (before : String) (spans : List Span) (after : String) (rest : List Span) :
    render (.plain before :: (spans ++ .plain after :: rest)) =
      before ++ (render spans ++ (after ++ render rest)) := by
  rw [render_plain, render, renderFrom_append_plain, String.append_assoc]
  rfl

theorem line_feed_not_mem_change (old new : Style) : '\n' ∉ (old.change new).toList := by
  have hcolor : '\n' ∉ (colorCode new.color).toList := by
    rcases new.color with _ | color
    · decide
    · cases color <;> decide
  have hweight : '\n' ∉ (weightCode new.weight).toList := by
    cases new.weight <;> decide
  have hunderline : '\n' ∉ (underlineCode new.underlined).toList := by
    cases new.underlined <;> decide
  have hite : ∀ (p : Prop) [Decidable p] (code : String), '\n' ∉ code.toList →
      '\n' ∉ (if p then "" else code).toList := by
    intro p _ code hcode
    split
    · exact List.not_mem_nil
    · exact hcode
  rw [Style.change, not_mem_toList_append, not_mem_toList_append]
  exact ⟨⟨hite _ _ hcolor, hite _ _ hweight⟩, hite _ _ hunderline⟩

theorem line_feed_not_mem_renderFrom (h : ∀ span ∈ spans, '\n' ∉ span.text.toList) (style : Style) :
    '\n' ∉ (renderFrom style spans).toList := by
  induction spans generalizing style with
  | nil => exact line_feed_not_mem_change style .plain
  | cons span spans ih =>
    obtain ⟨hspan, hspans⟩ := List.forall_mem_cons.mp h
    rw [renderFrom, not_mem_toList_append, not_mem_toList_append]
    exact ⟨⟨line_feed_not_mem_change style span.style, hspan⟩, ih hspans span.style⟩

/-- the codes break no row -/
theorem line_feed_not_mem_render (h : ∀ span ∈ spans, '\n' ∉ span.text.toList) :
    '\n' ∉ (render spans).toList :=
  line_feed_not_mem_renderFrom h .plain

end

end HackAssembler
