/-!
# Styled text: spans and the terminal codes between them

A styled text is a list of spans, each with a colour, a weight and an underline.  `render` writes
a code only where the style changes: a colour is replaced without going back to the default one,
and the codes of one change come in the order colour, weight, underline.

* `render_nil`, `render_plain`   a text without style is written as it is;
* `plainText`                    the text without its styles;
* `renderRows`                   spans row by row, each row ended by a line feed;
* `alignRight`, `rule`           what columns are made of.
-/

namespace HackAssembler

inductive Color where
  | red
  | green
  | yellow
  | blue
  | cyan
  deriving DecidableEq, Repr

inductive Weight where
  | normal
  | bold
  | dim
  deriving DecidableEq, Repr

structure Style where
  color : Option Color := none
  weight : Weight := .normal
  underlined : Bool := false
  deriving DecidableEq, Repr

structure Span where
  style : Style
  text : String
  deriving DecidableEq, Repr

/-- the code that a terminal reads as `parameter` -/
def escape (parameter : String) : String := "\x1b[" ++ parameter ++ "m"

def colorCode : Option Color → String
  | none => escape "39"
  | some .red => escape "31"
  | some .green => escape "32"
  | some .yellow => escape "33"
  | some .blue => escape "34"
  | some .cyan => escape "36"

def weightCode : Weight → String
  | .normal => escape "22"
  | .bold => escape "1"
  | .dim => escape "2"

def underlineCode : Bool → String
  | false => escape "24"
  | true => escape "4"

namespace Style

def plain : Style := {}

/-- the codes between a span of style `old` and a span of style `new` -/
def change (old new : Style) : String :=
  (if old.color = new.color then "" else colorCode new.color)
    ++ (if old.weight = new.weight then "" else weightCode new.weight)
    ++ (if old.underlined = new.underlined then "" else underlineCode new.underlined)

@[simp] theorem change_self (s : Style) : s.change s = "" := by simp [change]

end Style

namespace Span

def plain (text : String) : Span := ⟨.plain, text⟩

def colored (color : Color) (text : String) : Span := ⟨{ color := some color }, text⟩

end Span

/-- writes the spans on a terminal whose style is `style`, and leaves it plain -/
def renderFrom (style : Style) : List Span → String
  | [] => style.change .plain
  | span :: spans => style.change span.style ++ span.text ++ renderFrom span.style spans

def render (spans : List Span) : String := renderFrom .plain spans

def plainText (spans : List Span) : String := String.join (spans.map (·.text))

def renderRows (rows : List (List Span)) : String :=
  String.join (rows.map fun spans => render spans ++ "\n")

/-! ## columns -/

/-- blanks in front of a text that is shorter than its column; a longer one is not cut -/
def alignRight (width : Nat) (text : String) : String :=
  String.ofList (text.toList.leftpad width ' ')

def rule (width : Nat) : String := String.ofList (List.replicate width '-')

/-! ## texts without style -/

@[simp] theorem render_nil : render [] = "" := Style.change_self .plain

theorem render_plain (text : String) (spans : List Span) :
    render (.plain text :: spans) = text ++ render spans := by
  simp [render, renderFrom, Span.plain]

end HackAssembler
