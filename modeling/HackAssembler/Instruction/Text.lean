import HackAssembler.Instruction.Basic
import HackAssembler.Text.Styled

/-!
# The written form of an instruction

`text` is the form a program is written in: `@value`, or `dest=comp;jump` without the parts that
say nothing.  `spans` are its pieces in colour.
-/

namespace HackAssembler

namespace Instruction

def text : Instruction → String
  | address value => "@" ++ toString value.toNat
  | compute dest comp jump =>
    (if dest = .none then "" else dest.text ++ "=") ++ comp.mnemonic
      ++ (match jump.mnemonic? with
        | some mnemonic => ";" ++ mnemonic
        | none => "")

def spans : Instruction → List Span
  | address value => [.colored .red "@", .colored .yellow (toString value.toNat)]
  | compute dest comp jump =>
    (if dest = .none then [] else [.colored .blue dest.text, .plain "="])
      ++ [.colored .green comp.mnemonic]
      ++ (match jump.mnemonic? with
        | some mnemonic => [.plain ";", .colored .red mnemonic]
        | none => [])

theorem plainText_spans (i : Instruction) : plainText i.spans = i.text := by
  cases i with
  | address value => simp [plainText, spans, text, Span.colored, String.join]
  | compute dest comp jump =>
    simp only [plainText, spans, text]
    split <;> split <;> simp [Span.colored, Span.plain, String.join, String.append_assoc]

end Instruction

end HackAssembler
