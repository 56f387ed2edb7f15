import ScriptMin.Proofs.Printer.Formatting
import ScriptMin.Proofs.Token.Spacing

/-!
Formatted texts and their tokens. What formatting shows of the marks of a text are additions the
scanner passes over or reads as semicolons before closing braces. So a formatted text has the
tokens of the text without formatting, but for such semicolons.
-/

namespace ScriptMin

/-- Deletes every semicolon that stands directly before a closing brace, until none does. -/
def Token.trimmed : List (TokenKind × Option Punctuator) → List (TokenKind × Option Punctuator)
  | [] => []
  | form :: rest =>
    if form = (.punctuator .semicolon, none) ∧
        (trimmed rest).head? = some (.punctuator .closeBrace, none) then trimmed rest
    else form :: trimmed rest

namespace Printer

/-- What formatting shows of marks are additions to what is written without it. -/
theorem Mark.Placed.padded {marks : List Mark} (h : Placed marks) (f : Formatting) :
    Padded (text {} marks) (text f marks) := by
  induction h with
  | nil => exact .nil
  | char c _ ih => exact .char c ih
  | space _ ih =>
      cases hcomma : f.comma with
      | true => simpa [shown, hcomma] using ih.space
      | false => simpa [shown, hcomma] using ih.char ','
  | semicolon _ ih =>
      cases hsemicolon : f.semicolon with
      | true => simpa [shown, hsemicolon] using ih.semicolon
      | false => simpa [shown, hsemicolon] using ih.char '}'

end Printer

end ScriptMin
