import ScriptMin.Span
import ScriptMin.Number.Text
import ScriptMin.Token.Vocabulary

/-!
Tokens: what the scanner hands to the grammar.
-/

namespace ScriptMin

/-- Kind of a token with the value it carries. -/
inductive TokenKind where
  /-- A name that is not reserved. -/
  | identifier (name : String)
  | number (value : Number)
  /-- A string literal with its escapes resolved. -/
  | string (text : String)
  /-- A regular expression literal as written, with slashes and flags. -/
  | regExp (source : String)
  | keyword (word : Keyword)
  | punctuator (sign : Punctuator)
  /-- A line break, seen only where line breaks matter. -/
  | newline
  | endOfInput
  deriving DecidableEq, Repr

namespace TokenKind

def describe : TokenKind → String
  | .identifier name => s!"identifier '{name}'"
  | .number value => s!"number {value.plainText}"
  | .string _ => "string"
  | .regExp _ => "regular expression"
  | .keyword word => s!"'{word.text}'"
  | .punctuator sign => s!"'{sign.text}'"
  | .newline => "newline"
  | .endOfInput => "end of input"

/-- Whether an operand is expected behind a token of this kind, judged by the
token alone. A slash in such a place starts a regular expression. -/
def operandAfter : TokenKind → Bool
  | .identifier _ | .number _ | .string _ | .regExp _ => false
  | .keyword word => !(word matches .kwThis | .kwTrue | .kwFalse | .kwNull)
  | .punctuator sign =>
    !(sign matches .closeParen | .closeBracket | .closeBrace | .plusPlus | .minusMinus)
  | .newline | .endOfInput => true

/-- Name usable behind a dot or as a key: names and reserved words. -/
def propertyName? : TokenKind → Option String
  | .identifier name => some name
  | .keyword word => some word.text
  | _ => none

def isLiteralKey : TokenKind → Bool
  | .string _ | .number _ => true
  | _ => false

end TokenKind

/-- A token with its place and, for a compound assignment, its operator. -/
structure Token where
  kind : TokenKind
  span : Span
  endLine : Nat
  assignOp : Option Punctuator
  deriving DecidableEq, Repr

namespace Token

/-- The token that stands for "nothing read yet". -/
def initial : Token := ⟨.endOfInput, ⟨0, 0, 0⟩, 0, none⟩

instance : Inhabited Token := ⟨initial⟩

def isPunctuator (t : Token) (p : Punctuator) : Bool := t.kind == .punctuator p

def isKeyword (t : Token) (k : Keyword) : Bool := t.kind == .keyword k

/-- Whether the text of the token reads differently if an operand is wanted, or
not wanted, in its place. -/
def dependsOnOperand (t : Token) (operand : Bool) : Bool :=
  match t.kind with
  | .punctuator .slash => operand
  | .punctuator .assign => operand && t.assignOp == some .slash
  | .regExp _ => !operand
  | _ => false

end Token

end ScriptMin
