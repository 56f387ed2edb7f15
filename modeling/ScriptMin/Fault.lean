import ScriptMin.Diagnostic
import ScriptMin.Token.Basic

/-!
Reasons to reject a source text, and the wording of each.
-/

namespace ScriptMin

/-- What the grammar was looking for when it met something else. -/
inductive Wanted where
  | endOfInput
  | caseOrEnd
  | catchVariable
  | variableName
  | propertyName
  | pattern
  | parameter
  | comprehensionVariable
  | expression
  | commaOrBracket
  | commaOrBrace
  | punctuator (sign : Punctuator)
  | keyword (word : Keyword)
  deriving DecidableEq, Repr

def Wanted.text : Wanted → String
  | .endOfInput => "end of input"
  | .caseOrEnd => "'case', 'default' or '\x7d'"
  | .catchVariable => "catch variable"
  | .variableName => "variable name"
  | .propertyName => "property name"
  | .pattern => "destructuring pattern"
  | .parameter => "formal parameter"
  | .comprehensionVariable => "comprehension variable"
  | .expression => "expression"
  | .commaOrBracket => "',' or ']'"
  | .commaOrBrace => "',' or '\x7d'"
  | .punctuator sign => s!"'{sign.text}'"
  | .keyword word => s!"'{word.text}'"

/-- Why a text is not a sequence of tokens. -/
inductive LexicalCause where
  | illegalToken (c : Char)
  | unterminatedString
  | unterminatedRegExp
  | unterminatedComment
  | badHexEscape
  | badHexLiteral
  | nameAfterNumber
  deriving DecidableEq, Repr

def LexicalCause.message : LexicalCause → String
  | .illegalToken c => s!"Illegal token: '{c}'"
  | .unterminatedString => "Unterminated string literal"
  | .unterminatedRegExp => "Unterminated regular expression literal"
  | .unterminatedComment => "Unterminated comment"
  | .badHexEscape => "Invalid hexadecimal escape sequence"
  | .badHexLiteral => "Invalid hexadecimal literal"
  | .nameAfterNumber => "Identifier starts immediately after numeric literal"

/-- Why a sequence of tokens is not a script. -/
inductive GrammarCause where
  | unexpectedEnd
  | expected (wanted : Wanted) (got : TokenKind)
  | withoutTry (word : Keyword)
  | secondDefault
  | missingIterator
  | badForInTarget
  | badForEach
  | uninitializedPattern
  | continueOutsideLoop
  | breakOutsideLoop
  | labelNotFound (label : String)
  | labelNotLoop (label : String)
  | duplicateLabel (label : String)
  | unreachableCatch
  | bareTry
  | returnOutsideFunction
  | yieldOutsideFunction
  | redeclaration (name : String)
  | missingFunctionName
  | badAssignmentTarget
  | badUpdateTarget
  | bareGenerator
  | missingSemicolon
  /-- The step budget ran out. The budget is a multiple of the length of the text
  that no derivation exceeds. -/
  | budgetSpent
  deriving DecidableEq, Repr

def GrammarCause.message : GrammarCause → String
  | .unexpectedEnd => "Unexpected end of input"
  | .expected wanted got => s!"Expected {wanted.text}, got {got.describe}"
  | .withoutTry word => s!"{word.text} without try"
  | .secondDefault => "More than one switch default"
  | .missingIterator => "Missing for-in iterator"
  | .badForInTarget => "Invalid for-in left-hand side"
  | .badForEach => "Invalid for each loop"
  | .uninitializedPattern => "Missing = in destructuring declaration"
  | .continueOutsideLoop => "continue must be inside loop"
  | .breakOutsideLoop => "break must be inside loop or switch"
  | .labelNotFound label => s!"Label not found: {label}"
  | .labelNotLoop label => s!"Invalid continue, label {label} is not a loop"
  | .duplicateLabel label => s!"Duplicate label: {label}"
  | .unreachableCatch => "Catch after unconditional catch"
  | .bareTry => "Missing catch or finally after try"
  | .returnOutsideFunction => "Return not in function"
  | .yieldOutsideFunction => "Yield not in function"
  | .redeclaration name => s!"Redeclaration of {name}"
  | .missingFunctionName => "Missing function name"
  | .badAssignmentTarget => "Invalid assignment left-hand side"
  | .badUpdateTarget => "Invalid increment/decrement operand"
  | .bareGenerator => "Generator expression must be parenthesized"
  | .missingSemicolon => "Missing ; before statement"
  | .budgetSpent => "Step budget spent"

inductive Cause where
  | lexical (cause : LexicalCause)
  | grammar (cause : GrammarCause)
  deriving DecidableEq, Repr

/-- A cause with the line it was met on. -/
structure Fault where
  cause : Cause
  line : Nat
  deriving DecidableEq, Repr

namespace Fault

def report (file : String) (f : Fault) : Diagnostic :=
  match f.cause with
  | .lexical cause => ⟨.lexical, cause.message, file, f.line⟩
  | .grammar cause => ⟨.grammar, cause.message, file, f.line⟩

/-- The fault of meeting a token where something else was wanted. -/
def unexpected (wanted : Wanted) (got : Token) : Fault :=
  match got.kind with
  | .endOfInput => ⟨.grammar .unexpectedEnd, got.span.line⟩
  | kind => ⟨.grammar (.expected wanted kind), got.span.line⟩

end Fault

end ScriptMin
