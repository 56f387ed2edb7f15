/-!
The words and signs of the script language.
-/

namespace ScriptMin

/-- Reserved words. The last six are reserved without a use. -/
inductive Keyword where
  | kwBreak
  | kwCase
  | kwCatch
  | kwConst
  | kwContinue
  | kwDebugger
  | kwDefault
  | kwDelete
  | kwDo
  | kwElse
  | kwFalse
  | kwFinally
  | kwFor
  | kwFunction
  | kwIf
  | kwIn
  | kwInstanceof
  | kwLet
  | kwNew
  | kwNull
  | kwReturn
  | kwSwitch
  | kwThis
  | kwThrow
  | kwTrue
  | kwTry
  | kwTypeof
  | kwVar
  | kwVoid
  | kwWhile
  | kwWith
  | kwYield
  | kwClass
  | kwEnum
  | kwExport
  | kwExtends
  | kwImport
  | kwSuper
  deriving DecidableEq, Repr

namespace Keyword

def text : Keyword → String
  | .kwBreak => "break"
  | .kwCase => "case"
  | .kwCatch => "catch"
  | .kwConst => "const"
  | .kwContinue => "continue"
  | .kwDebugger => "debugger"
  | .kwDefault => "default"
  | .kwDelete => "delete"
  | .kwDo => "do"
  | .kwElse => "else"
  | .kwFalse => "false"
  | .kwFinally => "finally"
  | .kwFor => "for"
  | .kwFunction => "function"
  | .kwIf => "if"
  | .kwIn => "in"
  | .kwInstanceof => "instanceof"
  | .kwLet => "let"
  | .kwNew => "new"
  | .kwNull => "null"
  | .kwReturn => "return"
  | .kwSwitch => "switch"
  | .kwThis => "this"
  | .kwThrow => "throw"
  | .kwTrue => "true"
  | .kwTry => "try"
  | .kwTypeof => "typeof"
  | .kwVar => "var"
  | .kwVoid => "void"
  | .kwWhile => "while"
  | .kwWith => "with"
  | .kwYield => "yield"
  | .kwClass => "class"
  | .kwEnum => "enum"
  | .kwExport => "export"
  | .kwExtends => "extends"
  | .kwImport => "import"
  | .kwSuper => "super"

def all : List Keyword := [
  .kwBreak, .kwCase, .kwCatch, .kwConst, .kwContinue, .kwDebugger, .kwDefault, .kwDelete,
  .kwDo, .kwElse, .kwFalse, .kwFinally, .kwFor, .kwFunction, .kwIf, .kwIn, .kwInstanceof,
  .kwLet, .kwNew, .kwNull, .kwReturn, .kwSwitch, .kwThis, .kwThrow, .kwTrue, .kwTry, .kwTypeof,
  .kwVar, .kwVoid, .kwWhile, .kwWith, .kwYield, .kwClass, .kwEnum, .kwExport, .kwExtends,
  .kwImport, .kwSuper]

def ofText? (text : String) : Option Keyword := all.find? (·.text == text)

end Keyword

/-- Whether a name is reserved and cannot stand for a variable. -/
def isReserved (name : String) : Bool := (Keyword.ofText? name).isSome

inductive Punctuator where
  | openParen
  | closeParen
  | openBrace
  | closeBrace
  | openBracket
  | closeBracket
  | semicolon
  | comma
  | dot
  | colon
  | question
  | assign
  | plus
  | minus
  | star
  | slash
  | percent
  | eqEq
  | eqEqEq
  | notEq
  | notEqEq
  | less
  | lessEq
  | greater
  | greaterEq
  | andAnd
  | orOr
  | bang
  | amp
  | bar
  | caret
  | tilde
  | shiftLeft
  | shiftRight
  | shiftRightZero
  | plusPlus
  | minusMinus
  deriving DecidableEq, Repr

namespace Punctuator

/-- Spelling of a punctuator. A compound assignment is spelled like a plain one. -/
def text : Punctuator → String
  | .openParen => "("
  | .closeParen => ")"
  | .openBrace => "\x7b"
  | .closeBrace => "\x7d"
  | .openBracket => "["
  | .closeBracket => "]"
  | .semicolon => ";"
  | .comma => ","
  | .dot => "."
  | .colon => ":"
  | .question => "?"
  | .assign => "="
  | .plus => "+"
  | .minus => "-"
  | .star => "*"
  | .slash => "/"
  | .percent => "%"
  | .eqEq => "=="
  | .eqEqEq => "==="
  | .notEq => "!="
  | .notEqEq => "!=="
  | .less => "<"
  | .lessEq => "<="
  | .greater => ">"
  | .greaterEq => ">="
  | .andAnd => "&&"
  | .orOr => "||"
  | .bang => "!"
  | .amp => "&"
  | .bar => "|"
  | .caret => "^"
  | .tilde => "~"
  | .shiftLeft => "<<"
  | .shiftRight => ">>"
  | .shiftRightZero => ">>>"
  | .plusPlus => "++"
  | .minusMinus => "--"

def all : List Punctuator := [
  .openParen, .closeParen, .openBrace, .closeBrace, .openBracket, .closeBracket, .semicolon,
  .comma, .dot, .colon, .question, .assign, .plus, .minus, .star, .slash, .percent, .eqEq,
  .eqEqEq, .notEq, .notEqEq, .less, .lessEq, .greater, .greaterEq, .andAnd, .orOr, .bang, .amp,
  .bar, .caret, .tilde, .shiftLeft, .shiftRight, .shiftRightZero, .plusPlus, .minusMinus]

def ofText? (text : String) : Option Punctuator := all.find? (·.text == text)

/-- Operators that form a compound assignment with a following `=`. -/
def compounds : List Punctuator := [
  .plus, .minus, .star, .slash, .percent, .shiftLeft, .shiftRight, .shiftRightZero, .amp, .bar,
  .caret]

/-- A punctuator as it is written, and the operator of a compound assignment. -/
structure Spelling where
  chars : List Char
  sign : Punctuator
  op : Option Punctuator
  deriving DecidableEq, Repr

/-- Everything the scanner reads as a punctuator, longer spellings first. -/
def spellings : List Spelling :=
  let plain := all.map fun p => ⟨p.text.toList, p, none⟩
  let compound := compounds.map fun p => ⟨p.text.toList ++ ['='], .assign, some p⟩
  [4, 3, 2, 1].flatMap fun n => (plain ++ compound).filter fun s => s.chars.length == n

def scan? (text : List Char) : Option Spelling :=
  spellings.find? fun s => s.chars.isPrefixOf text

end Punctuator

end ScriptMin
