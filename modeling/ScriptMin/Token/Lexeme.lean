import ScriptMin.Fault
import ScriptMin.Text.Blank
import ScriptMin.Text.Numeric

/-!
The lexical rules: which token a text starts with, and how many characters it
takes. Nothing here depends on where in the source the text stands.
-/

namespace ScriptMin

/-- A token without its place. -/
structure Lexeme where
  kind : TokenKind
  assignOp : Option Punctuator
  length : Nat
  deriving DecidableEq, Repr

namespace Lexeme

def plain (kind : TokenKind) (length : Nat) : Lexeme := ⟨kind, none, length⟩

def hexDigit? (c : Char) : Option Nat :=
  if '0' ≤ c ∧ c ≤ '9' then some (c.toNat - '0'.toNat)
  else if 'a' ≤ c ∧ c ≤ 'f' then some (c.toNat - 'a'.toNat + 10)
  else if 'A' ≤ c ∧ c ≤ 'F' then some (c.toNat - 'A'.toNat + 10)
  else none

/-- Value of a digit text in a base, the digits being valid in it. -/
def digitsValue (base : Nat) (digits : List Char) : Nat :=
  digits.foldl (fun acc d => acc * base + (hexDigit? d).getD 0) 0

/-! ### Numbers -/

/-- Value of a digit text in a base that is a power of two, where every step rounds. -/
def roundedValue (base : Nat) (digits : List Char) : Number :=
  digits.foldl
    (fun acc d => ((acc.mul (.ofNat base)).add (.ofNat ((hexDigit? d).getD 0))))
    Number.zero

def digitRun (text : List Char) : List Char := text.takeWhile Char.isDigit

/-- An exponent mark with its digits: its length and value. A mark without digits
is none. -/
def exponentPart (text : List Char) : Nat × Int :=
  match text with
  | mark :: rest =>
    if mark = 'e' ∨ mark = 'E' then
      let (signLength, negative) :=
        match rest with
        | '+' :: _ => (1, false)
        | '-' :: _ => (1, true)
        | _ => (0, false)
      let digits := digitRun (rest.drop signLength)
      if digits.isEmpty then (0, 0)
      else
        let value : Int := digitsValue 10 digits
        (1 + signLength + digits.length, if negative then -value else value)
    else (0, 0)
  | [] => (0, 0)

def decimal (text : List Char) : Number × Nat :=
  let whole := digitRun text
  let afterWhole := text.drop whole.length
  let pointLength := if afterWhole.head? = some '.' then 1 else 0
  let fraction := digitRun (afterWhole.drop pointLength)
  let length := whole.length + pointLength + fraction.length
  let (exponentLength, exponent) := exponentPart (text.drop length)
  (.ofDecimal (digitsValue 10 (whole ++ fraction)) (exponent - fraction.length),
    length + exponentLength)

/-- A number literal. A leading zero before digits below eight makes an octal
literal, unless a point follows. -/
def number (text : List Char) : Except LexicalCause (Number × Nat) :=
  let decimalLiteral : Except LexicalCause (Number × Nat) :=
    let (value, length) := decimal text
    if (text.drop length).head?.any Text.isNameStart then .error .nameAfterNumber
    else .ok (value, length)
  match text with
  | '0' :: rest =>
    if rest.head? = some 'x' ∨ rest.head? = some 'X' then
      let digits := (rest.drop 1).takeWhile fun c => (hexDigit? c).isSome
      if digits.isEmpty then .error .badHexLiteral
      else .ok (roundedValue 16 digits, 2 + digits.length)
    else
      let digits := digitRun rest
      if digits.isEmpty ∨ digits.any (· ≥ '8') ∨ (rest.drop digits.length).head? = some '.' then
        decimalLiteral
      else .ok (roundedValue 8 digits, 1 + digits.length)
  | _ => decimalLiteral

/-! ### Strings -/

/-- The character with a code; halves of a surrogate pair become U+FFFD. -/
def charOfCode (code : Nat) : Char :=
  if code.isValidChar then Char.ofNat code else '\ufffd'

def hexCode? (count : Nat) (text : List Char) : Option Nat :=
  let digits := text.take count
  if digits.length = count ∧ digits.all fun c => (hexDigit? c).isSome then
    some (digitsValue 16 digits)
  else none

def escapeLetter? : Char → Option Char
  | 'n' => some '\n'
  | 't' => some '\t'
  | 'r' => some '\r'
  | 'b' => some '\x08'
  | 'f' => some '\x0c'
  | 'v' => some '\x0b'
  | _ => none

/-- What an escape stands for and how many characters follow the backslash: at most
one character, none for an escaped line break. -/
def escape (letter : Char) (rest : List Char) : Except LexicalCause (Option Char × Nat) :=
  match escapeLetter? letter with
  | some c => .ok (some c, 1)
  | none =>
    if letter = 'x' ∨ letter = 'u' then
      let count := if letter = 'x' then 2 else 4
      match hexCode? count rest with
      | some code => .ok (some (charOfCode code), 1 + count)
      | none => .error .badHexEscape
    else if letter = '0' ∧ ¬ rest.head?.any Char.isDigit then .ok (some '\x00', 1)
    else if letter = '\r' ∧ rest.head? = some '\n' then .ok (none, 2)
    else if Text.isLineBreak letter then .ok (none, 1)
    else .ok (some letter, 1)

/-- Reads a string up to its closing quote: its characters and the number of
characters read. Characters of an escape that are still to be passed over are
counted by `skip`. -/
def stringBody (quote : Char) :
    (skip : Nat) → (acc : List Char) → (length : Nat) → List Char →
      Except LexicalCause (List Char × Nat)
  | _, _, _, [] => .error .unterminatedString
  | skip + 1, acc, length, _ :: rest => stringBody quote skip acc (length + 1) rest
  | 0, acc, length, c :: rest =>
    if c = quote then .ok (acc.reverse, length + 1)
    else if c = '\\' then
      match rest with
      | [] => .error .unterminatedString
      | letter :: after =>
        match escape letter after with
        | .ok (value, count) => stringBody quote count (value.toList ++ acc) (length + 1) rest
        | .error cause => .error cause
    else if Text.isLineBreak c then .error .unterminatedString
    else stringBody quote 0 (c :: acc) (length + 1) rest

/-! ### Regular expressions -/

/-- Number of characters up to the closing slash. A slash inside a character class
does not close. -/
def regExpBody : (inClass escaped : Bool) → (length : Nat) → List Char → Option Nat
  | _, _, _, [] => none
  | inClass, escaped, length, c :: rest =>
    if Text.isLineBreak c then none
    else if escaped then regExpBody inClass false (length + 1) rest
    else if c = '\\' then regExpBody inClass true (length + 1) rest
    else if c = '[' then regExpBody true false (length + 1) rest
    else if c = ']' then regExpBody false false (length + 1) rest
    else if c = '/' ∧ ¬ inClass then some (length + 1)
    else regExpBody inClass false (length + 1) rest

def regExp (text : List Char) : Except LexicalCause Lexeme :=
  match regExpBody false false 1 (text.drop 1) with
  | none => .error .unterminatedRegExp
  | some bodyLength =>
    let length := bodyLength + ((text.drop bodyLength).takeWhile Text.isNamePart).length
    .ok (plain (.regExp (String.ofList (text.take length))) length)

/-! ### All tokens -/

def word (text : List Char) : Lexeme :=
  let chars := text.takeWhile Text.isNamePart
  let name := String.ofList chars
  match Keyword.ofText? name with
  | some keyword => plain (.keyword keyword) chars.length
  | none => plain (.identifier name) chars.length

/-- The token a text starts with. `operand` says whether a slash there starts a
regular expression. -/
def scan (operand : Bool) (text : List Char) : Except LexicalCause Lexeme :=
  match text with
  | [] => .ok (plain .endOfInput 0)
  | c :: rest =>
    if Text.isLineBreak c then
      .ok (plain .newline (if c = '\r' ∧ rest.head? = some '\n' then 2 else 1))
    else if c = '"' ∨ c = '\'' then do
      let (chars, length) ← stringBody c 0 [] 1 rest
      return plain (.string (String.ofList chars)) length
    else if c.isDigit ∨ (c = '.' ∧ rest.head?.any Char.isDigit) then do
      let (value, length) ← number text
      return plain (.number value) length
    else if Text.isNameStart c then .ok (word text)
    else if c = '/' ∧ operand then regExp text
    else
      match Punctuator.scan? text with
      | some s => .ok ⟨.punctuator s.sign, s.op, s.chars.length⟩
      | none => .error (.illegalToken c)

/-! ### Between tokens -/

/-- A piece of text that stands between tokens. -/
inductive Gap where
  | blank
  | lineBreak (length : Nat)
  | comment (length : Nat)
  | unterminatedComment
  deriving DecidableEq, Repr

/-- Number of characters of a block comment up to its end, counted on from `length`. -/
def blockCommentEnd (length : Nat) : List Char → Option Nat
  | '*' :: '/' :: _ => some (length + 2)
  | _ :: rest => blockCommentEnd (length + 1) rest
  | [] => none

def gap? (text : List Char) : Option Gap :=
  match text with
  | [] => none
  | c :: rest =>
    if Text.isBlank c then some .blank
    else if Text.isLineBreak c then
      some (.lineBreak (if c = '\r' ∧ rest.head? = some '\n' then 2 else 1))
    else if c = '/' ∧ rest.head? = some '/' then
      some (.comment (text.takeWhile fun c => !Text.isLineBreak c).length)
    else if c = '/' ∧ rest.head? = some '*' then
      match blockCommentEnd 2 (rest.drop 1) with
      | some length => some (.comment length)
      | none => some .unterminatedComment
    else none

end Lexeme

end ScriptMin
