import ScriptMin.Token.Lexeme

/-!
Data values as they are written. The written form of a value says which text stands
there, not what it stands for: a number may be too great, and an escape may name half of
a character. Only who needs the value has to reject such a text.
-/

namespace ScriptMin

structure Numeral where
  negative : Bool
  /-- Digits before the point. -/
  whole : List Char
  /-- Digits behind the point, if it has one. -/
  fraction : Option (List Char)
  exponent : Option Int
  deriving DecidableEq, Repr

/-- A part of a string as it is written. -/
inductive Mark where
  | char (c : Char)
  /-- An escape with the code of a sixteen bit unit. -/
  | unit (code : Nat)
  deriving DecidableEq, Repr

/-- A data value as it is written. Fields stay in the order of the text. -/
inductive Written where
  | null
  | bool (value : Bool)
  | numeral (n : Numeral)
  | string (marks : List Mark)
  | array (items : List Written)
  | object (fields : List (List Mark × Written))
  deriving Repr

namespace Written

open ScriptMin.Lexeme (digitRun exponentPart hexCode?)

def skipBlanks (text : List Char) : List Char :=
  text.dropWhile fun c => c == ' ' || c == '\n' || c == '\t' || c == '\r'

/-- Reads a number. A zero has no digits behind it, and neither a point nor the mark of
an exponent stands alone. -/
def readNumeral (text : List Char) : Option (Numeral × List Char) := do
  let negative := text.head? = some '-'
  let text := if negative then text.drop 1 else text
  let whole := digitRun text
  guard (!whole.isEmpty)
  guard (whole.length = 1 ∨ whole.head? ≠ some '0')
  let text := text.drop whole.length
  let hasPoint := text.head? = some '.'
  let fraction := if hasPoint then digitRun (text.drop 1) else []
  guard (hasPoint → !fraction.isEmpty)
  let text := if hasPoint then text.drop (1 + fraction.length) else text
  let hasExponent := text.head? = some 'e' ∨ text.head? = some 'E'
  let (exponentLength, exponent) := exponentPart text
  guard (hasExponent → exponentLength ≠ 0)
  let numeral : Numeral := {
    negative
    whole
    fraction := if hasPoint then some fraction else none
    exponent := if hasExponent then some exponent else none }
  return (numeral, text.drop exponentLength)

/-- What an escape is and how many characters follow the backslash. -/
def readEscape (letter : Char) (rest : List Char) : Option (Mark × Nat) :=
  match letter with
  | '"' => some (.char '"', 1)
  | '\\' => some (.char '\\', 1)
  | '/' => some (.char '/', 1)
  | 'b' => some (.char '\x08', 1)
  | 'f' => some (.char '\x0c', 1)
  | 'n' => some (.char '\n', 1)
  | 'r' => some (.char '\r', 1)
  | 't' => some (.char '\t', 1)
  | 'u' => (hexCode? 4 rest).map fun code => (.unit code, 5)
  | _ => none

/-- Reads a string up to its closing quote. Characters of an escape that are still to be
passed over are counted by `skip`. -/
def readString : (skip : Nat) → (acc : List Mark) → List Char → Option (List Mark × List Char)
  | _, _, [] => none
  | skip + 1, acc, _ :: rest => readString skip acc rest
  | 0, acc, c :: rest =>
    if c = '"' then some (acc.reverse, rest)
    else if c = '\\' then
      match rest with
      | [] => none
      | letter :: after =>
        match readEscape letter after with
        | some (mark, count) => readString count (mark :: acc) rest
        | none => none
    else if c.toNat < 0x20 then none
    else readString 0 (.char c :: acc) rest

def readWord (word : String) (value : Written) (text : List Char) :
    Option (Written × List Char) :=
  if word.toList.isPrefixOf text then some (value, text.drop word.length) else none

mutual
def readValue : Nat → List Char → Option (Written × List Char)
  | 0, _ => none
  | fuel + 1, text =>
    let text := skipBlanks text
    match text with
    | '[' :: rest =>
      match skipBlanks rest with
      | ']' :: rest => some (array [], rest)
      | rest => (readItems fuel [] rest).map fun (items, rest) => (array items, rest)
    | '\x7b' :: rest =>
      match skipBlanks rest with
      | '\x7d' :: rest => some (object [], rest)
      | rest => (readFields fuel [] rest).map fun (fields, rest) => (object fields, rest)
    | '"' :: rest => (readString 0 [] rest).map fun (marks, rest) => (string marks, rest)
    | 'n' :: _ => readWord "null" null text
    | 't' :: _ => readWord "true" (bool true) text
    | 'f' :: _ => readWord "false" (bool false) text
    | _ => (readNumeral text).map fun (n, rest) => (numeral n, rest)

def readItems : Nat → List Written → List Char → Option (List Written × List Char)
  | 0, _, _ => none
  | fuel + 1, items, text =>
    match readValue fuel text with
    | none => none
    | some (item, rest) =>
      match skipBlanks rest with
      | ',' :: rest => readItems fuel (item :: items) rest
      | ']' :: rest => some ((item :: items).reverse, rest)
      | _ => none

def readFields : Nat → List (List Mark × Written) → List Char →
    Option (List (List Mark × Written) × List Char)
  | 0, _, _ => none
  | fuel + 1, fields, text =>
    match skipBlanks text with
    | '"' :: rest =>
      match readString 0 [] rest with
      | none => none
      | some (name, rest) =>
        match skipBlanks rest with
        | ':' :: rest =>
          match readValue fuel rest with
          | none => none
          | some (value, rest) =>
            match skipBlanks rest with
            | ',' :: rest => readFields fuel ((name, value) :: fields) rest
            | '\x7d' :: rest => some (((name, value) :: fields).reverse, rest)
            | _ => none
        | _ => none
    | _ => none
end

def ofText? (source : String) : Option Written :=
  let text := source.toList
  match readValue (2 * text.length + 2) text with
  | some (value, rest) => if (skipBlanks rest).isEmpty then some value else none
  | none => none

end Written

end ScriptMin
