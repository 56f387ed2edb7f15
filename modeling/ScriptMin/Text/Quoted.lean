/-!
String literals of the script language: a text between quotes, with escapes for
what may not stand there.
-/

namespace ScriptMin.Text

/-- Lower case hexadecimal text of a number, filled up with zeros to a width. -/
def hexText (width n : Nat) : List Char :=
  let digits := Nat.toDigits 16 n
  List.replicate (width - digits.length) '0' ++ digits

/-- The sixteen bit units of a character: a pair of surrogates beyond U+FFFF. -/
def utf16Units (c : Char) : List Nat :=
  let code := c.toNat
  if code < 0x10000 then [code]
  else [0xd800 + (code - 0x10000) / 0x400, 0xdc00 + (code - 0x10000) % 0x400]

def codeEscape (c : Char) : List Char :=
  if c.toNat ≤ 0xff then '\\' :: 'x' :: hexText 2 c.toNat
  else (utf16Units c).flatMap fun unit => '\\' :: 'u' :: hexText 4 unit

def letterEscape? : Char → Option Char
  | '\\' => some '\\'
  | '\n' => some 'n'
  | '\r' => some 'r'
  | '\t' => some 't'
  | '\x08' => some 'b'
  | '\x0c' => some 'f'
  | _ => none

/-- Whether a character is written by its code: control characters, the two line
separators and everything from the threshold on. -/
def needsCode (threshold : Nat) (c : Char) : Bool :=
  c.toNat < 0x20 || c == '\u2028' || c == '\u2029' || c.toNat ≥ threshold

def quotedChar (quote : Char) (threshold : Nat) (c : Char) : List Char :=
  match letterEscape? c with
  | some letter => ['\\', letter]
  | none =>
    if c = quote then ['\\', c]
    else if needsCode threshold c then codeEscape c
    else [c]

/-- The quote that occurs less often in a text, double quotes on a tie. -/
def chooseQuote (text : List Char) : Char :=
  if text.count '"' > text.count '\'' then '\'' else '"'

def quote (threshold : Nat) (text : String) : String :=
  let chars := text.toList
  let mark := chooseQuote chars
  String.ofList (mark :: chars.flatMap (quotedChar mark threshold) ++ [mark])

end ScriptMin.Text
