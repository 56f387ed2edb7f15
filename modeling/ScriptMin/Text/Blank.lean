/-!
White space: the Unicode property White_Space, which is trimmed off names and
comments, and the narrower classes that the scanner skips.
-/

namespace ScriptMin.Text

def isWhiteSpace (c : Char) : Bool :=
  let n := c.toNat
  (0x9 ≤ n && n ≤ 0xd) || n == 0x20 || n == 0x85 || n == 0xa0 || n == 0x1680 ||
    (0x2000 ≤ n && n ≤ 0x200a) || n == 0x2028 || n == 0x2029 || n == 0x202f ||
    n == 0x205f || n == 0x3000

def trimChars (text : List Char) : List Char :=
  ((text.dropWhile isWhiteSpace).reverse.dropWhile isWhiteSpace).reverse

def trim (text : String) : String := String.ofList (trimChars text.toList)

def isLineBreak (c : Char) : Bool :=
  c == '\n' || c == '\r' || c == '\u2028' || c == '\u2029'

/-- Whether the scanner skips a character between tokens without leaving the line. -/
def isBlank (c : Char) : Bool :=
  c == ' ' || c == '\t' || c == '\x0b' || c == '\x0c' || c == '\u00a0' || c == '\ufeff'

/-- Whether a character, followed by the given rest, completes a line break. A
carriage return before a line feed does not: the pair counts once. -/
def completesLine (c : Char) (rest : List Char) : Bool :=
  isLineBreak c && !(c == '\r' && rest.head? == some '\n')

/-- The number of the line behind one. Line numbers have 32 bits. -/
def nextLine (line : Nat) : Nat := (line + 1) % 0x100000000

def lineBreaks : List Char → Nat
  | [] => 0
  | c :: rest => lineBreaks rest + if completesLine c rest then 1 else 0

end ScriptMin.Text
