/-!
Short texts for numbers: generated names, and numerals with letters as digits.
-/

namespace ScriptMin.Text

def letters : List Char := "abcdefghijklmnopqrstuvwxyzABCDEFGHIJKLMNOPQRSTUVWXYZ".toList

def compactDigits : List Char := "0123456789".toList ++ letters

/-- The length of the name with an index and the place of the name among those of this length.
The names of each length are passed over as a whole; there are 52 times as many of them as of
the length before. -/
def sizeClass (index count length : Nat) : Nat × Nat :=
  if 0 < count ∧ count ≤ index then sizeClass (index - count) (count * 52) (length + 1)
  else (length, index)
termination_by index

/-- The letters of a number, the least significant one first. -/
def nameDigits : Nat → Nat → List Char
  | 0, _ => []
  | length + 1, index => letters[index % 52]?.getD 'a' :: nameDigits length (index / 52)

/-- Characters of the generated name with an index. After the last name of a length
comes the first one of the next length, and the first letter changes fastest. -/
def nameChars (index : Nat) : List Char :=
  let size := sizeClass index letters.length 1
  nameDigits size.1 size.2

def shortName (index : Nat) : String := String.ofList (nameChars index)

/-- Digits of a number, the least significant one first; zero has none. -/
def compactChars (value : Nat) : List Char :=
  if value = 0 then []
  else compactDigits[value % 62]?.getD '0' :: compactChars (value / 62)
termination_by value

def compactNumeral (value : Nat) : String :=
  if value = 0 then "0" else String.ofList (compactChars value).reverse

end ScriptMin.Text
