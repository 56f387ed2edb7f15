import ScriptMin.Number.Shortest

/-!
Three written forms of a number: the shortest literal of the script language, the
plain form of messages, which never has an exponent, and the form of data values,
which switches to an exponent outside a fixed range.
-/

namespace ScriptMin

/-- A decimal as the text of its digits and the position of its point:
`0.digits * 10 ^ point`. -/
structure DigitText where
  digits : List Char
  point : Int
  deriving DecidableEq, Repr

def Decimal.text (d : Decimal) : DigitText :=
  let digits := Nat.toDigits 10 d.digits
  ⟨digits, digits.length + d.exponent⟩

def integerText (n : Int) : List Char :=
  if n < 0 then '-' :: Nat.toDigits 10 n.natAbs else Nat.toDigits 10 n.natAbs

namespace DigitText

def zeros (n : Int) : List Char := List.replicate n.toNat '0'

/-- Positional form without a leading zero: `.05`, `1.5`, `1500`. -/
def positional (t : DigitText) : List Char :=
  if t.point ≤ 0 then '.' :: zeros (-t.point) ++ t.digits
  else if t.point < t.digits.length then
    t.digits.take t.point.toNat ++ '.' :: t.digits.drop t.point.toNat
  else t.digits ++ zeros (t.point - t.digits.length)

def wholeMantissa (t : DigitText) : List Char :=
  t.digits ++ 'e' :: integerText (t.point - t.digits.length)

/-- Mantissa with one digit before the point and an exponent: `1.5e-7`. A single
digit has no such form. -/
def pointedMantissa? (t : DigitText) : Option (List Char) :=
  match t.digits with
  | first :: rest@(_ :: _) => some (first :: '.' :: rest ++ 'e' :: integerText (t.point - 1))
  | _ => none

def shorter (first second : List Char) : List Char :=
  if second.length < first.length then second else first

/-- The shortest of the three forms, the earlier one among equally long ones. -/
def compact (t : DigitText) : List Char :=
  let best := shorter t.positional t.wholeMantissa
  match t.pointedMantissa? with
  | some text => shorter best text
  | none => best

/-- Positional form with a digit before the point: `0.05`, `1.5`, `1500`. -/
def plain (t : DigitText) : List Char :=
  if t.point ≤ 0 then '0' :: t.positional else t.positional

/-- Form of data values: positional with a point for points from -4 to 16, and a
mantissa with a signed exponent otherwise. -/
def dataValue (t : DigitText) : List Char :=
  if -4 ≤ t.point ∧ t.point ≤ 16 then
    if t.point ≥ t.digits.length then t.plain ++ ['.', '0'] else t.plain
  else
    let exponent := t.point - 1
    let mark := if exponent < 0 then integerText exponent else '+' :: integerText exponent
    match t.digits with
    | first :: rest@(_ :: _) => first :: '.' :: rest ++ 'e' :: mark
    | digits => digits ++ 'e' :: mark

end DigitText

namespace Number

def signed (negative : Bool) (text : List Char) : List Char :=
  if negative then '-' :: text else text

/-- Shortest literal text. Both zeros are written `0`. -/
def literal (n : Number) : String :=
  String.ofList <|
    if n.isZero then ['0']
    else if n.isNaN then "NaN".toList
    else if n.isFinite then signed n.negative (n.shortest .even).text.compact
    else signed n.negative "Infinity".toList

def plainText (n : Number) : String :=
  String.ofList <|
    if n.isNaN then "NaN".toList
    else if n.isZero then signed n.negative ['0']
    else if n.isFinite then signed n.negative (n.shortest .up).text.plain
    else signed n.negative "inf".toList

/-- Text as a data value. Data values are finite. -/
def dataText (n : Number) : String :=
  String.ofList <|
    if n.isZero then signed n.negative ['0', '.', '0']
    else signed n.negative (n.shortest .even).text.dataValue

end Number

end ScriptMin
