import ScriptMin.Data.Value
import ScriptMin.Data.Written

/-!
What written data values stand for. Fields stay in the order of the text.
-/

namespace ScriptMin

/-! ### Numbers -/

namespace Numeral

def significandLimit : Nat := 0xffffffffffffffff

/-- Magnitude of the least whole number that is kept exactly. -/
def negativeLimit : Nat := 0x8000000000000000

/-- Appends digits to a significand as long as it stays below the limit. -/
def appendDigits (significand : Nat) : List Char → Nat × List Char
  | [] => (significand, [])
  | d :: rest =>
    let next := significand * 10 + (d.toNat - '0'.toNat)
    if next ≤ significandLimit then appendDigits next rest else (significand, d :: rest)

/-- A significand times a power of ten. The significand is rounded first, then the
product; powers out of range are applied in two steps. -/
def scale (significand : Number) (exponent : Int) : Nat → Option Number
  | 0 => none
  | fuel + 1 =>
    if exponent.natAbs ≤ 308 then
      let power := Number.ofDecimal 1 exponent.natAbs
      if exponent < 0 then some (significand.div power)
      else
        let product := significand.mul power
        if product.isFinite then some product else none
    else if significand.isZero then some significand
    else if exponent ≥ 0 then none
    else scale (significand.div (.ofDecimal 1 308)) (exponent + 308) fuel

/-- The number that is written. Whole numbers of at most 64 bits are kept exactly, and
numbers that are too great are none. -/
def value? (n : Numeral) : Option Data := do
  let (significand, dropped) := appendDigits 0 n.whole
  let isWhole := n.fraction.isNone && n.exponent.isNone && dropped.isEmpty
  if isWhole ∧ ¬ n.negative then return .int significand
  if isWhole ∧ 0 < significand ∧ significand ≤ negativeLimit then return .int (-significand)
  let fraction := n.fraction.getD []
  let (significand, ignored) := appendDigits significand fraction
  let places : Int := dropped.length - (fraction.length - ignored.length : Nat)
  let value ← scale (.ofNat significand) (places + n.exponent.getD 0) 4
  return .float (if n.negative then value.neg else value)

end Numeral

/-! ### Strings -/

namespace Mark

/-- Whether a unit is the first half of a pair. -/
def isHigh (code : Nat) : Bool := 0xd800 ≤ code && code < 0xdc00

/-- Whether a unit is the second half of a pair. -/
def isLow (code : Nat) : Bool := 0xdc00 ≤ code && code < 0xe000

/-- The character that two units make up. -/
def pair (high low : Nat) : Char :=
  Char.ofNat (0x10000 + (high - 0xd800) * 0x400 + (low - 0xdc00))

/-- The characters that are written, behind those that are known already. Half a pair is
no character. -/
def decodeOnto (acc : List Char) : List Mark → Option (List Char)
  | [] => some acc.reverse
  | .char c :: rest => decodeOnto (c :: acc) rest
  | .unit code :: rest =>
    if isHigh code then
      match rest with
      | .unit low :: rest => if isLow low then decodeOnto (pair code low :: acc) rest else none
      | _ => none
    else if isLow code then none
    else decodeOnto (Char.ofNat code :: acc) rest

def decode? (marks : List Mark) : Option String := (decodeOnto [] marks).map String.ofList

end Mark

/-! ### Values -/

namespace Written

mutual
def value? : Written → Option Data
  | null => some .null
  | bool value => some (.bool value)
  | numeral n => n.value?
  | string marks => (Mark.decode? marks).map .string
  | array items => (values? items).map .array
  | object fields => (fields? fields).map .object

def values? : List Written → Option (List Data)
  | [] => some []
  | item :: rest => do return (← value? item) :: (← values? rest)

def fields? : List (List Mark × Written) → Option (List (String × Data))
  | [] => some []
  | (name, value) :: rest => do return (← Mark.decode? name, ← value? value) :: (← fields? rest)
end

end Written

def Data.ofText? (source : String) : Option Data := (Written.ofText? source).bind Written.value?

end ScriptMin
