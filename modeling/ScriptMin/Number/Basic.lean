/-!
Numbers of the script language: binary floating point with 53 significant bits.
Every finite number is a whole multiple of the least positive one, so all
arithmetic is exact arithmetic on natural numbers followed by one rounding.
-/

namespace ScriptMin

/-- Number of steps from a power of two to the next one: fifty-two bits of fraction. -/
abbrev Number.stepCount : Nat := 0x10000000000000

/-- A floating point number by the three fields of its encoding. -/
structure Number where
  negative : Bool
  exponent : Fin 2048
  fraction : Fin Number.stepCount
  deriving DecidableEq, Repr

namespace Number

abbrev signBit : Nat := 0x8000000000000000

/-- The number whose encoding without the sign bit is the given word; words from
the infinity on are cut off there. -/
def ofCode (negative : Bool) (code : Nat) : Number :=
  let code := min code (2047 * stepCount)
  { negative
    exponent := Fin.ofNat 2048 (code / stepCount)
    fraction := Fin.ofNat stepCount code }

def ofBits (bits : UInt64) : Number where
  negative := signBit ≤ bits.toNat
  exponent := Fin.ofNat 2048 (bits.toNat / stepCount)
  fraction := Fin.ofNat stepCount bits.toNat

def toBits (n : Number) : UInt64 :=
  UInt64.ofNat
    ((if n.negative then signBit else 0) + n.exponent.val * stepCount + n.fraction.val)

def zero : Number := ofCode false 0

def infinity (negative : Bool) : Number := ofCode negative (2047 * stepCount)

instance : Inhabited Number := ⟨zero⟩

def isFinite (n : Number) : Bool := n.exponent.val < 2047

def isNaN (n : Number) : Bool := n.exponent.val == 2047 && n.fraction.val != 0

def isZero (n : Number) : Bool := n.exponent.val == 0 && n.fraction.val == 0

/-- Number of fractional steps of the last place: the significand. -/
def significand (n : Number) : Nat :=
  if n.exponent.val = 0 then n.fraction.val else stepCount + n.fraction.val

/-- Value of the last place of the significand, counted in least positive numbers. -/
def lastPlace (n : Number) : Nat := Nat.pow 2 (n.exponent.val - 1)

/-- Magnitude of a finite number, counted in least positive numbers. -/
def units (n : Number) : Nat := n.significand * n.lastPlace

/-- How many least positive numbers make up one. -/
def unitsPerOne : Nat := Nat.pow 2 1074

/-- Quotient rounded to the nearest integer, a half to the even neighbour. -/
def roundQuotient (num den : Nat) : Nat :=
  let q := num / den
  let r := num % den
  if 2 * r > den ∨ (2 * r = den ∧ q % 2 = 1) then q + 1 else q

/-- The number nearest to `num / den` least positive numbers, a half to the even
neighbour. A significand that rounds up to a power of two carries into the
exponent, because both stand side by side in the encoding. -/
def ofUnits (negative : Bool) (num den : Nat) : Number :=
  let shift := (num / den).log2 - 52
  ofCode negative (shift * stepCount + roundQuotient num (den * Nat.pow 2 shift))

def ofNat (n : Nat) : Number := ofUnits false (n * unitsPerOne) 1

def ofInt (n : Int) : Number := ofUnits (decide (n < 0)) (n.natAbs * unitsPerOne) 1

/-- The number nearest to `digits * 10 ^ exponent`. Exponents that leave the range
of the format for certain are answered without computing the power. -/
def ofDecimal (digits : Nat) (exponent : Int) : Number :=
  if digits = 0 then zero
  else if exponent > 310 then infinity false
  else if exponent + digits.log2 < -1100 then zero
  else
    ofUnits false (digits * Nat.pow 10 exponent.toNat * unitsPerOne)
      (Nat.pow 10 (-exponent).toNat)

def neg (n : Number) : Number := { n with negative := !n.negative }

/-- Signed magnitude of a finite number, counted in least positive numbers. -/
def signedUnits (n : Number) : Int := if n.negative then -n.units else n.units

/-- Equality of values: the two zeros are equal, and nothing equals an undefined
number. -/
def eqv (a b : Number) : Bool :=
  !a.isNaN && !b.isNaN && (a == b || (a.isZero && b.isZero))

def isBelowZero (n : Number) : Bool := n.negative && !n.isZero && !n.isNaN

def undefined : Number := { negative := false, exponent := 2047, fraction := 0x8000000000000 }

/-- Sum of two numbers. A sum of zero is negative only if both parts are. -/
def add (a b : Number) : Number :=
  if a.isFinite && b.isFinite then
    let sum := a.signedUnits + b.signedUnits
    let negative := if sum = 0 then a.negative && b.negative else decide (sum < 0)
    ofUnits negative sum.natAbs 1
  else if a.isNaN || b.isNaN then undefined
  else if a.isFinite then b
  else if b.isFinite || a == b then a
  else undefined

def sub (a b : Number) : Number := a.add b.neg

def mul (a b : Number) : Number :=
  if a.isFinite && b.isFinite then
    ofUnits (a.negative != b.negative) (a.units * b.units) unitsPerOne
  else if a.isNaN || b.isNaN || a.isZero || b.isZero then undefined
  else infinity (a.negative != b.negative)

def div (a b : Number) : Number :=
  let negative := a.negative != b.negative
  if a.isNaN || b.isNaN then undefined
  else if a.isFinite && b.isFinite then
    if !b.isZero then ofUnits negative (a.units * unitsPerOne) b.units
    else if a.isZero then undefined
    else infinity negative
  else if a.isFinite then ofCode negative 0
  else if b.isFinite then infinity negative
  else undefined

/-- Remainder of two numbers: it has the sign of the dividend and is exact. -/
def rem (a b : Number) : Number :=
  if !a.isFinite || b.isNaN || b.isZero then undefined
  else if b.isFinite then ofUnits a.negative (a.units % b.units) 1
  else a

end Number

end ScriptMin
