import ScriptMin.Number.Basic

/-!
The shortest decimal that reads back as a given number. The reals that round to a
number form an interval around it, and the coarsest decimal grid with a point in
that interval gives the fewest digits; among such points the one nearest to the
number is taken.
-/

namespace ScriptMin

/-- The decimal `digits * 10 ^ exponent`. -/
structure Decimal where
  digits : Nat
  exponent : Int
  deriving DecidableEq, Repr

/-- Which of two equally near grid points is taken. -/
inductive Tie where
  | even
  | up
  deriving DecidableEq, Repr

namespace Number

/-- The reals that round to a number, as quarters of the least positive number:
the number itself, the two ends, and whether the ends belong to it. Below a power
of two the numbers lie twice as dense. -/
structure Interval where
  middle : Nat
  low : Nat
  high : Nat
  closed : Bool
  deriving DecidableEq, Repr

def interval (n : Number) : Interval :=
  let middle := 4 * n.units
  let below := if n.fraction.val = 0 ∧ 1 < n.exponent.val then n.lastPlace else 2 * n.lastPlace
  { middle
    low := middle - below
    high := middle + 2 * n.lastPlace
    closed := n.significand % 2 = 0 }

/-- Size of a decimal grid step as a fraction of quarters of the least positive
number. -/
def gridStep (exponent : Int) : Nat × Nat :=
  (4 * unitsPerOne * Nat.pow 10 exponent.toNat, Nat.pow 10 (-exponent).toNat)

def Interval.contains (i : Interval) (step scale count : Nat) : Bool :=
  let point := count * step
  if i.closed then i.low * scale ≤ point ∧ point ≤ i.high * scale
  else i.low * scale < point ∧ point < i.high * scale

/-- The point of a decimal grid that lies in the interval and is nearest to its
number, if the grid has one there. Only the two neighbours of the number can be. -/
def Interval.pick (i : Interval) (tie : Tie) (exponent : Int) : Option Decimal :=
  let (step, scale) := gridStep exponent
  let lower := i.middle * scale / step
  let upper := lower + 1
  let rest := i.middle * scale - lower * step
  let takeLower :=
    2 * rest < step ∨ (2 * rest = step ∧ tie = .even ∧ lower % 2 = 0)
  match i.contains step scale lower && lower != 0, i.contains step scale upper with
  | true, true => some ⟨if takeLower then lower else upper, exponent⟩
  | true, false => some ⟨lower, exponent⟩
  | false, true => some ⟨upper, exponent⟩
  | false, false => none

/-- Exponent of a power of ten above the magnitude, by a few places at most. A binary
digit is worth about 0.30103 decimal ones. -/
def exponentBound (n : Number) : Int := ((n.units.log2 : Int) - 1073) * 30103 / 100000 + 2

def searchGrids (i : Interval) (tie : Tie) (exponent : Int) : Nat → Option Decimal
  | 0 => none
  | fuel + 1 => i.pick tie exponent <|> searchGrids i tie (exponent - 1) fuel

/-- The shortest decimal that rounds to the magnitude of a finite number that is
not zero. Seventeen digits always suffice, and the search starts a few places above
them. -/
def shortest (tie : Tie) (n : Number) : Decimal :=
  (searchGrids n.interval tie n.exponentBound 22).getD ⟨n.units, 0⟩

end Number

end ScriptMin
