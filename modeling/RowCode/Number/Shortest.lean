import RowCode.Number.Binary

/-!
# Shortest digits

The fewest decimal digits that read back as a given floating-point number, and among those the
nearest to it. A grid is the set of multiples of a power of ten. Grids are tried from coarse to
fine, and the first one that has a neighbour of the number inside the interval of reals that round
to it holds the answer.
-/

namespace RowCode

/-- Where an exact tie between two neighbours goes. -/
inductive TieRule where
  | up
  | toEven

namespace BinaryFormat

/-- How far the reals that round to a number reach below and above it, in quarters of its last
place, and whether the two ends belong to them. -/
structure RoundingInterval where
  below : Nat
  above : Nat
  closed : Bool

/-- The interval of reals that round to `significand · 2 ^ exponent`: half a gap on either side,
where the gap below a power of two is half the one above; its ends belong to it if the significand
is even. -/
def roundingInterval (f : BinaryFormat) (significand : Nat) (exponent : Int) :
    RoundingInterval where
  below :=
    if significand = 2 ^ (f.precision - 1) ∧ f.minExponent < exponent then 1 else 2
  above := 2
  closed := significand % 2 = 0

/-- Whether a point at the given distance lies in the interval whose end is at `bound`. -/
def RoundingInterval.admits (interval : RoundingInterval) (distance bound : Nat) : Bool :=
  distance < bound || (interval.closed && distance = bound)

/-- The multiple of `10 ^ k` to print, if a neighbour of the number on that grid reads back. -/
def gridNeighbour (f : BinaryFormat) (tie : TieRule) (significand : Nat) (exponent k : Int) :
    Option Nat :=
  let interval := f.roundingInterval significand exponent
  let quarter := 2 ^ (exponent - 2).toNat * 10 ^ (-k).toNat
  let step := 2 ^ (2 - exponent).toNat * 10 ^ k.toNat
  let number := 4 * significand * quarter
  let floor := number / step
  let down := number - floor * step
  let up := (floor + 1) * step - number
  let downFits := interval.admits down (interval.below * quarter)
  let upFits := interval.admits up (interval.above * quarter)
  match downFits, upFits with
  | false, false => none
  | true, false => some floor
  | false, true => some (floor + 1)
  | true, true =>
    if down < up then some floor
    else if up < down then some (floor + 1)
    else match tie with
      | .up => some (floor + 1)
      | .toEven => some (if floor % 2 = 0 then floor else floor + 1)

/-- The first hit on the grids `10 ^ k`, `10 ^ (k - 1)`, …, with the exponent of its grid. -/
def firstNeighbour (f : BinaryFormat) (tie : TieRule) (significand : Nat) (exponent : Int) :
    Nat → Int → Nat × Int
  | 0, k => (0, k)
  | fuel + 1, k =>
    match f.gridNeighbour tie significand exponent k with
    | some n => (n, k)
    | none => firstNeighbour f tie significand exponent fuel (k - 1)

/-- A power of ten that exceeds `significand · 2 ^ exponent`, by at most three orders. -/
def decimalBound (significand : Nat) (exponent : Int) : Int :=
  (exponent + significand.log2 + 1) * 30103 / 100000 + 1

/-- Digits and exponent of the shortest decimal for a finite number that is not zero. -/
def shortest (f : BinaryFormat) (tie : TieRule) (significand : Nat) (exponent : Int) : Nat × Int :=
  f.firstNeighbour tie significand exponent 24 (decimalBound significand exponent)

end BinaryFormat

end RowCode
