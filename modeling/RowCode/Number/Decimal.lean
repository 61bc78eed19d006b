import RowCode.Number.Digits

/-!
# Decimals

Decimal numbers of at most 34 digits. The exponent is part of the number, so `1.5` and `1.50`
differ. A number that needs more digits is rounded half even, one that is too large becomes an
infinity, and one whose exponent is too large keeps its value by taking zeros into its coefficient.
-/

namespace RowCode

namespace Decimal

def precision : Nat := 34

def minExponent : Int := -6176

def maxExponent : Int := 6111

def Representable (coefficient : Nat) (exponent : Int) : Prop :=
  coefficient < 10 ^ precision ∧ minExponent ≤ exponent ∧ exponent ≤ maxExponent

instance (coefficient : Nat) (exponent : Int) : Decidable (Representable coefficient exponent) :=
  inferInstanceAs (Decidable (_ ∧ _ ∧ _))

end Decimal

/-- A finite decimal is `± coefficient · 10 ^ exponent`. -/
inductive Decimal where
  | finite (negative : Bool) (coefficient : Nat) (exponent : Int)
      (representable : Decimal.Representable coefficient exponent)
  | infinite (negative : Bool)
  | nan (negative signaling : Bool) (payload : Nat)
      (payload_lt : payload < 10 ^ (Decimal.precision - 1))
  deriving DecidableEq

namespace Decimal

/-- The least exponent at which `coefficient · 10 ^ exponent` can be held, rounding if need be. -/
def quantum (coefficient : Nat) (exponent : Int) : Int :=
  max (max exponent (exponent + (decimalDigits coefficient).length - precision)) minExponent

/-- `coefficient / 10 ^ dropped` rounded half even. -/
def dropDigits (coefficient dropped : Nat) : Nat :=
  if (decimalDigits coefficient).length < dropped then 0
  else roundQuotient coefficient (10 ^ dropped)

/-- Brings an exponent that is too large into range by appending zeros to the coefficient. -/
def clamp (negative : Bool) (coefficient : Nat) (exponent : Int) : Decimal :=
  let excess := (exponent - maxExponent).toNat
  let padded :=
    if coefficient = 0 ∨ excess = 0 then coefficient
    else coefficient * 10 ^ min excess precision
  if h : Representable padded (min exponent maxExponent) then
    .finite negative padded (min exponent maxExponent) h
  else
    .infinite negative

def ofScaled (negative : Bool) (coefficient : Nat) (exponent : Int) : Decimal :=
  let target := quantum coefficient exponent
  let rounded := dropDigits coefficient (target - exponent).toNat
  if rounded = 10 ^ precision then
    clamp negative (10 ^ (precision - 1)) (target + 1)
  else
    clamp negative rounded target

end Decimal

end RowCode
