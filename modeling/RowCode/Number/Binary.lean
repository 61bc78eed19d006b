import RowCode.Number.Digits

/-!
# Binary floating point

Floating-point numbers are kept as their bits. What they denote, how they compare and how a
quotient is rounded to one is computed on integers, the same for both widths.
-/

namespace RowCode

/-- A binary interchange format: the bits of a significand, its leading one included, and the bits
of an exponent. -/
structure BinaryFormat where
  precision : Nat
  exponentBits : Nat

namespace BinaryFormat

def single : BinaryFormat := ⟨24, 8⟩

def double : BinaryFormat := ⟨53, 11⟩

variable (f : BinaryFormat)

/-- The weight of the least significant bit of the smallest numbers, as a power of two. -/
def minExponent : Int := 3 - 2 ^ (f.exponentBits - 1) - f.precision

/-- The bits of infinity; every number of larger magnitude bits is not a number. -/
def infinityBits : Nat := (2 ^ f.exponentBits - 1) * 2 ^ (f.precision - 1)

def signBit : Nat := 2 ^ (f.precision - 1 + f.exponentBits)

end BinaryFormat

/-- What the bits of a floating-point number denote: a finite one is
`± significand · 2 ^ exponent`. -/
inductive Magnitude where
  | finite (significand : Nat) (exponent : Int)
  | infinite
  | nan
  deriving DecidableEq, Repr

namespace BinaryFormat

variable (f : BinaryFormat)

def magnitude (bits : Nat) : Magnitude :=
  let hidden := 2 ^ (f.precision - 1)
  let fraction := bits % hidden
  let biased := bits / hidden
  if bits = f.infinityBits then .infinite
  else if f.infinityBits < bits then .nan
  else if biased = 0 then .finite fraction f.minExponent
  else .finite (hidden + fraction) (f.minExponent + (biased - 1))

/-- The exponent at which `num / den` has a significand of full precision, or the least one. -/
def roundingExponent (num den : Nat) : Int :=
  let estimate : Int := num.log2 - den.log2 - f.precision
  let fits (e : Int) : Bool := num * 2 ^ (-e).toNat < 2 ^ f.precision * (den * 2 ^ e.toNat)
  max (if fits estimate then estimate else estimate + 1) f.minExponent

/-- The bits of the number nearest to `num / den`, ties to even; infinity if that is too large. -/
def ofQuotient (num den : Nat) : Nat :=
  if num = 0 then 0
  else
    let e := f.roundingExponent num den
    let significand := roundQuotient (num * 2 ^ (-e).toNat) (den * 2 ^ e.toNat)
    let bits := significand + (e - f.minExponent).toNat * 2 ^ (f.precision - 1)
    min bits f.infinityBits

end BinaryFormat

structure Single where
  bits : UInt32
  deriving DecidableEq, Repr

structure Double where
  bits : UInt64
  deriving DecidableEq, Repr

namespace Single

def format : BinaryFormat := .single

def negative (x : Single) : Bool := format.signBit ≤ x.bits.toNat

def magnitude (x : Single) : Magnitude := format.magnitude (x.bits.toNat % format.signBit)

/-- Equality of what is denoted: the zeros agree, and what is not a number agrees with nothing. -/
def agrees (x y : Single) : Bool :=
  x.magnitude ≠ .nan ∧
    (x = y ∨ x.magnitude = .finite 0 format.minExponent ∧ x.magnitude = y.magnitude)

def ofMagnitude (negative : Bool) (bits : Nat) : Single :=
  ⟨UInt32.ofNat ((if negative then format.signBit else 0) + bits)⟩

end Single

namespace Double

def format : BinaryFormat := .double

def negative (x : Double) : Bool := format.signBit ≤ x.bits.toNat

def magnitude (x : Double) : Magnitude := format.magnitude (x.bits.toNat % format.signBit)

def agrees (x y : Double) : Bool :=
  x.magnitude ≠ .nan ∧
    (x = y ∨ x.magnitude = .finite 0 format.minExponent ∧ x.magnitude = y.magnitude)

def ofMagnitude (negative : Bool) (bits : Nat) : Double :=
  ⟨UInt64.ofNat ((if negative then format.signBit else 0) + bits)⟩

def toSingle (x : Double) : Single :=
  match x.magnitude with
  | .finite significand exponent =>
    .ofMagnitude x.negative
      (Single.format.ofQuotient (significand * 2 ^ exponent.toNat) (2 ^ (-exponent).toNat))
  | .infinite => .ofMagnitude x.negative Single.format.infinityBits
  | .nan => .ofMagnitude x.negative (Single.format.infinityBits + 2 ^ (Single.format.precision - 2))

end Double

end RowCode
