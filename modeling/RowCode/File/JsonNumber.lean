import RowCode.Number.Binary

/-!
# Numbers in JSON

The grammar of numbers, and what a number is as an integer or in floating point. Digits are taken
into a 64-bit significand as long as they fit; those that do not fit are dropped, and count for the
exponent if they stand before the point. The significand is then scaled by at most a few
multiplications or divisions, each of them rounded.
-/

namespace RowCode

structure JsonNumber where
  negative : Bool
  whole : List Char
  fraction : Option (List Char)
  /-- The sign and digits of an exponent, if there is one. -/
  exponent : Option (Bool × List Char)
  deriving DecidableEq, Repr

namespace JsonNumber

/-- The greatest number of so many bits. -/
def unsignedMax (bits : Nat) : Nat := 2 ^ bits - 1

/-- The greatest number of so many bits, one of them for the sign. -/
def signedMax (bits : Nat) : Nat := 2 ^ (bits - 1) - 1

def isDigit (b : UInt8) : Bool := '0'.toUInt8 ≤ b && b ≤ '9'.toUInt8

def splitDigits : List UInt8 → List Char × List UInt8
  | [] => ([], [])
  | b :: rest =>
    if isDigit b then
      let (digits, rest) := splitDigits rest
      (Char.ofUInt8 b :: digits, rest)
    else ([], b :: rest)

def readWhole? (bytes : List UInt8) : Option (List Char × List UInt8) :=
  let (digits, rest) := splitDigits bytes
  match digits with
  | [] => none
  | ['0'] => some (digits, rest)
  | '0' :: _ => none
  | _ => some (digits, rest)

def readFraction? : List UInt8 → Option (Option (List Char) × List UInt8)
  | [] => some (none, [])
  | b :: rest =>
    if b = '.'.toUInt8 then
      let (digits, rest) := splitDigits rest
      if digits = [] then none else some (some digits, rest)
    else some (none, b :: rest)

/-- A sign that may be absent: whether it is a minus, and the rest. -/
def splitSign : List UInt8 → Bool × List UInt8
  | [] => (false, [])
  | b :: rest =>
    if b = '+'.toUInt8 then (false, rest)
    else if b = '-'.toUInt8 then (true, rest)
    else (false, b :: rest)

def readExponent? : List UInt8 → Option (Option (Bool × List Char) × List UInt8)
  | [] => some (none, [])
  | b :: rest =>
    if b = 'e'.toUInt8 || b = 'E'.toUInt8 then
      let (negative, rest) := splitSign rest
      let (digits, rest) := splitDigits rest
      if digits = [] then none else some (some (negative, digits), rest)
    else some (none, b :: rest)

def read? (bytes : List UInt8) : Option (JsonNumber × List UInt8) := do
  let (negative, rest) :=
    match bytes with
    | [] => (false, [])
    | b :: rest => if b = '-'.toUInt8 then (true, rest) else (false, b :: rest)
  let (whole, rest) ← readWhole? rest
  let (fraction, rest) ← readFraction? rest
  let (exponent, rest) ← readExponent? rest
  pure (⟨negative, whole, fraction, exponent⟩, rest)

/-- The integer that is written, unless it has a fraction or an exponent, is a negative zero, or
needs more than 64 bits: without a sign it may use all of them, with a sign it is a signed one. -/
def integer? (n : JsonNumber) : Option Int :=
  let magnitude := digitsValue n.whole
  if n.fraction.isSome || n.exponent.isSome then none
  else if n.negative then
    if magnitude ≠ 0 ∧ magnitude ≤ signedMax 64 + 1 then some (-(magnitude : Int)) else none
  else if magnitude ≤ unsignedMax 64 then some magnitude
  else none

/-- Takes digits into a significand until one does not fit 64 bits. Gives the significand and the
digits that were left. -/
def accumulate (significand : Nat) : List Char → Nat × List Char
  | [] => (significand, [])
  | d :: rest =>
    let next := 10 * significand + digitsValue [d]
    if next ≤ unsignedMax 64 then accumulate next rest else (significand, d :: rest)

def scaled (n : JsonNumber) : Nat × Int :=
  let (significand, left) := accumulate 0 n.whole
  match n.fraction with
  | none => (significand, left.length)
  | some fraction =>
    let (significand, dropped) := accumulate significand fraction
    (significand, (left.length : Int) - (fraction.length - dropped.length : Nat))

def exponentLimit : Nat := signedMax 32

/-- The exponents outside 32 bits become the least or the greatest of them. -/
def saturate (e : Int) : Int := max (-(exponentLimit : Int) - 1) (min e exponentLimit)

def timesPowerOfTen (bits e : Nat) : Option Nat :=
  let power := Double.format.ofQuotient (10 ^ e) 1
  match Double.format.magnitude bits, Double.format.magnitude power with
  | .finite m q, .finite n r =>
    let exponent := q + r
    some (Double.format.ofQuotient (m * n * 2 ^ exponent.toNat) (2 ^ (-exponent).toNat))
  | _, _ => none

def overPowerOfTen (bits e : Nat) : Option Nat :=
  let power := Double.format.ofQuotient (10 ^ e) 1
  match Double.format.magnitude bits, Double.format.magnitude power with
  | .finite m q, .finite n r =>
    let exponent := q - r
    some (Double.format.ofQuotient (m * 2 ^ exponent.toNat) (n * 2 ^ (-exponent).toNat))
  | _, _ => none

/-- Divides by `10 ^ 308` until the exponent is in reach of one more step, or nothing is left. -/
def scaleDown : (fuel bits exponent : Nat) → Option Nat
  | 0, _, _ => some 0
  | fuel + 1, bits, exponent =>
    if exponent ≤ 308 then overPowerOfTen bits exponent
    else if bits = 0 then some 0
    else (overPowerOfTen bits 308).bind fun bits => scaleDown fuel bits (exponent - 308)

/-- Bits of the number nearest, up to the rounding of each step, to `significand · 10 ^ exponent`;
none if that is too large. -/
def scale (significand : Nat) (exponent : Int) : Option Nat :=
  let bits := Double.format.ofQuotient significand 1
  if exponent < 0 then scaleDown 4 bits exponent.natAbs
  else if exponent ≤ 308 then
    (timesPowerOfTen bits exponent.natAbs).bind fun bits =>
      if bits = Double.format.infinityBits then none else some bits
  else if bits = 0 then some 0
  else none

def toDouble? (n : JsonNumber) : Option Double :=
  let (significand, exponent) := n.scaled
  let bits :=
    match n.exponent with
    | none => scale significand (saturate exponent)
    | some (negative, digits) =>
      let written := digitsValue digits
      if exponentLimit < written then
        if significand ≠ 0 ∧ ¬negative then none else some 0
      else
        scale significand (saturate (if negative then exponent - written else exponent + written))
  bits.map (Double.ofMagnitude n.negative)

/-- The number in single precision: an integer is rounded once, any other number after it was
rounded to double precision. -/
def toSingle? (n : JsonNumber) : Option Single :=
  match n.integer? with
  | some i => some (.ofMagnitude (i < 0) (Single.format.ofQuotient i.natAbs 1))
  | none => n.toDouble?.map Double.toSingle

end JsonNumber

end RowCode
