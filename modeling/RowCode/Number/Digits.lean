/-!
# Digits and rounding

Two facts about writing numbers that both kinds of number share: where the point goes among given
digits, and which integer is nearest to a quotient.
-/

namespace RowCode

-- Powers of numbers are the core ones, also where a library defines others.
attribute [scoped instance (high)] instPowNat

/-- The integer nearest to `num / den`; a half goes to the even neighbour. -/
def roundQuotient (num den : Nat) : Nat :=
  let quotient := num / den
  let rest := 2 * (num % den)
  if den < rest ∨ (rest = den ∧ quotient % 2 = 1) then quotient + 1 else quotient

theorem roundQuotient_mul (n den : Nat) (h : 0 < den) : roundQuotient (n * den) den = n := by
  simp [roundQuotient, Nat.mul_div_cancel _ h, Nat.ne_of_lt h]

/-- The decimal digits of `n`, most significant first; zero has one digit. -/
def decimalDigits (n : Nat) : List Char := Nat.toDigits 10 n

def digitsValue (digits : List Char) : Nat := Nat.ofDigitChars 10 digits 0

theorem digitsValue_decimalDigits (n : Nat) : digitsValue (decimalDigits n) = n :=
  Nat.ofDigitChars_ten_toDigits

/-- Positional form of `0.d₁d₂… · 10 ^ point`, with the zeros that the point needs on either
side. -/
def placePoint (digits : List Char) (point : Int) : List Char :=
  if point ≤ 0 then
    '0' :: '.' :: (List.replicate (-point).toNat '0' ++ digits)
  else if digits.length ≤ point.toNat then
    digits ++ List.replicate (point.toNat - digits.length) '0'
  else
    digits.take point.toNat ++ '.' :: digits.drop point.toNat

/-- One digit, then a point and the others if there are others. -/
def leadingPoint (digits : List Char) : List Char :=
  match digits with
  | [] => []
  | [d] => [d]
  | d :: rest => d :: '.' :: rest

/-- An exponent with its sign always written. -/
def signedExponent (e : Int) : List Char :=
  (if e < 0 then '-' else '+') :: decimalDigits e.natAbs

end RowCode
