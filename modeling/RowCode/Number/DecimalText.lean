import RowCode.Number.Decimal

/-!
# Decimal text

A decimal is written positionally when its exponent is at most zero and its first digit stands no
more than six places after the point, and otherwise with an exponent. Reading accepts both forms,
in either case, with any number of digits, and the names of the infinities and of the values that
are not numbers. Exponents of more than four digits are not told apart.
-/

namespace RowCode.Decimal

def signText (negative : Bool) : List Char := if negative then ['-'] else []

/-- `± coefficient · 10 ^ exponent`, with every digit of the coefficient. -/
def finiteText (coefficient : Nat) (exponent : Int) : List Char :=
  let digits := decimalDigits coefficient
  let point : Int := digits.length + exponent
  if exponent ≤ 0 ∧ -6 < point then
    placePoint digits point
  else
    leadingPoint digits ++ 'E' :: signedExponent (point - 1)

def chars : Decimal → List Char
  | .finite negative coefficient exponent _ => signText negative ++ finiteText coefficient exponent
  | .infinite negative => signText negative ++ "Infinity".toList
  | .nan negative signaling payload _ =>
    signText negative ++ (if signaling then ['s'] else []) ++ "NaN".toList ++
      (if payload = 0 then [] else decimalDigits payload)

def text (d : Decimal) : String := String.ofList d.chars

def splitSign : List Char → Bool × List Char
  | '-' :: cs => (true, cs)
  | '+' :: cs => (false, cs)
  | cs => (false, cs)

def splitDigits (cs : List Char) : List Char × List Char :=
  (cs.takeWhile Char.isDigit, cs.dropWhile Char.isDigit)

/-- Most digits of an exponent that is read as it stands, leading zeros apart. -/
def exponentDigits : Nat := 4

/-- What every longer exponent is read as: twice the greatest exponent of a first digit. -/
def farExponent : Nat := 12288

/-- The size of a written exponent. The digits after the point are subtracted from it later, so
that a far exponent can still lead to a finite decimal. -/
def exponentValue (digits : List Char) : Nat :=
  if exponentDigits < (digits.dropWhile (· = '0')).length then farExponent else digitsValue digits

/-- The exponent part, which may be absent. -/
def readExponent : List Char → Option Int
  | [] => some 0
  | c :: cs =>
    if c = 'e' ∨ c = 'E' then
      let (negative, rest) := splitSign cs
      let (digits, rest) := splitDigits rest
      if digits = [] ∨ rest ≠ [] then none
      else some (if negative then -(exponentValue digits : Int) else exponentValue digits)
    else
      none

def splitNumeral (cs : List Char) : List Char × List Char × List Char :=
  let (whole, rest) := splitDigits cs
  match rest with
  | '.' :: rest =>
    let (fraction, rest) := splitDigits rest
    (whole, fraction, rest)
  | rest => (whole, [], rest)

def readFinite (negative : Bool) (cs : List Char) : Option Decimal :=
  let (whole, fraction, rest) := splitNumeral cs
  if whole = [] ∧ fraction = [] then none
  else
    (readExponent rest).map fun exponent =>
      ofScaled negative (digitsValue (whole ++ fraction)) (exponent - fraction.length)

/-- The digits after the name of a value that is not a number. -/
def readPayload (negative signaling : Bool) (cs : List Char) : Option Decimal :=
  if cs.all Char.isDigit then
    let payload := digitsValue cs
    if h : payload < 10 ^ (precision - 1) then some (.nan negative signaling payload h) else none
  else
    none

/-- An infinity or a value that is not a number, by its name in lower case. -/
def readSpecial (negative : Bool) (cs : List Char) : Option Decimal :=
  match cs with
  | ['i', 'n', 'f'] => some (.infinite negative)
  | ['i', 'n', 'f', 'i', 'n', 'i', 't', 'y'] => some (.infinite negative)
  | 'n' :: 'a' :: 'n' :: payload => readPayload negative false payload
  | 's' :: 'n' :: 'a' :: 'n' :: payload => readPayload negative true payload
  | _ => none

def ofChars? (cs : List Char) : Option Decimal :=
  let (negative, rest) := splitSign cs
  (readFinite negative rest).orElse fun _ => readSpecial negative (rest.map Char.toLower)

def ofText? (text : String) : Option Decimal := ofChars? text.toList

end RowCode.Decimal
