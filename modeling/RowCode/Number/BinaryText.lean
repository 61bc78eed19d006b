import RowCode.Number.Shortest

/-!
# Text of floating-point numbers

Two layouts of the shortest digits: positional, for code and digests, and the layout of program
files, which has an exponent outside a plain range and otherwise at least one decimal. The plain
range depends on the width: from `1e-6` to `1e13` in single and from `1e-5` to `1e16` in double
precision.
-/

namespace RowCode

/-- The places of the point, relative to the first digit, at which a number is written without an
exponent. -/
structure PlainRange where
  least : Int
  greatest : Int
  deriving DecidableEq, Repr

def PlainRange.admits (range : PlainRange) (point : Int) : Bool :=
  range.least ≤ point && point ≤ range.greatest

namespace BinaryFormat

/-- The digits of a finite number, and the place of the point relative to the first of them. -/
def digitsAndPoint (f : BinaryFormat) (tie : TieRule) (significand : Nat) (exponent : Int) :
    List Char × Int :=
  if significand = 0 then (['0'], 1)
  else
    let (n, k) := f.shortest tie significand exponent
    let digits := decimalDigits n
    (digits, digits.length + k)

/-- Positional text: no exponent, and no point for an integer. -/
def positionalText (f : BinaryFormat) (significand : Nat) (exponent : Int) : List Char :=
  let (digits, point) := f.digitsAndPoint .up significand exponent
  placePoint digits point

def fileText (f : BinaryFormat) (plain : PlainRange) (significand : Nat) (exponent : Int) :
    List Char :=
  let (digits, point) := f.digitsAndPoint .toEven significand exponent
  if plain.admits point then
    let text := placePoint digits point
    if '.' ∈ text then text else text ++ ['.', '0']
  else
    leadingPoint digits ++ 'e' :: signedExponent (point - 1)

def displayText (f : BinaryFormat) (negative : Bool) : Magnitude → List Char
  | .finite significand exponent =>
    (if negative then ['-'] else []) ++ f.positionalText significand exponent
  | .infinite => (if negative then ['-'] else []) ++ ['i', 'n', 'f']
  | .nan => ['N', 'a', 'N']

def signedFileText? (f : BinaryFormat) (plain : PlainRange) (negative : Bool) :
    Magnitude → Option (List Char)
  | .finite significand exponent =>
    some ((if negative then ['-'] else []) ++ f.fileText plain significand exponent)
  | .infinite => none
  | .nan => none

end BinaryFormat

def Single.text (x : Single) : String :=
  String.ofList (Single.format.displayText x.negative x.magnitude)

def Double.text (x : Double) : String :=
  String.ofList (Double.format.displayText x.negative x.magnitude)

/-- From `1e-6` up to, but not including, `1e13`. -/
def Single.plainRange : PlainRange := ⟨-5, 13⟩

/-- From `1e-5` up to, but not including, `1e16`. -/
def Double.plainRange : PlainRange := ⟨-4, 16⟩

def Single.fileText? (x : Single) : Option String :=
  (Single.format.signedFileText? Single.plainRange x.negative x.magnitude).map String.ofList

def Double.fileText? (x : Double) : Option String :=
  (Double.format.signedFileText? Double.plainRange x.negative x.magnitude).map String.ofList

end RowCode
