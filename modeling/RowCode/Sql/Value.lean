import RowCode.Number.DecimalText
import RowCode.Number.BinaryText
import RowCode.Sql.Type

/-!
# Values

Literals of programs, which are also the constants of generated code.
-/

namespace RowCode

inductive Value where
  | null
  | boolean (b : Bool)
  | int8 (n : Int8)
  | int16 (n : Int16)
  | int32 (n : Int32)
  | int64 (n : Int64)
  | float (x : Single)
  | double (x : Double)
  | decimal (d : Decimal)
  | string (s : String)
  deriving DecidableEq

namespace Value

def dataType? : Value → Option DataType
  | .null => none
  | .boolean _ => some .boolean
  | .int8 _ => some .tinyInt
  | .int16 _ => some .smallInt
  | .int32 _ => some .integer
  | .int64 _ => some .bigInt
  | .float _ => some .real
  | .double _ => some .double
  | .decimal _ => some .decimal
  | .string _ => some .varchar

def isNull (v : Value) : Bool := v.dataType?.isNone

theorem isNull_iff {v : Value} : v.isNull = true ↔ v = .null := by
  cases v with
  | null => exact ⟨fun _ => rfl, fun _ => rfl⟩
  | boolean | int8 | int16 | int32 | int64 | float | double | decimal | string =>
      exact ⟨nofun, nofun⟩

def integer? : Value → Option Int
  | .int8 n => some n.toInt
  | .int16 n => some n.toInt
  | .int32 n => some n.toInt
  | .int64 n => some n.toInt
  | _ => none

/-- Whether the value can be the literal of a column of type `t`. Null fits every type, everything
fits ANY, and an integer also fits DECIMAL. -/
def fits (v : Value) (t : DataType) : Bool :=
  v.isNull || t = .any || (v.integer?.isSome && t = .decimal) || v.dataType? = some t

/-- The text from which arbitrary-precision constants are rebuilt. -/
def canonicalText : Value → String
  | .null => "null"
  | .boolean b => if b then "true" else "false"
  | .int8 n => toString n.toInt
  | .int16 n => toString n.toInt
  | .int32 n => toString n.toInt
  | .int64 n => toString n.toInt
  | .float x => x.text
  | .double x => x.text
  | .decimal d => d.text
  | .string s => s

def doubleQuotes : List Char → List Char
  | [] => []
  | '\'' :: cs => '\'' :: '\'' :: doubleQuotes cs
  | c :: cs => c :: doubleQuotes cs

/-- The text of a literal in a digest: strings are quoted. -/
def text : Value → String
  | .string s => String.ofList ('\'' :: (doubleQuotes s.toList ++ ['\'']))
  | v => v.canonicalText

/-- Whether two values are the same literal. Floating-point numbers are compared by what they denote
and decimals by their text. -/
def agrees : Value → Value → Bool
  | .float x, .float y => x.agrees y
  | .double x, .double y => x.agrees y
  | .decimal d, .decimal e => d.text = e.text
  | v, w => v = w

end Value

end RowCode
