/-!
# Data types

The SQL types of row fields and expressions.
-/

namespace RowCode

inductive DataType where
  | boolean | tinyInt | smallInt | integer | bigInt | real | double | decimal | varchar
  /-- Values whose representation is only known when the code runs. -/
  | any
  deriving DecidableEq, Repr

namespace DataType

def all : List DataType :=
  [.boolean, .tinyInt, .smallInt, .integer, .bigInt, .real, .double, .decimal, .varchar, .any]

theorem mem_all (t : DataType) : t ∈ all := by cases t <;> decide

def name : DataType → String
  | .boolean => "BOOLEAN"
  | .tinyInt => "TINYINT"
  | .smallInt => "SMALLINT"
  | .integer => "INTEGER"
  | .bigInt => "BIGINT"
  | .real => "REAL"
  | .double => "DOUBLE"
  | .decimal => "DECIMAL"
  | .varchar => "VARCHAR"
  | .any => "ANY"

end DataType

structure LogicalType where
  dataType : DataType
  nullable : Bool
  deriving DecidableEq, Repr

namespace LogicalType

def notNull (t : DataType) : LogicalType := ⟨t, false⟩

def orNull (t : DataType) : LogicalType := ⟨t, true⟩

def withNullable (t : LogicalType) (nullable : Bool) : LogicalType := { t with nullable }

def text (t : LogicalType) : String :=
  if t.nullable then t.dataType.name else t.dataType.name ++ " NOT NULL"

end LogicalType

end RowCode
