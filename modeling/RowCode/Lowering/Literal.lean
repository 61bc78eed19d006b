import RowCode.Adapter
import RowCode.Host.Expr

/-!
# Literals

The constant that a literal becomes.
-/

namespace RowCode

/-- A constant of the literal's host type. Null is a null of the box, and an arbitrary-precision
value is rebuilt from its canonical text, which keeps its scale. -/
def lowerLiteral (adapter : TypeAdapter) (value : Value) (ty : LogicalType) : Expr :=
  let host := adapter ty
  if value.isNull then .nullOf host.box
  else if host.isArbitraryPrecision then
    .construct host [.constant (.string value.canonicalText) .string]
  else .constant value host

end RowCode
