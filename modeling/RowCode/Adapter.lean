import RowCode.Sql.Type
import RowCode.Host.Type

/-!
# Type adapters

How logical types are represented on the host.
-/

namespace RowCode

abbrev TypeAdapter := LogicalType → HostType

namespace TypeAdapter

/-- A scalar is primitive if it cannot be null, and else its box. -/
def scalar (p : Primitive) (nullable : Bool) : HostType :=
  if nullable then .boxed p else .primitive p

def standard : TypeAdapter := fun t =>
  match t.dataType with
  | .boolean => scalar .boolean t.nullable
  | .tinyInt => scalar .byte t.nullable
  | .smallInt => scalar .short t.nullable
  | .integer => scalar .int t.nullable
  | .bigInt => scalar .long t.nullable
  | .real => scalar .float t.nullable
  | .double => scalar .double t.nullable
  | .decimal => .decimal
  | .varchar => .string
  | .any => .object

end TypeAdapter

end RowCode
