import RowCode.Sql.Operator
import RowCode.Sql.Type

/-!
# Names in program files
-/

namespace RowCode

def DataType.fileName : DataType → String
  | .boolean => "Boolean"
  | .tinyInt => "TinyInt"
  | .smallInt => "SmallInt"
  | .integer => "Int32"
  | .bigInt => "BigInt"
  | .real => "Real"
  | .double => "Double"
  | .decimal => "Decimal"
  | .varchar => "Varchar"
  | .any => "Any"

def DataType.ofFileName? (name : String) : Option DataType :=
  DataType.all.find? fun t => t.fileName = name

theorem DataType.ofFileName?_fileName (t : DataType) : ofFileName? t.fileName = some t := by
  cases t <;> decide

def Operator.fileName : Operator → String
  | .upper => "Upper"
  | .lower => "Lower"
  | .substring => "Substring"
  | .concat => "Concat"
  | .like => "Like"
  | .and => "And"
  | .or => "Or"
  | .not => "Not"
  | .lessThan => "LessThan"
  | .lessThanOrEqual => "LessThanOrEqual"
  | .greaterThan => "GreaterThan"
  | .greaterThanOrEqual => "GreaterThanOrEqual"
  | .equals => "Equals"
  | .notEquals => "NotEquals"
  | .plus => "Plus"
  | .minus => "Minus"
  | .multiply => "Multiply"
  | .divide => "Divide"
  | .mod => "Mod"
  | .exp => "Exp"
  | .isNull => "IsNull"
  | .isNotNull => "IsNotNull"
  | .case => "Case"
  | .cast => "Cast"
  | .coalesce => "Coalesce"

def Operator.ofFileName? (name : String) : Option Operator :=
  Operator.all.find? fun op => op.fileName = name

theorem Operator.ofFileName?_fileName (op : Operator) : ofFileName? op.fileName = some op := by
  cases op <;> decide

end RowCode
