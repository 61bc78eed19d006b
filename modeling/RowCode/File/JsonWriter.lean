import RowCode.File.Json
import RowCode.File.Names
import RowCode.Program.Basic

/-!
# Programs as JSON

A variant is an object whose one member names it; a record is an object with its fields in order.
-/

namespace RowCode

namespace Json

def ofNat (n : Nat) : Json := .number (toString n)

def ofInt (n : Int) : Json := .number (toString n)

def variant (name : String) (payload : Json) : Json := .object [(name, payload)]

def ofLogicalType (t : LogicalType) : Json :=
  .object [("data_type", .string t.dataType.fileName), ("nullable", .boolean t.nullable)]

/-- A floating-point number that is not finite is written as null. -/
def ofFloatText (text : Option String) : Json :=
  match text with
  | some text => .number text
  | none => .null

def ofValue : Value → Json
  | .null => .string "Null"
  | .boolean b => variant "Boolean" (.boolean b)
  | .int8 n => variant "Int8" (ofInt n.toInt)
  | .int16 n => variant "Int16" (ofInt n.toInt)
  | .int32 n => variant "Int32" (ofInt n.toInt)
  | .int64 n => variant "Int64" (ofInt n.toInt)
  | .float x => variant "Float" (ofFloatText x.fileText?)
  | .double x => variant "Double" (ofFloatText x.fileText?)
  | .decimal d => variant "Decimal" (.string d.text)
  | .string s => variant "String" (.string s)

def ofIndexed (name : String) (index : Nat) (ty : LogicalType) : Json :=
  variant name (.object [("index", ofNat index), ("ty", ofLogicalType ty)])

mutual

def ofNode : Node → Json
  | .inputRef index ty => ofIndexed "InputRef" index ty
  | .localRef index ty => ofIndexed "LocalRef" index ty
  | .literal value ty =>
    variant "Literal" (.object [("value", ofValue value), ("ty", ofLogicalType ty)])
  | .call op operands ty =>
    variant "Call" (.object [("op", .string op.fileName), ("operands", .list (ofNodes operands)),
      ("ty", ofLogicalType ty)])
  | .case branches otherwise ty =>
    variant "Case" (.object [("branches", .list (ofBranches branches)),
      ("otherwise", ofNode otherwise), ("ty", ofLogicalType ty)])
  | .dynamicParam index ty => ofIndexed "DynamicParam" index ty

def ofNodes : List Node → List Json
  | [] => []
  | node :: rest => ofNode node :: ofNodes rest

def ofBranches : List (Node × Node) → List Json
  | [] => []
  | (condition, result) :: rest => .list [ofNode condition, ofNode result] :: ofBranches rest

end

def ofCondition : Option Node → Json
  | some node => ofNode node
  | none => .null

def ofProgram (p : Program) : Json :=
  .object [("input_row_type", .list (p.inputRowType.map ofLogicalType)),
    ("exprs", .list (ofNodes p.exprs)), ("projects", .list (ofNodes p.projects)),
    ("condition", ofCondition p.condition)]

end Json

end RowCode
