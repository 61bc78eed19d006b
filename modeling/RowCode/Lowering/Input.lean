import RowCode.Adapter
import RowCode.Host.Block
import RowCode.Host.Coerce
import RowCode.Lowering.Error

/-!
# Input rows

Fields are read from rows stored as arrays of objects. With several rows the fields are numbered
across them in order, so with rows of 2 and 3 fields, field 3 is field 1 of the second row.
-/

namespace RowCode

structure RowLayout where
  fieldTypes : List HostType
  deriving DecidableEq

namespace RowLayout

def ofRowType (rowType : List LogicalType) (adapter : TypeAdapter) : RowLayout :=
  ⟨rowType.map adapter⟩

def fieldCount (l : RowLayout) : Nat := l.fieldTypes.length

def fieldOf (l : RowLayout) (row : Expr) (index : Nat) : Except LoweringError Expr :=
  match l.fieldTypes[index]? with
  | some ty => .ok ((row.elementAt index).coerce ty)
  | none => .error (.inputIndexOutOfBounds index l.fieldCount)

end RowLayout

structure RowInput where
  row : Expr
  layout : RowLayout

namespace RowInput

def totalFields (inputs : List RowInput) : Nat :=
  inputs.foldr (fun input total => input.layout.fieldCount + total) 0

/-- The row that holds a field, with its position among the rows from `position` on, and the
field's place in it. -/
def locate? (position : Nat) : List RowInput → Nat → Option (Nat × RowInput × Nat)
  | [], _ => none
  | input :: rest, offset =>
    if offset < input.layout.fieldCount then some (position, input, offset)
    else locate? (position + 1) rest (offset - input.layout.fieldCount)

def rowName (position : Nat) : String := "current" ++ toString position

/-- Reads a field, binding its row to a variable of the block first. -/
def readField (inputs : List RowInput) (block : Block) (index : Nat) :
    Except LoweringError Expr × Block :=
  if inputs.isEmpty then (.error (.noInput index), block)
  else
    match locate? 0 inputs index with
    | none => (.error (.inputIndexOutOfBounds index (totalFields inputs)), block)
    | some (position, input, offset) =>
      let (holder, block) := block.append (rowName position) input.row
      (input.layout.fieldOf (.var holder) offset, block)

end RowInput

end RowCode
