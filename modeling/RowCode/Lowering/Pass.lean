import RowCode.Lowering.Getter

/-!
# Passes over rows

The fields of a program are those of its input rows, which are stored as arrays.
-/

namespace RowCode

/-- The getter for rows stored as arrays. -/
def Getter.rows (inputs : List RowInput) : Getter := ⟨RowInput.readField inputs⟩

namespace LoweringContext

variable (c : LoweringContext)

def lower (place : Place) (node : Node) : Lowering Expr :=
  (Getter.rows c.inputs).lower c place node

def lowerOperandsOf (place : Place) (node : Node) : Lowering (List Expr) :=
  (Getter.rows c.inputs).lowerOperandsOf c place node

def lowerEach (roots : List (Place × Node)) : Lowering (List Expr) :=
  (Getter.rows c.inputs).lowerEach c roots

def lowerAll (roots : List (Place × Node)) : Lowering (List Expr) :=
  (Getter.rows c.inputs).lowerAll c roots

def lowerProjects (block : Block) : Except LoweringError (List Expr) × Block :=
  (Getter.rows c.inputs).lowerProjects c block

def lowerCondition (block : Block) : Except LoweringError Expr × Block :=
  (Getter.rows c.inputs).lowerCondition c block

end LoweringContext

end RowCode
