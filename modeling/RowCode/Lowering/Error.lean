import RowCode.Sql.Operator

/-!
# Faults of lowering
-/

namespace RowCode

inductive LoweringError where
  | unsupportedOperator (op : Operator)
  | unsupportedExpression (kind digest : String)
  | unknownAggregate (aggregate : AggregateFunction)
  | aggregateArity (aggregate : AggregateFunction) (expected actual : Nat)
  | inputIndexOutOfBounds (index fieldCount : Nat)
  | noInput (index : Nat)
  /-- The roots to count references from hold one that leads outside the program. -/
  | danglingRoot
  deriving DecidableEq, Repr

def LoweringError.message : LoweringError → String
  | .unsupportedOperator op => "Cannot translate call to unsupported operator " ++ op.text
  | .unsupportedExpression kind digest =>
    "Cannot translate " ++ kind ++ " expression " ++ digest
  | .unknownAggregate aggregate => "Unknown aggregate function: " ++ aggregate.text
  | .aggregateArity aggregate expected actual =>
    aggregate.text ++ " expects " ++ toString expected ++ " argument(s), got " ++ toString actual
  | .inputIndexOutOfBounds index fieldCount =>
    "Input field " ++ toString index ++ " out of bounds for row with " ++ toString fieldCount ++
      " fields"
  | .noInput index => "No input available to read field " ++ toString index ++ " from"
  | .danglingRoot => "Root refers outside the program"

end RowCode
