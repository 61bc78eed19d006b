import RowCode.Sql.Type

/-!
# Faults of programs
-/

namespace RowCode

inductive ProgramError where
  | forwardReference (position index : Nat)
  | localIndexOutOfBounds (index count : Nat)
  | inputIndexOutOfBounds (index fieldCount : Nat)
  | notALocalRef (digest : String)
  | literalTypeMismatch (digest : String) (ty : LogicalType)
  deriving DecidableEq, Repr

def ProgramError.message : ProgramError → String
  | .forwardReference position index =>
    "Expression " ++ toString position ++ " references $t" ++ toString index ++
      ", which is not defined before it"
  | .localIndexOutOfBounds index count =>
    "Local reference $t" ++ toString index ++ " out of bounds for program with " ++
      toString count ++ " expressions"
  | .inputIndexOutOfBounds index fieldCount =>
    "Input reference $" ++ toString index ++ " out of bounds for row with " ++
      toString fieldCount ++ " fields"
  | .notALocalRef digest => "Program output must be a local reference, got " ++ digest
  | .literalTypeMismatch digest ty =>
    "Literal " ++ digest ++ " does not fit type " ++ ty.text

end RowCode
