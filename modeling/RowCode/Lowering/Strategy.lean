import RowCode.Host.Coerce
import RowCode.Program.Node

/-!
# Strategies

How the call of an operator is put together from its lowered operands. The standard table calls
runtime functions; the native one uses host operators for logic and comparisons.
-/

namespace RowCode

inductive Strategy where
  /-- Call of a runtime function. -/
  | runtimeCall (method : String)
  /-- Host operator, folded left over two or more operands. -/
  | fold (op : BinaryOp)
  /-- Host operator on one operand. -/
  | unary (op : UnaryOp)
  /-- Comparison with null. -/
  | nullTest (holdsForValues : Bool)
  /-- One conditional per branch. -/
  | case
  /-- Coercion of one operand. -/
  | cast
  deriving DecidableEq

namespace Strategy

/-- Whether a number of operands is refused before any of them is lowered. -/
def refuses (s : Strategy) (operandCount : Nat) : Bool := s = .case && operandCount % 2 = 0

/-- Nested conditionals, from the last branch outward. -/
def caseChain (ty : HostType) (branches : List (Expr × Expr)) (otherwise : Expr) : Expr :=
  branches.foldr
    (fun (test, result) rest => .choose (test.coerce .boolean) (result.coerce ty) rest)
    (otherwise.coerce ty)

def assemble? (s : Strategy) (ty : HostType) (args : List Expr) : Option Expr :=
  match s, args with
  | .runtimeCall method, args => some (.runtimeCall method args ty)
  | .fold op, first :: second :: rest =>
    some (((second :: rest).map Expr.unbox).foldl (Expr.operation op) first.unbox)
  | .unary op, [operand] => some (.unary op operand.unbox operand.unbox.ty)
  | .nullTest holdsForValues, [operand] =>
    some (if operand.ty.isPrimitive then .boolean holdsForValues
      else if holdsForValues then .notEqual operand .null
      else .equal operand .null)
  | .case, args => (pairUp? args).map fun (branches, otherwise) => caseChain ty branches otherwise
  | .cast, [operand] => some (operand.coerce ty)
  | _, _ => none

end Strategy

inductive OperatorTable where
  | standard | native
  deriving DecidableEq, Repr

namespace OperatorTable

def commonStrategy? : Operator → Option Strategy
  | .upper => some (.runtimeCall "upper")
  | .lower => some (.runtimeCall "lower")
  | .substring => some (.runtimeCall "substring")
  | .plus => some (.runtimeCall "plus")
  | .minus => some (.runtimeCall "minus")
  | .multiply => some (.runtimeCall "multiply")
  | .divide => some (.runtimeCall "divide")
  | .mod => some (.runtimeCall "mod")
  | .exp => some (.runtimeCall "exp")
  | .isNull => some (.nullTest false)
  | .isNotNull => some (.nullTest true)
  | .case => some .case
  | .cast => some .cast
  | _ => none

def predicateMethod? : Operator → Option String
  | .and => some "and"
  | .or => some "or"
  | .not => some "not"
  | .lessThan => some "lt"
  | .lessThanOrEqual => some "le"
  | .greaterThan => some "gt"
  | .greaterThanOrEqual => some "ge"
  | .equals => some "eq"
  | .notEquals => some "ne"
  | _ => none

def nativeStrategy? : Operator → Option Strategy
  | .and => some (.fold .andAlso)
  | .or => some (.fold .orElse)
  | .not => some (.unary .not)
  | .lessThan => some (.fold .lessThan)
  | .lessThanOrEqual => some (.fold .lessThanOrEqual)
  | .greaterThan => some (.fold .greaterThan)
  | .greaterThanOrEqual => some (.fold .greaterThanOrEqual)
  | .equals => some (.fold .equal)
  | .notEquals => some (.fold .notEqual)
  | _ => none

def strategy? (table : OperatorTable) (op : Operator) : Option Strategy :=
  match table with
  | .standard => ((predicateMethod? op).map Strategy.runtimeCall).or (commonStrategy? op)
  | .native => (nativeStrategy? op).or (commonStrategy? op)

end OperatorTable

end RowCode
