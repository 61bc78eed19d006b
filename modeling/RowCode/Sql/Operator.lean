/-!
# Operators

The scalar operators of calls and the aggregate functions.
-/

namespace RowCode

inductive Operator where
  | upper | lower | substring | concat | like
  | and | or | not
  | lessThan | lessThanOrEqual | greaterThan | greaterThanOrEqual | equals | notEquals
  | plus | minus | multiply | divide | mod | exp
  | isNull | isNotNull
  | case | cast | coalesce
  deriving DecidableEq, Repr

namespace Operator

def all : List Operator :=
  [.upper, .lower, .substring, .concat, .like, .and, .or, .not, .lessThan, .lessThanOrEqual,
    .greaterThan, .greaterThanOrEqual, .equals, .notEquals, .plus, .minus, .multiply, .divide, .mod,
    .exp, .isNull, .isNotNull, .case, .cast, .coalesce]

theorem mem_all (op : Operator) : op ∈ all := by cases op <;> decide

/-- How the operator is written in a digest. -/
def text : Operator → String
  | .upper => "UPPER"
  | .lower => "LOWER"
  | .substring => "SUBSTRING"
  | .concat => "||"
  | .like => "LIKE"
  | .and => "AND"
  | .or => "OR"
  | .not => "NOT"
  | .lessThan => "<"
  | .lessThanOrEqual => "<="
  | .greaterThan => ">"
  | .greaterThanOrEqual => ">="
  | .equals => "="
  | .notEquals => "<>"
  | .plus => "+"
  | .minus => "-"
  | .multiply => "*"
  | .divide => "/"
  | .mod => "MOD"
  | .exp => "EXP"
  | .isNull => "IS NULL"
  | .isNotNull => "IS NOT NULL"
  | .case => "CASE"
  | .cast => "CAST"
  | .coalesce => "COALESCE"

def isPredicate : Operator → Bool
  | .and | .or | .not | .lessThan | .lessThanOrEqual | .greaterThan | .greaterThanOrEqual | .equals
  | .notEquals | .isNull | .isNotNull | .like => true
  | _ => false

end Operator

inductive AggregateFunction where
  | count | sum | avg | min | max
  deriving DecidableEq, Repr

def AggregateFunction.text : AggregateFunction → String
  | .count => "COUNT"
  | .sum => "SUM"
  | .avg => "AVG"
  | .min => "MIN"
  | .max => "MAX"

end RowCode
