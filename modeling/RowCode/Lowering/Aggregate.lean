import RowCode.Host.Coerce
import RowCode.Lowering.Error

/-!
# Aggregates

Two ways to lower an aggregate: one call on a whole collection, or expressions that start, advance
and finish an accumulator. Rows whose argument is null are not added.
-/

namespace RowCode

namespace AggregateFunction

/-- The method that aggregates a collection, and its type if the accessor does not decide it. -/
def wholeMethod? : AggregateFunction → Option (String × Option HostType)
  | .count => some ("longCount", some .long)
  | .sum => some ("sum", none)
  | .min => some ("min", none)
  | .max => some ("max", none)
  | .avg => none

/-- The aggregate of a collection by one call. COUNT counts rows, so it has no accessor. -/
def lowerWhole (aggregate : AggregateFunction) (grouping : Expr) (accessor : Option Expr) :
    Except LoweringError Expr :=
  match aggregate.wholeMethod? with
  | none => .error (.unknownAggregate aggregate)
  | some (method, fixed) =>
    let accessor := if aggregate = .count then none else accessor
    let ty := fixed.getD ((accessor.map Expr.ty).getD .object)
    .ok (.call grouping method accessor.toList ty)

end AggregateFunction

inductive Accumulator where
  | count
  | sum
  /-- Least or greatest argument, as the aggregate function tells. -/
  | extremum
  deriving DecidableEq, Repr

def AggregateFunction.accumulator? : AggregateFunction → Option Accumulator
  | .count => some .count
  | .sum => some .sum
  | .min => some .extremum
  | .max => some .extremum
  | .avg => none

namespace Accumulator

/-- The constant `n` of a primitive or of its box; for a boolean, whether `n` is not zero. -/
def primitiveConstant (n : Nat) : Primitive → Value
  | .boolean => .boolean (n != 0)
  | .byte => .int8 (.ofNat n)
  | .short => .int16 (.ofNat n)
  | .char => .int32 (.ofNat n)
  | .int => .int32 (.ofNat n)
  | .long => .int64 (.ofNat n)
  | .float => .float (.ofMagnitude false (Single.format.ofQuotient n 1))
  | .double => .double (.ofMagnitude false (Double.format.ofQuotient n 1))

/-- A small number of a host type. A type that is not numeric gets a coerced integer. -/
def number (n : Nat) (ty : HostType) : Expr :=
  match ty with
  | .primitive p => .constant (primitiveConstant n p) ty
  | .boxed p => .constant (primitiveConstant n p) ty
  | .decimal => .construct ty [.constant (.string (toString n)) .string]
  | .bigInteger => .construct ty [.constant (.string (toString n)) .string]
  | ty => (Expr.constant (.int32 (.ofNat n)) .int).coerce ty

/-- The sum of the accumulator and an operand, by a method if the accumulator has its own
arithmetic. -/
def plus (acc operand : Expr) : Expr :=
  if acc.ty.isArbitraryPrecision then .call acc "add" [operand] acc.ty
  else .binary .add acc operand acc.ty

def onlyArgument (aggregate : AggregateFunction) : List Expr → Except LoweringError Expr
  | [argument] => .ok argument
  | arguments => .error (.aggregateArity aggregate 1 arguments.length)

def pickMethod : AggregateFunction → Except LoweringError String
  | .min => .ok "lesser"
  | .max => .ok "greater"
  | aggregate => .error (.unknownAggregate aggregate)

def addsNull (_ : Accumulator) : Bool := false

/-- The value before any row. For an extremum it is a null of the box: no row yet. -/
def init (a : Accumulator) (returnType : HostType) : Expr :=
  match a with
  | .count => number 0 returnType
  | .sum => number 0 returnType
  | .extremum => .nullOf returnType.box

/-- The argument picked against the accumulator, which holds none before the first row. -/
def pick (method : String) (acc argument : Expr) : Expr :=
  let current := acc.unbox
  .choose (.equal acc .null) argument
    ((Expr.runtimeCall method [current, argument] current.ty).coerce argument.ty)

def add (a : Accumulator) (aggregate : AggregateFunction) (acc : Expr) (arguments : List Expr) :
    Except LoweringError Expr :=
  match a with
  | .count => .ok (plus acc (number 1 acc.ty))
  | .sum => do
    let argument ← onlyArgument aggregate arguments
    pure (plus acc (if acc.ty.isArbitraryPrecision then argument else argument.coerce acc.ty))
  | .extremum => do
    let method ← pickMethod aggregate
    let argument ← onlyArgument aggregate arguments
    pure (pick method acc argument)

def result (_ : Accumulator) (acc : Expr) : Expr := acc

end Accumulator

end RowCode
