import RowCode.Sql.Value
import RowCode.Host.Type

/-!
# Host expressions

The expressions of generated code. Each one carries the host type of its value.
-/

namespace RowCode

structure Variable where
  name : String
  ty : HostType
  deriving DecidableEq, Repr

inductive BinaryOp where
  | andAlso | orElse
  | lessThan | lessThanOrEqual | greaterThan | greaterThanOrEqual | equal | notEqual
  | add | subtract | multiply | divide | modulo
  deriving DecidableEq, Repr

namespace BinaryOp

def symbol : BinaryOp → String
  | .andAlso => "&&"
  | .orElse => "||"
  | .lessThan => "<"
  | .lessThanOrEqual => "<="
  | .greaterThan => ">"
  | .greaterThanOrEqual => ">="
  | .equal => "=="
  | .notEqual => "!="
  | .add => "+"
  | .subtract => "-"
  | .multiply => "*"
  | .divide => "/"
  | .modulo => "%"

/-- Whether the result is a boolean whatever the operands are. -/
def isBoolean : BinaryOp → Bool
  | .add | .subtract | .multiply | .divide | .modulo => false
  | _ => true

end BinaryOp

inductive UnaryOp where
  | not | negate
  deriving DecidableEq, Repr

def UnaryOp.symbol : UnaryOp → String
  | .not => "!"
  | .negate => "-"

inductive Expr where
  | constant (value : Value) (ty : HostType)
  | var (v : Variable)
  | call (target : Expr) (method : String) (args : List Expr) (ty : HostType)
  | staticCall (owner method : String) (args : List Expr) (ty : HostType)
  | construct (ty : HostType) (args : List Expr)
  | binary (op : BinaryOp) (left right : Expr) (ty : HostType)
  | unary (op : UnaryOp) (operand : Expr) (ty : HostType)
  | conditional (test ifTrue ifFalse : Expr) (ty : HostType)
  | cast (operand : Expr) (ty : HostType)
  | element (array : Expr) (index : Nat) (ty : HostType)
  | lambda (parameters : List Variable) (body : Expr)

namespace Expr

/-- The type of the value; a function literal has the type of its body. -/
def ty : Expr → HostType
  | constant _ ty => ty
  | var v => v.ty
  | call _ _ _ ty => ty
  | staticCall _ _ _ ty => ty
  | construct ty _ => ty
  | binary _ _ _ ty => ty
  | unary _ _ ty => ty
  | conditional _ _ _ ty => ty
  | cast _ ty => ty
  | element _ _ ty => ty
  | lambda _ body => body.ty

def runtimeClass : String := "SqlFunctions"

def nullOf (ty : HostType) : Expr := .constant .null ty

/-- The null that any reference type admits. -/
def null : Expr := nullOf .object

def boolean (b : Bool) : Expr := .constant (.boolean b) .boolean

def runtimeCall (method : String) (args : List Expr) (ty : HostType) : Expr :=
  .staticCall runtimeClass method args ty

/-- An operation typed as boolean if its operator says so, and else as its left operand. -/
def operation (op : BinaryOp) (left right : Expr) : Expr :=
  .binary op left right (if op.isBoolean then .boolean else left.ty)

def equal (left right : Expr) : Expr := operation .equal left right

def notEqual (left right : Expr) : Expr := operation .notEqual left right

def choose (test ifTrue ifFalse : Expr) : Expr := .conditional test ifTrue ifFalse ifTrue.ty

/-- An element of an array, typed by the array's type if that is known. -/
def elementAt (array : Expr) (index : Nat) : Expr :=
  .element array index (match array.ty with
    | .array component => component
    | _ => .object)

/-! Expressions agree when they are the same up to the way their constants are written. -/

mutual

def agrees : Expr → Expr → Bool
  | constant v t, constant w u => v.agrees w && t = u
  | var x, var y => x = y
  | call x m xs t, call y n ys u => agrees x y && m = n && allAgree xs ys && t = u
  | staticCall c m xs t, staticCall d n ys u => c = d && m = n && allAgree xs ys && t = u
  | construct t xs, construct u ys => t = u && allAgree xs ys
  | binary o x y t, binary p z w u => o = p && agrees x z && agrees y w && t = u
  | unary o x t, unary p y u => o = p && agrees x y && t = u
  | conditional a x y t, conditional b z w u =>
    agrees a b && agrees x z && agrees y w && t = u
  | cast x t, cast y u => agrees x y && t = u
  | element x i t, element y j u => agrees x y && i = j && t = u
  | lambda ps x, lambda qs y => ps = qs && agrees x y
  | _, _ => false

def allAgree : List Expr → List Expr → Bool
  | [], [] => true
  | x :: xs, y :: ys => agrees x y && allAgree xs ys
  | _, _ => false

end

end Expr

end RowCode
