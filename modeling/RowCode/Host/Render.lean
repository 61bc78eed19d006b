import RowCode.Host.Expr

/-!
# Host text

Expressions as code. An operand that could be taken apart by what surrounds it is put in
parentheses.
-/

namespace RowCode

namespace Text

def escape : Char → List Char
  | '"' => ['\\', '"']
  | '\\' => ['\\', '\\']
  | '\n' => ['\\', 'n']
  | '\t' => ['\\', 't']
  | c => [c]

def literal (s : String) : String :=
  String.ofList ('"' :: (s.toList.flatMap escape ++ ['"']))

/-- The name of a number that has no digits, which its box class defines. -/
def special (owner : String) (negative : Bool) : Magnitude → Option String
  | .finite _ _ => none
  | .infinite => some (owner ++ (if negative then ".NEGATIVE_INFINITY" else ".POSITIVE_INFINITY"))
  | .nan => some (owner ++ ".NaN")

def constant (value : Value) (ty : HostType) : String :=
  match value with
  | .null => if ty = .object then "null" else "(" ++ ty.text ++ ") null"
  | .boolean _ => value.canonicalText
  | .int8 _ => "(byte) " ++ value.canonicalText
  | .int16 _ => "(short) " ++ value.canonicalText
  | .int32 _ => value.canonicalText
  | .int64 _ => value.canonicalText ++ "L"
  | .float x => (special "Float" x.negative x.magnitude).getD (x.text ++ "F")
  | .double x => (special "Double" x.negative x.magnitude).getD (x.text ++ "D")
  | .decimal d => d.text
  | .string s => literal s

/-- Parameter names of a function literal; a single one stands bare. -/
def parameters (ps : List Variable) : String :=
  match ps with
  | [p] => p.name
  | ps => "(" ++ String.intercalate ", " (ps.map Variable.name) ++ ")"

/-- The text in parentheses if it needs them. -/
def guarded (needed : Bool) (text : String) : String :=
  if needed then "(" ++ text ++ ")" else text

end Text

namespace Expr

/-- Whether the expression has to stand in parentheses as an operand. -/
def needsParens : Expr → Bool
  | binary _ _ _ _ | conditional _ _ _ _ | cast _ _ | lambda _ _ => true
  | _ => false

mutual

def text : Expr → String
  | constant value ty => Text.constant value ty
  | var v => v.name
  | call target method args _ =>
    Text.guarded target.needsParens (text target) ++ "." ++ method ++ argumentList args
  | staticCall owner method args _ => owner ++ "." ++ method ++ argumentList args
  | construct ty args => "new " ++ ty.text ++ argumentList args
  | binary op left right _ =>
    Text.guarded left.needsParens (text left) ++ " " ++ op.symbol ++ " " ++
      Text.guarded right.needsParens (text right)
  | unary op operand _ => op.symbol ++ Text.guarded operand.needsParens (text operand)
  | conditional test ifTrue ifFalse _ =>
    Text.guarded test.needsParens (text test) ++ " ? " ++
      Text.guarded ifTrue.needsParens (text ifTrue) ++ " : " ++
      Text.guarded ifFalse.needsParens (text ifFalse)
  | cast operand ty =>
    "(" ++ ty.text ++ ") " ++ Text.guarded operand.needsParens (text operand)
  | element array index _ =>
    Text.guarded array.needsParens (text array) ++ "[" ++ toString index ++ "]"
  | lambda parameters body => Text.parameters parameters ++ " -> " ++ text body

def argumentList (args : List Expr) : String :=
  "(" ++ String.intercalate ", " (texts args) ++ ")"

def texts : List Expr → List String
  | [] => []
  | e :: rest => text e :: texts rest

end

end Expr

end RowCode
