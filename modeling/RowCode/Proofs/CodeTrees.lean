import RowCode.Host.Render

/-!
# What code says

The text of an expression does not tell all of it. Types are not written, but for those of casts,
constructors and nulls. A constant that is written as a cast is not told from a cast, nor a negative
number from a negation, nor a decimal from an integer; and a static call is written like a call on a
variable with the name of the class. What remains is a tree of code.
-/

namespace RowCode

namespace Text

def isWordChar (c : Char) : Bool := c.isAlphanum || c = '_' || c = '$' || 128 ≤ c.toNat

/-- The words that code uses for itself. -/
def keywords : List String := ["null", "true", "false", "new"]

def isWord (s : String) : Bool :=
  s.toList.all isWordChar && s.toList.head?.any fun c => !c.isDigit

def isName (s : String) : Bool := isWord s && s ∉ keywords

end Text

/-- Numbers as they are written, without a sign. -/
inductive Numeral where
  /-- An integer, or a decimal: `coefficient · 10 ^ exponent`. -/
  | plain (coefficient : Nat) (exponent : Int)
  | long (n : Nat)
  | single (significand : Nat) (exponent : Int)
  | double (significand : Nat) (exponent : Int)
  deriving DecidableEq, Nonempty

namespace Numeral

def chars : Numeral → List Char
  | plain coefficient exponent => Decimal.finiteText coefficient exponent
  | long n => decimalDigits n ++ ['L']
  | single significand exponent => Single.format.positionalText significand exponent ++ ['F']
  | double significand exponent => Double.format.positionalText significand exponent ++ ['D']

/-- Whether some constant is written like this. -/
def Occurs : Numeral → Prop
  | plain coefficient exponent => Decimal.Representable coefficient exponent
  | long _ => True
  | single significand exponent => ∃ x : Single, x.magnitude = .finite significand exponent
  | double significand exponent => ∃ x : Double, x.magnitude = .finite significand exponent

end Numeral

inductive Code where
  | null
  | boolean (b : Bool)
  | numeral (n : Numeral)
  | string (s : String)
  | name (name : String)
  | field (target : Code) (name : String)
  | call (target : Code) (method : String) (args : List Code)
  | construct (ty : HostType) (args : List Code)
  | binary (op : BinaryOp) (left right : Code)
  | unary (op : UnaryOp) (operand : Code)
  | conditional (test ifTrue ifFalse : Code)
  | cast (operand : Code) (ty : HostType)
  | element (array : Code) (index : Nat)
  | lambda (parameters : List String) (body : Code)

namespace Code

def signed (negative : Bool) (c : Code) : Code := if negative then .unary .negate c else c

def ofInteger (i : Int) : Code := signed (i < 0) (.numeral (.plain i.natAbs 0))

/-- A number without digits is a field of its class. -/
def ofFloat (owner : String) (numeral : Nat → Int → Numeral) (negative : Bool) : Magnitude → Code
  | .finite significand exponent => signed negative (.numeral (numeral significand exponent))
  | .infinite =>
    .field (.name owner) (if negative then "NEGATIVE_INFINITY" else "POSITIVE_INFINITY")
  | .nan => .field (.name owner) "NaN"

/-- The name of a decimal that has no digits. -/
def decimalName (signaling : Bool) (payload : Nat) : String :=
  String.ofList ((if signaling then ['s'] else []) ++ "NaN".toList ++
    if payload = 0 then [] else decimalDigits payload)

def ofDecimal : Decimal → Code
  | .finite negative coefficient exponent _ =>
    signed negative (.numeral (.plain coefficient exponent))
  | .infinite negative => signed negative (.name "Infinity")
  | .nan negative signaling payload _ => signed negative (.name (decimalName signaling payload))

def ofConstant (value : Value) (ty : HostType) : Code :=
  match value with
  | .null => if ty = .object then .null else .cast .null ty
  | .boolean b => .boolean b
  | .int8 n => .cast (ofInteger n.toInt) (.primitive .byte)
  | .int16 n => .cast (ofInteger n.toInt) (.primitive .short)
  | .int32 n => ofInteger n.toInt
  | .int64 n => signed (n.toInt < 0) (.numeral (.long n.toInt.natAbs))
  | .float x => ofFloat "Float" .single x.negative x.magnitude
  | .double x => ofFloat "Double" .double x.negative x.magnitude
  | .decimal d => ofDecimal d
  | .string s => .string s

def isPrefixed : Code → Bool
  | unary _ _ | cast _ _ => true
  | _ => false

/-- Something is done to what the operators and the casts in front are applied to. -/
def underPrefixes : Code → (Code → Code) → Code
  | unary op c, f => unary op (underPrefixes c f)
  | cast c ty, f => cast (underPrefixes c f) ty
  | c, f => f c

end Code

namespace Expr

mutual

/-- What the code of the expression says. -/
def code : Expr → Code
  | constant value ty => .ofConstant value ty
  | var v => .name v.name
  | call target method args _ => .call (code target) method (codes args)
  | staticCall owner method args _ => .call (.name owner) method (codes args)
  | construct ty args => .construct ty (codes args)
  | binary op left right _ => .binary op (code left) (code right)
  | unary op operand _ => .unary op (code operand)
  | conditional test ifTrue ifFalse _ => .conditional (code test) (code ifTrue) (code ifFalse)
  | cast operand ty => .cast (code operand) ty
  | element array index _ => .element (code array) index
  | lambda parameters body => .lambda (parameters.map Variable.name) (code body)

def codes : List Expr → List Code
  | [] => []
  | e :: rest => code e :: codes rest

end

mutual

/-- How an operand is read if something is done to it right after it: a call or an access is made on
what stands next to it, which is not the code of an operand that opens with an operator or a cast
and has no parentheses. -/
def reading : Expr → (Code → Code) → Code
  | constant value ty, f => (Code.ofConstant value ty).underPrefixes f
  | var v, f => f (.name v.name)
  | call target method args _, f =>
    reading target fun receiver => f (.call receiver method (readings args))
  | staticCall owner method args _, f => f (.call (.name owner) method (readings args))
  | construct ty args, f => f (.construct ty (readings args))
  | binary op left right _, f => f (.binary op (reading left id) (reading right id))
  | unary op operand _, f => .unary op (reading operand f)
  | conditional test ifTrue ifFalse _, f =>
    f (.conditional (reading test id) (reading ifTrue id) (reading ifFalse id))
  | cast operand ty, f => f (.cast (reading operand id) ty)
  | element array index _, f => reading array fun receiver => f (.element receiver index)
  | lambda parameters body, f => f (.lambda (parameters.map Variable.name) (reading body id))

def readings : List Expr → List Code
  | [] => []
  | e :: rest => reading e id :: readings rest

end

mutual

/-- The expression without the types that are not written. -/
def erased : Expr → Expr
  | constant value ty => constant value (if value = .null then ty else .object)
  | var v => var ⟨v.name, .object⟩
  | call target method args _ => call (erased target) method (erasedAll args) .object
  | staticCall owner method args _ => staticCall owner method (erasedAll args) .object
  | construct ty args => construct ty (erasedAll args)
  | binary op left right _ => binary op (erased left) (erased right) .object
  | unary op operand _ => unary op (erased operand) .object
  | conditional test ifTrue ifFalse _ =>
    conditional (erased test) (erased ifTrue) (erased ifFalse) .object
  | cast operand ty => cast (erased operand) ty
  | element array index _ => element (erased array) index .object
  | lambda parameters body =>
    lambda (parameters.map fun p => ⟨p.name, .object⟩) (erased body)

def erasedAll : List Expr → List Expr
  | [] => []
  | e :: rest => erased e :: erasedAll rest

end

/-- Whether the expression stands without parentheses and starts with an operator or a cast. -/
def opensWithPrefix (e : Expr) : Bool := !e.needsParens && e.code.isPrefixed

/-! The names in an expression, and what its calls and accesses are made on. -/

mutual

def names : Expr → List String
  | constant _ _ => []
  | var v => [v.name]
  | call target method args _ => names target ++ method :: namesOfAll args
  | staticCall owner method args _ => owner :: method :: namesOfAll args
  | construct _ args => namesOfAll args
  | binary _ left right _ => names left ++ names right
  | unary _ operand _ => names operand
  | conditional test ifTrue ifFalse _ => names test ++ names ifTrue ++ names ifFalse
  | cast operand _ => names operand
  | element array _ _ => names array
  | lambda parameters body => parameters.map Variable.name ++ names body

def namesOfAll : List Expr → List String
  | [] => []
  | e :: rest => names e ++ namesOfAll rest

end

mutual

def receivers : Expr → List Expr
  | constant _ _ | var _ => []
  | call target _ args _ => target :: (receivers target ++ receiversOfAll args)
  | staticCall _ _ args _ => receiversOfAll args
  | construct _ args => receiversOfAll args
  | binary _ left right _ => receivers left ++ receivers right
  | unary _ operand _ => receivers operand
  | conditional test ifTrue ifFalse _ => receivers test ++ receivers ifTrue ++ receivers ifFalse
  | cast operand _ => receivers operand
  | element array _ _ => array :: receivers array
  | lambda _ body => receivers body

def receiversOfAll : List Expr → List Expr
  | [] => []
  | e :: rest => receivers e ++ receiversOfAll rest

end

end Expr

end RowCode
