/-!
# Host types

The host has primitive kinds and, for each, a box that may also be null.
-/

namespace RowCode

inductive Primitive where
  | boolean | byte | char | short | int | long | float | double
  deriving DecidableEq, Repr

namespace Primitive

def all : List Primitive := [.boolean, .byte, .char, .short, .int, .long, .float, .double]

def name : Primitive → String
  | .boolean => "boolean"
  | .byte => "byte"
  | .char => "char"
  | .short => "short"
  | .int => "int"
  | .long => "long"
  | .float => "float"
  | .double => "double"

def boxName : Primitive → String
  | .boolean => "Boolean"
  | .byte => "Byte"
  | .char => "Character"
  | .short => "Short"
  | .int => "Integer"
  | .long => "Long"
  | .float => "Float"
  | .double => "Double"

/-- The method of a box that reads it as this primitive. -/
def valueMethod (p : Primitive) : String := p.name ++ "Value"

end Primitive

inductive HostType where
  | primitive (p : Primitive)
  | boxed (p : Primitive)
  | string
  | decimal
  | bigInteger
  | object
  | array (component : HostType)
  deriving DecidableEq, Repr

namespace HostType

abbrev boolean : HostType := .primitive .boolean

abbrev int : HostType := .primitive .int

abbrev long : HostType := .primitive .long

/-- The shape of an input row whose fields are untyped. -/
abbrev objectArray : HostType := .array .object

def primitive? : HostType → Option Primitive
  | .primitive p => some p
  | _ => none

def unboxed? : HostType → Option Primitive
  | .boxed p => some p
  | _ => none

def isPrimitive (t : HostType) : Bool := t.primitive?.isSome

def isNullable (t : HostType) : Bool := !t.isPrimitive

/-- The box of a primitive; every other type is its own. -/
def box : HostType → HostType
  | .primitive p => .boxed p
  | t => t

/-- Whether arithmetic goes through methods of the value. -/
def isArbitraryPrecision : HostType → Bool
  | .decimal | .bigInteger => true
  | _ => false

def text : HostType → String
  | .primitive p => p.name
  | .boxed p => p.boxName
  | .string => "String"
  | .decimal => "BigDecimal"
  | .bigInteger => "BigInteger"
  | .object => "Object"
  | .array component => component.text ++ "[]"

end HostType

end RowCode
