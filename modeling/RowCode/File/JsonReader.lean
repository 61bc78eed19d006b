import RowCode.File.JsonToken
import RowCode.File.Names
import RowCode.Program.Basic

/-!
# Programs from JSON

A program is read in one go, and reading stops at the first fault. Lists and objects may be nested
to a fixed depth. A record is an object, in which unknown members are skipped and no member may be
missing or come twice, or a list of its fields in order. A variant is an object with one member, or
its name alone if it has no payload.
-/

namespace RowCode

namespace JsonReader

open JsonToken

def nestingLimit : Nat := 127

def fail {α : Type} : ByteReader α := throw .malformed

def ofOption {α : Type} (result : Option α) : ByteReader α :=
  match result with
  | some a => pure a
  | none => fail

/-- Applies a function that gives a value and the bytes that follow. -/
def take {α : Type} (f : List UInt8 → Option (α × List UInt8)) : ByteReader α := fun bytes =>
  match f bytes with
  | some result => .ok result
  | none => .error .malformed

def advance (f : List UInt8 → Option (List UInt8)) : ByteReader Unit :=
  take fun bytes => (f bytes).map fun rest => ((), rest)

/-- The next byte after white space, which is left unread; none at the end. -/
def peek : ByteReader (Option UInt8) := fun bytes =>
  let bytes := dropSpace bytes
  .ok (bytes.head?, bytes)

def skipByte : ByteReader Unit := fun bytes => .ok ((), bytes.tail)

def expect (c : Char) : ByteReader Unit := do
  if (← peek) = some c.toUInt8 then skipByte else fail

def enter (depth : Nat) : ByteReader Nat :=
  match depth with
  | 0 => fail
  | depth + 1 => pure depth

/-- The rest of a string whose opening quote has been read. -/
def restOfString : ByteReader String := do
  let content ← take stringBody?
  ofOption (String.fromUTF8? ⟨content.toArray⟩)

def string : ByteReader String := do
  expect '"'
  restOfString

def number : ByteReader JsonNumber := do
  let _ ← peek
  take JsonNumber.read?

def integer (low high : Int) : ByteReader Int := do
  match (← number).integer? with
  | some n => if low ≤ n ∧ n ≤ high then pure n else fail
  | none => fail

def signed (bits : Nat) : ByteReader Int :=
  integer (-(JsonNumber.signedMax bits : Int) - 1) (JsonNumber.signedMax bits)

def index : ByteReader Nat := do
  let n ← integer 0 (JsonNumber.unsignedMax 64)
  pure n.toNat

def single : ByteReader Single := do ofOption (← number).toSingle?

def double : ByteReader Double := do ofOption (← number).toDouble?

def boolean : ByteReader Bool := do
  match ← peek with
  | some b =>
    if b = 't'.toUInt8 then
      advance (word? ['t', 'r', 'u', 'e'])
      pure true
    else if b = 'f'.toUInt8 then
      advance (word? ['f', 'a', 'l', 's', 'e'])
      pure false
    else fail
  | none => fail

def null : ByteReader Unit := do
  let _ ← peek
  advance (word? ['n', 'u', 'l', 'l'])

def optional {α : Type} (read : ByteReader α) : ByteReader (Option α) := do
  if (← peek) = some 'n'.toUInt8 then
    null
    pure none
  else
    let a ← read
    pure (some a)

/-- Whether another item follows in a list, after the comma before it. -/
def nextItem (first : Bool) : ByteReader Bool := do
  let b ← peek
  if b = some ']'.toUInt8 then pure false
  else if first then
    if b = none then fail else pure true
  else
    expect ','
    let b ← peek
    if b = none ∨ b = some ']'.toUInt8 then fail else pure true

/-- The items of a list up to its closing bracket; there are fewer than `fuel` of them. -/
def items {α : Type} (read : ByteReader α) : (fuel : Nat) → (first : Bool) → ByteReader (List α)
  | 0, _ => fail
  | fuel + 1, first => do
    if ← nextItem first then
      let a ← read
      let rest ← items read fuel false
      pure (a :: rest)
    else pure []

def list {α : Type} (depth : Nat) (read : Nat → ByteReader α) : ByteReader (List α) := do
  expect '['
  let inner ← enter depth
  let bytes ← get
  let result ← items (read inner) (bytes.length + 1) true
  expect ']'
  pure result

def pair {α : Type} (depth : Nat) (read : Nat → ByteReader α) : ByteReader (α × α) := do
  expect '['
  let inner ← enter depth
  if ← nextItem true then
    let a ← read inner
    if ← nextItem false then
      let b ← read inner
      expect ']'
      pure (a, b)
    else fail
  else fail

/-- The name of the next member of an object, after the comma before it; none at the end. -/
def nextName (first : Bool) : ByteReader (Option String) := do
  let b ← peek
  if b = some '\x7d'.toUInt8 then pure none
  else
    unless first do expect ','
    let name ← string
    pure (some name)

structure Field (σ : Type) where
  name : String
  present : σ → Bool
  read : (depth : Nat) → σ → ByteReader σ

def field {α σ : Type} (name : String) (get : σ → Option α) (put : σ → α → σ)
    (read : (depth : Nat) → ByteReader α) : Field σ where
  name := name
  present record := (get record).isSome
  read depth record := do
    let a ← read depth
    pure (put record a)

/-- The members of an object. A field that comes twice is refused before its value is read. -/
def members {σ : Type} (fields : List (Field σ)) (depth : Nat) :
    (fuel : Nat) → (first : Bool) → σ → ByteReader σ
  | 0, _, _ => fail
  | fuel + 1, first, record => do
    match ← nextName first with
    | none => pure record
    | some name =>
      match fields.find? fun field => field.name = name with
      | none => do
        expect ':'
        advance skipValue?
        members fields depth fuel false record
      | some field =>
        if field.present record then fail
        else do
          expect ':'
          let record ← field.read depth record
          members fields depth fuel false record

/-- The fields of a record written as a list; it may end early. -/
def inOrder {σ : Type} (depth : Nat) : List (Field σ) → (first : Bool) → σ → ByteReader σ
  | [], _, record => pure record
  | field :: rest, first, record => do
    if ← nextItem first then
      let record ← field.read depth record
      inOrder depth rest false record
    else pure record

/-- A record in either form. `finish` refuses one that lacks a field. -/
def record {α σ : Type} (empty : σ) (fields : List (Field σ)) (finish : σ → Option α)
    (depth : Nat) : ByteReader α := do
  match ← peek with
  | some b =>
    if b = '\x7b'.toUInt8 then
      skipByte
      let inner ← enter depth
      let bytes ← get
      let fields ← members fields inner (bytes.length + 1) true empty
      let result ← ofOption (finish fields)
      expect '\x7d'
      pure result
    else if b = '['.toUInt8 then
      skipByte
      let inner ← enter depth
      let fields ← inOrder inner fields true empty
      let result ← ofOption (finish fields)
      expect ']'
      pure result
    else fail
  | none => fail

/-- A variant. `plain` are those that have no payload. -/
def variant {α : Type} (depth : Nat) (plain : String → Option α)
    (payload : (depth : Nat) → String → Option (ByteReader α)) : ByteReader α := do
  match ← peek with
  | some b =>
    if b = '"'.toUInt8 then
      skipByte
      let name ← restOfString
      ofOption (plain name)
    else if b = '\x7b'.toUInt8 then
      skipByte
      let inner ← enter depth
      let name ← string
      match plain name, payload inner name with
      | some a, _ => do
        expect ':'
        null
        expect '\x7d'
        pure a
      | none, some read => do
        expect ':'
        let a ← read
        expect '\x7d'
        pure a
      | none, none => fail
    else fail
  | none => fail

def noPayload {α : Type} : (depth : Nat) → String → Option (ByteReader α) := fun _ _ => none

def dataType (depth : Nat) : ByteReader DataType := variant depth DataType.ofFileName? noPayload

def operator (depth : Nat) : ByteReader Operator := variant depth Operator.ofFileName? noPayload

def logicalType : (depth : Nat) → ByteReader LogicalType :=
  record (none, none)
    [field "data_type" Prod.fst (fun (_, n) t => (some t, n)) dataType,
      field "nullable" Prod.snd (fun (t, _) n => (t, some n)) fun _ => boolean]
    fun (t, n) => do pure ⟨← t, ← n⟩

def decimal : ByteReader Decimal := do
  let text ← string
  match Decimal.ofText? text with
  | some d => pure d
  | none => throw (.invalidDecimal text)

def valuePayload (name : String) : Option (ByteReader Value) :=
  match name with
  | "Boolean" => some (Value.boolean <$> boolean)
  | "Int8" => some ((fun n => .int8 (.ofInt n)) <$> signed 8)
  | "Int16" => some ((fun n => .int16 (.ofInt n)) <$> signed 16)
  | "Int32" => some ((fun n => .int32 (.ofInt n)) <$> signed 32)
  | "Int64" => some ((fun n => .int64 (.ofInt n)) <$> signed 64)
  | "Float" => some (Value.float <$> single)
  | "Double" => some (Value.double <$> double)
  | "Decimal" => some (Value.decimal <$> decimal)
  | "String" => some (Value.string <$> string)
  | _ => none

def value (depth : Nat) : ByteReader Value :=
  variant depth (fun name => if name = "Null" then some .null else none)
    fun _ name => valuePayload name

def indexed (make : Nat → LogicalType → Node) : (depth : Nat) → ByteReader Node :=
  record (none, none)
    [field "index" Prod.fst (fun (_, t) i => (some i, t)) fun _ => index,
      field "ty" Prod.snd (fun (i, _) t => (i, some t)) logicalType]
    fun (i, t) => do pure (make (← i) (← t))

def literal : (depth : Nat) → ByteReader Node :=
  record (none, none)
    [field "value" Prod.fst (fun (_, t) v => (some v, t)) value,
      field "ty" Prod.snd (fun (v, _) t => (v, some t)) logicalType]
    fun (v, t) => do pure (.literal (← v) (← t))

def call (node : (depth : Nat) → ByteReader Node) : (depth : Nat) → ByteReader Node :=
  record (none, none, none)
    [field "op" (fun (op, _, _) => op) (fun (_, xs, t) op => (some op, xs, t)) operator,
      field "operands" (fun (_, xs, _) => xs) (fun (op, _, t) xs => (op, some xs, t))
        fun depth => list depth node,
      field "ty" (fun (_, _, t) => t) (fun (op, xs, _) t => (op, xs, some t)) logicalType]
    fun (op, xs, t) => do pure (.call (← op) (← xs) (← t))

def case (node : (depth : Nat) → ByteReader Node) : (depth : Nat) → ByteReader Node :=
  record (none, none, none)
    [field "branches" (fun (bs, _, _) => bs) (fun (_, x, t) bs => (some bs, x, t))
        fun depth => list depth fun depth => pair depth node,
      field "otherwise" (fun (_, x, _) => x) (fun (bs, _, t) x => (bs, some x, t)) node,
      field "ty" (fun (_, _, t) => t) (fun (bs, x, _) t => (bs, x, some t)) logicalType]
    fun (bs, x, t) => do pure (.case (← bs) (← x) (← t))

def nodePayload (node : (depth : Nat) → ByteReader Node) (depth : Nat) (name : String) :
    Option (ByteReader Node) :=
  match name with
  | "InputRef" => some (indexed .inputRef depth)
  | "LocalRef" => some (indexed .localRef depth)
  | "Literal" => some (literal depth)
  | "Call" => some (call node depth)
  | "Case" => some (case node depth)
  | "DynamicParam" => some (indexed .dynamicParam depth)
  | _ => none

/-- A node that holds fewer than `levels` nodes inside one another. -/
def node : (levels depth : Nat) → ByteReader Node
  | 0, _ => fail
  | levels + 1, depth => variant depth (fun _ => none) (nodePayload (node levels))

/-- The parts of a program; the condition may be missing. -/
def parts : (depth : Nat) → ByteReader ProgramParts :=
  let node := node nestingLimit
  record (none, none, none, none)
    [field "input_row_type" (fun (row, _) => row) (fun (_, rest) row => (some row, rest))
        fun depth => list depth logicalType,
      field "exprs" (fun (_, es, _) => es) (fun (row, _, rest) es => (row, some es, rest))
        fun depth => list depth node,
      field "projects" (fun (_, _, ps, _) => ps) (fun (row, es, _, c) ps => (row, es, some ps, c))
        fun depth => list depth node,
      field "condition" (fun (_, _, _, c) => c) (fun (row, es, ps, _) c => (row, es, ps, some c))
        fun depth => optional (node depth)]
    fun (row, es, ps, c) => do pure ⟨← row, ← es, ← ps, c.join⟩

def program : ByteReader Program := do
  let parts ← parts nestingLimit
  match Program.ofParts parts with
  | .ok p => pure p
  | .error fault => throw (.program fault)

end JsonReader

namespace Json

def readProgram (bytes : List UInt8) : Except DecodeFault Program :=
  match JsonReader.program bytes with
  | .error fault => .error fault
  | .ok (p, rest) => if JsonToken.dropSpace rest = [] then .ok p else .error .malformed

end Json

end RowCode
