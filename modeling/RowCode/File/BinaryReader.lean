import RowCode.File.BinaryWriter
import RowCode.File.Fault

/-!
# Programs from binary

Reading undoes writing and ignores what follows the program.
-/

namespace RowCode

namespace BinaryReader

def fail {α : Type} (fault : DecodeFault) : ByteReader α := throw fault

def take (count : Nat) : ByteReader (List UInt8) := fun bytes =>
  if count ≤ bytes.length then .ok (bytes.take count, bytes.drop count)
  else .error .unexpectedEnd

def word (width : Nat) : ByteReader Nat := do
  let bytes ← take width
  pure (Binary.littleEndianValue bytes)

def tag : ByteReader Nat := word 4

def nat : ByteReader Nat := word 8

def boolean : ByteReader Bool := do
  match ← word 1 with
  | 0 => pure false
  | 1 => pure true
  | _ => fail .invalidBoolean

def string : ByteReader String := do
  let length ← nat
  let bytes ← take length
  match String.fromUTF8? ⟨bytes.toArray⟩ with
  | some s => pure s
  | none => fail .invalidUtf8

def oneOf {α : Type} (variants : List α) : ByteReader α := do
  match variants[← tag]? with
  | some a => pure a
  | none => fail .unknownVariant

def items {α : Type} (read : ByteReader α) : (count : Nat) → ByteReader (List α)
  | 0 => pure []
  | count + 1 => do
    let a ← read
    let rest ← items read count
    pure (a :: rest)

def list {α : Type} (read : ByteReader α) : ByteReader (List α) := do
  let count ← nat
  items read count

def dataType : ByteReader DataType := oneOf DataType.all

def operator : ByteReader Operator := oneOf Operator.all

def logicalType : ByteReader LogicalType := do
  let t ← dataType
  let nullable ← boolean
  pure ⟨t, nullable⟩

def decimal : ByteReader Decimal := do
  let text ← string
  match Decimal.ofText? text with
  | some d => pure d
  | none => fail (.invalidDecimal text)

def value : ByteReader Value := do
  match ← tag with
  | 0 => pure .null
  | 1 => Value.boolean <$> boolean
  | 2 => (fun n => .int8 (.ofNat n)) <$> word 1
  | 3 => (fun n => .int16 (.ofNat n)) <$> word 2
  | 4 => (fun n => .int32 (.ofNat n)) <$> word 4
  | 5 => (fun n => .int64 (.ofNat n)) <$> word 8
  | 6 => (fun n => .float ⟨.ofNat n⟩) <$> word 4
  | 7 => (fun n => .double ⟨.ofNat n⟩) <$> word 8
  | 8 => Value.decimal <$> decimal
  | 9 => Value.string <$> string
  | _ => fail .unknownVariant

def pair (node : ByteReader Node) : ByteReader (Node × Node) := do
  let condition ← node
  let result ← node
  pure (condition, result)

/-- A node that holds fewer than `levels` nodes inside one another. -/
def node : (levels : Nat) → ByteReader Node
  | 0 => fail .unexpectedEnd
  | levels + 1 => do
    match ← tag with
    | 0 => do
      let index ← nat
      let ty ← logicalType
      pure (.inputRef index ty)
    | 1 => do
      let index ← nat
      let ty ← logicalType
      pure (.localRef index ty)
    | 2 => do
      let v ← value
      let ty ← logicalType
      pure (.literal v ty)
    | 3 => do
      let op ← operator
      let operands ← list (node levels)
      let ty ← logicalType
      pure (.call op operands ty)
    | 4 => do
      let branches ← list (pair (node levels))
      let otherwise ← node levels
      let ty ← logicalType
      pure (.case branches otherwise ty)
    | 5 => do
      let index ← nat
      let ty ← logicalType
      pure (.dynamicParam index ty)
    | _ => fail .unknownVariant

def condition (node : ByteReader Node) : ByteReader (Option Node) := do
  match ← word 1 with
  | 0 => pure none
  | 1 => some <$> node
  | _ => fail .invalidTag

/-- The parts of a program. A node takes bytes of its own, so no node is deeper than there are
bytes. -/
def parts : ByteReader ProgramParts := do
  let node := node ((← get).length + 1)
  let inputRowType ← list logicalType
  let exprs ← list node
  let projects ← list node
  let condition ← condition node
  pure ⟨inputRowType, exprs, projects, condition⟩

def program : ByteReader Program := do
  match Program.ofParts (← parts) with
  | .ok p => pure p
  | .error fault => throw (.program fault)

end BinaryReader

namespace Binary

def readProgram (bytes : List UInt8) : Except DecodeFault Program :=
  match BinaryReader.program bytes with
  | .ok (p, _) => .ok p
  | .error fault => .error fault

end Binary

end RowCode
