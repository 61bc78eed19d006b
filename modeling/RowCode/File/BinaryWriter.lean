import RowCode.Program.Basic

/-!
# Programs in binary

Numbers have a fixed width and start with their least significant byte. Variants are numbered in 32
bits; lists and texts start with their length in 64 bits.
-/

namespace RowCode

namespace Binary

/-- The lowest `width` bytes of a number, the least significant first. -/
def littleEndian : (width n : Nat) → List UInt8
  | 0, _ => []
  | width + 1, n => UInt8.ofNat n :: littleEndian width (n / 256)

def littleEndianValue : List UInt8 → Nat
  | [] => 0
  | b :: rest => b.toNat + 256 * littleEndianValue rest

theorem length_littleEndian (width n : Nat) : (littleEndian width n).length = width := by
  induction width generalizing n with
  | zero => rfl
  | succ width ih => simp [littleEndian, ih]

theorem littleEndianValue_littleEndian (width n : Nat) (h : n < 256 ^ width) :
    littleEndianValue (littleEndian width n) = n := by
  induction width generalizing n with
  | zero => simp at h; simp [h, littleEndian, littleEndianValue]
  | succ width ih =>
    have hq : n / 256 < 256 ^ width := by
      rw [Nat.pow_succ] at h
      omega
    simp only [littleEndian, littleEndianValue, ih _ hq, UInt8.toNat_ofNat']
    omega

def ofTag (n : Nat) : List UInt8 := littleEndian 4 n

def ofNat (n : Nat) : List UInt8 := littleEndian 8 n

def ofBool (b : Bool) : List UInt8 := [if b then 1 else 0]

def ofString (s : String) : List UInt8 :=
  let bytes := s.toUTF8.data.toList
  ofNat bytes.length ++ bytes

def ofDataType (t : DataType) : List UInt8 := ofTag (DataType.all.idxOf t)

def ofLogicalType (t : LogicalType) : List UInt8 := ofDataType t.dataType ++ ofBool t.nullable

def ofLogicalTypes (ts : List LogicalType) : List UInt8 :=
  ofNat ts.length ++ ts.flatMap ofLogicalType

def ofOperator (op : Operator) : List UInt8 := ofTag (Operator.all.idxOf op)

def ofValue : Value → List UInt8
  | .null => ofTag 0
  | .boolean b => ofTag 1 ++ ofBool b
  | .int8 n => ofTag 2 ++ littleEndian 1 n.toBitVec.toNat
  | .int16 n => ofTag 3 ++ littleEndian 2 n.toBitVec.toNat
  | .int32 n => ofTag 4 ++ littleEndian 4 n.toBitVec.toNat
  | .int64 n => ofTag 5 ++ littleEndian 8 n.toBitVec.toNat
  | .float x => ofTag 6 ++ littleEndian 4 x.bits.toNat
  | .double x => ofTag 7 ++ littleEndian 8 x.bits.toNat
  | .decimal d => ofTag 8 ++ ofString d.text
  | .string s => ofTag 9 ++ ofString s

mutual

def ofNode : Node → List UInt8
  | .inputRef index ty => ofTag 0 ++ ofNat index ++ ofLogicalType ty
  | .localRef index ty => ofTag 1 ++ ofNat index ++ ofLogicalType ty
  | .literal value ty => ofTag 2 ++ ofValue value ++ ofLogicalType ty
  | .call op operands ty =>
    ofTag 3 ++ ofOperator op ++ (ofNat operands.length ++ ofNodes operands) ++ ofLogicalType ty
  | .case branches otherwise ty =>
    ofTag 4 ++ (ofNat branches.length ++ ofBranches branches) ++ ofNode otherwise ++
      ofLogicalType ty
  | .dynamicParam index ty => ofTag 5 ++ ofNat index ++ ofLogicalType ty

def ofNodes : List Node → List UInt8
  | [] => []
  | node :: rest => ofNode node ++ ofNodes rest

def ofBranches : List (Node × Node) → List UInt8
  | [] => []
  | (condition, result) :: rest => ofNode condition ++ ofNode result ++ ofBranches rest

end

def ofNodeList (nodes : List Node) : List UInt8 := ofNat nodes.length ++ ofNodes nodes

def ofCondition : Option Node → List UInt8
  | none => [0]
  | some node => 1 :: ofNode node

def ofProgram (p : Program) : List UInt8 :=
  ofLogicalTypes p.inputRowType ++ ofNodeList p.exprs ++ ofNodeList p.projects ++
    ofCondition p.condition

end Binary

end RowCode
