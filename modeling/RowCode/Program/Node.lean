import RowCode.Sql.Value
import RowCode.Sql.Operator

/-!
# Nodes

The expressions of a program. A node is a tree; sharing is expressed by position, as a local
reference names an earlier expression of its program instead of owning a copy of it.
-/

namespace RowCode

inductive Node where
  | inputRef (index : Nat) (ty : LogicalType)
  | localRef (index : Nat) (ty : LogicalType)
  | literal (value : Value) (ty : LogicalType)
  | call (op : Operator) (operands : List Node) (ty : LogicalType)
  /-- Pairs of a condition and a result, and the result when no condition holds. -/
  | case (branches : List (Node × Node)) (otherwise : Node) (ty : LogicalType)
  /-- Parameter that is bound when the query runs. -/
  | dynamicParam (index : Nat) (ty : LogicalType)

/-- Splits an odd number of items into pairs and a last one. -/
def pairUp? {α : Type} : List α → Option (List (α × α) × α)
  | [] => none
  | [last] => some ([], last)
  | first :: second :: rest =>
    (pairUp? rest).map fun (pairs, last) => ((first, second) :: pairs, last)

namespace Node

def ty : Node → LogicalType
  | inputRef _ ty | localRef _ ty | literal _ ty | call _ _ ty | case _ _ ty
  | dynamicParam _ ty => ty

def operator? : Node → Option Operator
  | call op _ _ => some op
  | case _ _ _ => some .case
  | _ => none

def operands : Node → List Node
  | call _ operands _ => operands
  | _ => []

def kind : Node → String
  | inputRef _ _ => "input reference"
  | localRef _ _ => "local reference"
  | literal _ _ => "literal"
  | call _ _ _ => "call"
  | case _ _ _ => "case"
  | dynamicParam _ _ => "dynamic parameter"

/-- Conditions and results in the order they are written. -/
def flattenBranches : List (Node × Node) → List Node
  | [] => []
  | (condition, result) :: rest => condition :: result :: flattenBranches rest

/-- The nodes directly nested in this one, in the order they are visited. -/
def children : Node → List Node
  | call _ operands _ => operands
  | case branches otherwise _ => flattenBranches branches ++ [otherwise]
  | _ => []

/-- A CASE from its conditions and results in one list, the last of which has no condition. -/
def caseOfFlat? (operands : List Node) (ty : LogicalType) : Option Node :=
  (pairUp? operands).map fun (branches, otherwise) => .case branches otherwise ty

theorem pairUp?_flattenBranches (branches : List (Node × Node)) (otherwise : Node) :
    pairUp? (flattenBranches branches ++ [otherwise]) = some (branches, otherwise) := by
  induction branches with
  | nil => rfl
  | cons branch rest ih => simp [flattenBranches, pairUp?, ih]

theorem caseOfFlat?_children (branches : List (Node × Node)) (otherwise : Node)
    (ty ty' : LogicalType) :
    caseOfFlat? (case branches otherwise ty').children ty = some (.case branches otherwise ty) := by
  simp [children, caseOfFlat?, pairUp?_flattenBranches]

/-! The digest leaves out types and writes a CASE like a call. -/

mutual

def digest : Node → String
  | inputRef index _ => "$" ++ toString index
  | localRef index _ => "$t" ++ toString index
  | literal value _ => value.text
  | call op operands _ => op.text ++ "(" ++ String.intercalate ", " (digests operands) ++ ")"
  | case branches otherwise _ =>
    "CASE(" ++ String.intercalate ", " (branchDigests branches ++ [digest otherwise]) ++ ")"
  | dynamicParam index _ => "?" ++ toString index

def digests : List Node → List String
  | [] => []
  | node :: rest => digest node :: digests rest

def branchDigests : List (Node × Node) → List String
  | [] => []
  | (condition, result) :: rest => digest condition :: digest result :: branchDigests rest

end

/-! Nodes agree when they are the same up to the way their literals are written. -/

mutual

def agrees : Node → Node → Bool
  | inputRef i t, inputRef j u => i = j && t = u
  | localRef i t, localRef j u => i = j && t = u
  | literal v t, literal w u => v.agrees w && t = u
  | call op xs t, call oq ys u => op = oq && allAgree xs ys && t = u
  | case bs x t, case cs y u => branchesAgree bs cs && agrees x y && t = u
  | dynamicParam i t, dynamicParam j u => i = j && t = u
  | _, _ => false

def allAgree : List Node → List Node → Bool
  | [], [] => true
  | x :: xs, y :: ys => agrees x y && allAgree xs ys
  | _, _ => false

def branchesAgree : List (Node × Node) → List (Node × Node) → Bool
  | [], [] => true
  | (c, r) :: xs, (d, s) :: ys => agrees c d && agrees r s && branchesAgree xs ys
  | _, _ => false

end

end Node

end RowCode
