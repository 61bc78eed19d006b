import Mathlib.Algebra.Group.Nat.Defs
import RowCode.File.BinaryWriter
import RowCode.Proofs.Reachability

/-!
# Programs that are stored

What the forms of program files have in common: the nodes that a program holds, how deep they are
nested, the indexes and lengths that 64 bits can hold, and what a program that was accepted promises
of its nodes.
-/

namespace RowCode

namespace Value

def isDecimal : Value → Bool
  | .decimal _ => true
  | _ => false

/-- Whether 64 bits are enough for the length in bytes. -/
def fitsWords : Value → Bool
  | .string s => s.utf8ByteSize < 2 ^ 64
  | _ => true

end Value

namespace Node

theorem forall_mem_nodes {P : Node → Prop} {node : Node} :
    (∀ part ∈ node.nodes, P part) ↔
      P node ∧ ∀ child ∈ node.children, ∀ part ∈ child.nodes, P part := by
  simp only [nodes_eq node, List.forall_mem_cons, List.mem_flatMap]
  grind

/-! How many nodes are nested inside one another within a node. -/

mutual

def nesting : Node → Nat
  | call _ operands _ => nestingWithin operands
  | case branches otherwise _ => max (nestingWithinBranches branches) (nesting otherwise + 1)
  | _ => 0

def nestingWithin : List Node → Nat
  | [] => 0
  | node :: rest => max (nesting node + 1) (nestingWithin rest)

def nestingWithinBranches : List (Node × Node) → Nat
  | [] => 0
  | (condition, result) :: rest =>
    max (nesting condition + 1) (max (nesting result + 1) (nestingWithinBranches rest))

end

theorem nestingWithin_append (left right : List Node) :
    nestingWithin (left ++ right) = max (nestingWithin left) (nestingWithin right) := by
  induction left with
  | nil => simp [nestingWithin]
  | cons node rest ih => rw [List.cons_append, nestingWithin, nestingWithin, ih, Nat.max_assoc]

theorem nestingWithinBranches_eq (branches : List (Node × Node)) :
    nestingWithinBranches branches = nestingWithin (flattenBranches branches) := by
  induction branches with
  | nil => rfl
  | cons branch rest ih =>
      rw [nestingWithinBranches, ih, flattenBranches, nestingWithin, nestingWithin]

theorem nesting_eq (node : Node) : node.nesting = nestingWithin node.children := by
  cases node with
  | call op operands ty => rfl
  | case branches otherwise ty =>
      rw [nesting, nestingWithinBranches_eq, children, nestingWithin_append, nestingWithin,
        nestingWithin, Nat.max_zero]
  | inputRef | localRef | literal | dynamicParam => rfl

theorem nestingWithin_le_iff {nodes : List Node} {bound : Nat} :
    nestingWithin nodes ≤ bound ↔ ∀ node ∈ nodes, node.nesting + 1 ≤ bound := by
  induction nodes with
  | nil => simp [nestingWithin]
  | cons node rest ih => rw [nestingWithin, Nat.max_le, ih, List.forall_mem_cons]

theorem nesting_lt_of_mem_children {node child : Node} (hmem : child ∈ node.children) :
    child.nesting < node.nesting :=
  nestingWithin_le_iff.mp (Nat.le_of_eq node.nesting_eq.symm) child hmem

def isDecimal : Node → Bool
  | literal value _ => value.isDecimal
  | _ => false

/-- Whether 64 bits are enough for the index or the length in the node itself. -/
def fitsWords : Node → Bool
  | inputRef index _ | localRef index _ | dynamicParam index _ => index < 2 ^ 64
  | literal value _ => value.fitsWords
  | call _ operands _ => operands.length < 2 ^ 64
  | case branches _ _ => branches.length < 2 ^ 64

/-- Whether 64 bits are enough throughout the node. -/
def AllFitWords (node : Node) : Prop := ∀ part ∈ node.nodes, part.fitsWords = true

/-- Whether no literal within the node is a decimal. -/
def HoldsNoDecimal (node : Node) : Prop := ∀ part ∈ node.nodes, part.isDecimal = false

/-- What is asked of a node, wherever it is nested in expression `position` over a row of `width`
fields. -/
def IsSound (position width : Nat) : Node → Prop
  | inputRef index _ => index < width
  | localRef index _ => index < position
  | literal value ty => value.fits ty.dataType = true
  | _ => True

theorem isSound_of_fault? {position count width : Nat} {node : Node}
    (hnone : node.fault? position count width = none) : node.IsSound position width := by
  cases node with
  | localRef index ty => exact lt_of_localRef_fault? hnone
  | inputRef index ty => exact lt_of_inputRef_fault? hnone
  | literal value ty =>
      rw [fault?.eq_def] at hnone
      simp only [ownFault?] at hnone
      split at hnone
      · assumption
      · cases hnone
  | call | case | dynamicParam => trivial

end Node

namespace ProgramParts

variable (p : ProgramParts)

/-- Every node of the expressions and of the outputs. -/
def nodes : List Node := (p.exprs ++ p.outputs).flatMap Node.nodes

variable {p} in
theorem forall_mem_nodes {P : Node → Prop} :
    (∀ node ∈ p.nodes, P node) ↔ (∀ expr ∈ p.exprs, ∀ part ∈ expr.nodes, P part) ∧
      (∀ project ∈ p.projects, ∀ part ∈ project.nodes, P part) ∧
        ∀ condition ∈ p.condition.toList, ∀ part ∈ condition.nodes, P part := by
  simp only [nodes, outputs, List.mem_flatMap, List.mem_append]
  grind

/-- Whether 64 bits are enough for every index and every length. -/
def fitsWords : Bool :=
  p.inputRowType.length < 2 ^ 64 && p.exprs.length < 2 ^ 64 && p.projects.length < 2 ^ 64 &&
    p.nodes.all Node.fitsWords

variable {p} in
theorem of_fitsWords (hp : p.fitsWords = true) :
    p.inputRowType.length < 2 ^ 64 ∧ p.exprs.length < 2 ^ 64 ∧ p.projects.length < 2 ^ 64 ∧
      ∀ node ∈ p.nodes, node.fitsWords = true := by
  simpa [fitsWords, and_assoc] using hp

/-- References lead to earlier expressions, fields are those of the row, literals fit their types
and outputs are references. -/
structure WellFormed : Prop where
  sound : ∀ (position : Nat) (expr : Node), p.exprs[position]? = some expr →
    ∀ node ∈ expr.nodes, node.IsSound position p.inputRowType.length
  outputs : ∀ output ∈ p.outputs, ∃ index ty, output = .localRef index ty ∧ index < p.exprs.length

end ProgramParts

namespace Program

theorem ofParts_toProgramParts (p : Program) : ofParts p.toProgramParts = .ok p := by
  unfold ofParts
  split
  · rfl
  · rename_i fault hfault
    cases p.faultless.symm.trans hfault

theorem of_ofParts_ok {parts : ProgramParts} {p : Program} (h : ofParts parts = .ok p) :
    parts = p.toProgramParts := by
  unfold ofParts at h
  split at h
  · obtain rfl := Except.ok.inj h
    rfl
  · cases h

theorem wellFormed (p : Program) : p.toProgramParts.WellFormed where
  sound _ _ hexpr _ hnode :=
    Node.isSound_of_fault? (Node.fault?_of_mem_nodes (Program.fault?_of_expr hexpr) hnode)
  outputs _ houtput := Program.of_mem_outputs houtput

end Program

end RowCode
