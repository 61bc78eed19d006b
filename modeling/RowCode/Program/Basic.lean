import RowCode.Program.Error
import RowCode.Program.Node

/-!
# Programs

A program is a list of expressions, each of which refers only to earlier ones, and its outputs:
projections and perhaps a condition, which are references into the list. The parts of a program are
checked when it is made, and the first fault is reported.
-/

namespace RowCode

structure ProgramParts where
  inputRowType : List LogicalType
  exprs : List Node
  projects : List Node
  condition : Option Node

namespace Node

/-- The fault of a node that has no nodes nested in it, as part of expression `position` of `count`
over a row of `width` fields. -/
def ownFault? (position count width : Nat) : Node → Option ProgramError
  | localRef index _ =>
    if count ≤ index then some (.localIndexOutOfBounds index count)
    else if position ≤ index then some (.forwardReference position index)
    else none
  | literal value ty =>
    if value.fits ty.dataType then none else some (.literalTypeMismatch value.text ty)
  | inputRef index _ =>
    if width ≤ index then some (.inputIndexOutOfBounds index width) else none
  | _ => none

/-! The first fault in the order in which the digest names the nodes. -/

mutual

def fault? (position count width : Nat) : Node → Option ProgramError
  | call _ operands _ => listFault? position count width operands
  | case branches otherwise _ =>
    (branchFault? position count width branches).or (fault? position count width otherwise)
  | node => node.ownFault? position count width

def listFault? (position count width : Nat) : List Node → Option ProgramError
  | [] => none
  | node :: rest => (fault? position count width node).or (listFault? position count width rest)

def branchFault? (position count width : Nat) : List (Node × Node) → Option ProgramError
  | [] => none
  | (condition, result) :: rest =>
    (fault? position count width condition).or
      ((fault? position count width result).or (branchFault? position count width rest))

end

def outputFault? (count : Nat) : Node → Option ProgramError
  | localRef index _ =>
    if index < count then none else some (.localIndexOutOfBounds index count)
  | node => some (.notALocalRef node.digest)

def exprFault? (count width : Nat) : Nat → List Node → Option ProgramError
  | _, [] => none
  | position, node :: rest =>
    (node.fault? position count width).or (exprFault? count width (position + 1) rest)

end Node

namespace ProgramParts

def outputs (parts : ProgramParts) : List Node := parts.projects ++ parts.condition.toList

/-- The first fault: of the expressions in order, then of the projections, then of the condition. -/
def fault? (parts : ProgramParts) : Option ProgramError :=
  (Node.exprFault? parts.exprs.length parts.inputRowType.length 0 parts.exprs).or
    (parts.outputs.findSome? (Node.outputFault? parts.exprs.length))

end ProgramParts

/-- A program whose parts have no fault. -/
structure Program extends ProgramParts where
  faultless : toProgramParts.fault? = none

namespace Program

def ofParts (parts : ProgramParts) : Except ProgramError Program :=
  match h : parts.fault? with
  | none => .ok ⟨parts, h⟩
  | some fault => .error fault

def outputRowType (p : Program) : List LogicalType := p.projects.map Node.ty

def exprLines : Nat → List Node → String
  | _, [] => ""
  | index, node :: rest =>
    "  $t" ++ toString index ++ " = " ++ node.digest ++ "\n" ++ exprLines (index + 1) rest

def text (p : Program) : String :=
  "exprs:\n" ++ exprLines 0 p.exprs ++
    "projects: [" ++ String.intercalate ", " (p.projects.map Node.digest) ++ "]" ++
    match p.condition with
    | none => ""
    | some condition => "\ncondition: " ++ condition.digest

/-- Whether two programs are the same up to the way their literals are written. -/
def agrees (p q : Program) : Bool :=
  p.inputRowType = q.inputRowType && Node.allAgree p.exprs q.exprs &&
    Node.allAgree p.projects q.projects &&
    Node.allAgree p.condition.toList q.condition.toList

end Program

end RowCode
