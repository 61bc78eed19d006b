import RowCode.Program.Basic

/-!
# Building programs

A builder keeps one expression per digest and type, so that registering the same expression twice
gives the same reference.
-/

namespace RowCode

structure ProgramBuilder where
  inputRowType : List LogicalType
  exprs : List Node
  projects : List Node
  condition : Option Node

namespace ProgramBuilder

def empty (inputRowType : List LogicalType) : ProgramBuilder := ⟨inputRowType, [], [], none⟩

def key (node : Node) : String := node.digest ++ ":" ++ node.ty.text

/-- A reference to the expression, which is added if there is none with its key. A local reference
is its own. -/
def register (b : ProgramBuilder) (node : Node) : Node × ProgramBuilder :=
  match node with
  | .localRef _ _ => (node, b)
  | node =>
    match b.exprs.findIdx? fun expr => key expr = key node with
    | some index => (.localRef index node.ty, b)
    | none => (.localRef b.exprs.length node.ty, { b with exprs := b.exprs ++ [node] })

def registerAll (b : ProgramBuilder) : List Node → List Node × ProgramBuilder
  | [] => ([], b)
  | node :: rest =>
    let (ref, b) := b.register node
    let (refs, b) := registerAll b rest
    (ref :: refs, b)

def registerBranches (b : ProgramBuilder) :
    List (Node × Node) → List (Node × Node) × ProgramBuilder
  | [] => ([], b)
  | (condition, result) :: rest =>
    let (conditionRef, b) := b.register condition
    let (resultRef, b) := b.register result
    let (refs, b) := registerBranches b rest
    ((conditionRef, resultRef) :: refs, b)

def inputRef (b : ProgramBuilder) (index : Nat) : Except ProgramError (Node × ProgramBuilder) :=
  match b.inputRowType[index]? with
  | some ty => .ok (b.register (.inputRef index ty))
  | none => .error (.inputIndexOutOfBounds index b.inputRowType.length)

def literal (b : ProgramBuilder) (value : Value) (ty : LogicalType) : Node × ProgramBuilder :=
  b.register (.literal value ty)

def call (b : ProgramBuilder) (op : Operator) (operands : List Node) (ty : LogicalType) :
    Node × ProgramBuilder :=
  let (refs, b) := b.registerAll operands
  b.register (.call op refs ty)

/-- Registers each condition and its result in turn, and the otherwise result last. -/
def case (b : ProgramBuilder) (branches : List (Node × Node)) (otherwise : Node)
    (ty : LogicalType) : Node × ProgramBuilder :=
  let (branches, b) := b.registerBranches branches
  let (otherwise, b) := b.register otherwise
  b.register (.case branches otherwise ty)

def addProject (b : ProgramBuilder) (node : Node) : ProgramBuilder :=
  let (ref, b) := b.register node
  { b with projects := b.projects ++ [ref] }

def setCondition (b : ProgramBuilder) (node : Node) : ProgramBuilder :=
  let (ref, b) := b.register node
  { b with condition := some ref }

def build (b : ProgramBuilder) : Except ProgramError Program :=
  Program.ofParts ⟨b.inputRowType, b.exprs, b.projects, b.condition⟩

end ProgramBuilder

end RowCode
