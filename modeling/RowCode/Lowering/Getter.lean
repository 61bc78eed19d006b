import RowCode.Lowering.Literal
import RowCode.Lowering.Slot
import RowCode.Lowering.Strategy

/-!
# Lowering

Lowering walks nodes depth first, operands in order, and goes through slots, so that an expression
that is referred to again is not lowered again. A pass lowers the projections or the condition of a
program into a block, and leaves the block as it was if it fails.

Where fields come from is up to whoever lowers a program. A getter turns the index of a field into
the expression that reads it, and may declare variables on the way.
-/

namespace RowCode

namespace LoweringContext

variable (c : LoweringContext)

def unsupported (node : Node) : LoweringError := .unsupportedExpression node.kind node.digest

def assemble (strategy : Strategy) (node : Node) (args : List Expr) : Lowering Expr :=
  match strategy.assemble? (c.adapter node.ty) args with
  | some e => pure e
  | none => throw (unsupported node)

/-- Finds the expressions that the roots share, if the policy names them. -/
def analyze (roots : List Node) : Lowering Unit := fun s =>
  match c.policy with
  | .all => (.ok (), s)
  | .shared =>
    match Usage.ofRoots? c.program roots with
    | some usage => (.ok (), s.share usage.shared)
    | none => (.error .danglingRoot, s)

def placed (origin : Nat → Origin) (nodes : List Node) : List (Place × Node) :=
  nodes.zipIdx.map fun (node, index) => (.root (origin index), node)

/-- Runs a pass on a block, which is rolled back if the pass fails. -/
def run {α : Type} (block : Block) (pass : Lowering α) : Except LoweringError α × Block :=
  match pass (.start block) with
  | (.ok a, s) => (.ok a, s.block)
  | (.error e, s) => (.error e, s.block.rollback block.length)

end LoweringContext

structure Getter where
  field : Block → Nat → Except LoweringError Expr × Block

namespace Getter

variable (g : Getter) (c : LoweringContext)

def read (index : Nat) : Lowering Expr := fun s =>
  let (result, block) := g.field s.block index
  (result, { s with block })

/-- Lowers the operation of a node, whose operands `args` lowers. -/
def operation (op : Operator) (node : Node) (args : Lowering (List Expr)) : Lowering Expr :=
  match c.table.strategy? op with
  | none => throw (.unsupportedOperator op)
  | some strategy =>
    if strategy.refuses node.children.length then throw (LoweringContext.unsupported node)
    else do
      let args ← args
      c.assemble strategy node args

/-! `follow` lowers what a local reference leads to. -/

mutual

def lowerNode (follow : Nat → LogicalType → Lowering Expr) (place : Place) : Node → Lowering Expr
  | .inputRef index _ => c.withSlot (.node place) (g.read index)
  | .localRef index ty => follow index ty
  | .literal value ty => c.withSlot (.node place) (pure (lowerLiteral c.adapter value ty))
  | .call op operands ty =>
    c.withSlot (.node place) <|
      operation c op (.call op operands ty) (lowerOperands follow place 0 operands)
  | .case branches otherwise ty =>
    c.withSlot (.node place) <|
      operation c .case (.case branches otherwise ty) do
        let args ← lowerBranches follow place 0 branches
        let last ← lowerNode follow (place.child (2 * branches.length)) otherwise
        pure (args ++ [last])
  | .dynamicParam index ty =>
    c.withSlot (.node place) (throw (LoweringContext.unsupported (.dynamicParam index ty)))

/-- Lowers operands in order; `position` is that of the first one. -/
def lowerOperands (follow : Nat → LogicalType → Lowering Expr) (place : Place) (position : Nat) :
    List Node → Lowering (List Expr)
  | [] => pure []
  | node :: rest => do
    let e ← lowerNode follow (place.child position) node
    let es ← lowerOperands follow place (position + 1) rest
    pure (e :: es)

def lowerBranches (follow : Nat → LogicalType → Lowering Expr) (place : Place) (position : Nat) :
    List (Node × Node) → Lowering (List Expr)
  | [] => pure []
  | (condition, result) :: rest => do
    let test ← lowerNode follow (place.child position) condition
    let value ← lowerNode follow (place.child (position + 1)) result
    let es ← lowerBranches follow place (position + 2) rest
    pure (test :: value :: es)

end

/-- Lowers a reference to one of the first `bound` expressions. Its body refers to earlier ones, so
the bound falls to the index. -/
def follow : (bound : Nat) → Nat → LogicalType → Lowering Expr
  | 0, index, ty => throw (LoweringContext.unsupported (.localRef index ty))
  | bound + 1, index, ty =>
    if index = bound then
      c.withSlot (.reference index)
        (match c.program.exprs[index]? with
        | some body => g.lowerNode c (follow bound) (.root (.expr index)) body
        | none => throw (LoweringContext.unsupported (.localRef index ty)))
    else
      follow bound index ty

def lower (place : Place) (node : Node) : Lowering Expr :=
  g.lowerNode c (g.follow c c.program.exprs.length) place node

/-- Lowers the operands of a call that stands at a place; other nodes have none. -/
def lowerOperandsOf (place : Place) (node : Node) : Lowering (List Expr) :=
  g.lowerOperands c (g.follow c c.program.exprs.length) place 0 node.operands

def lowerEach : List (Place × Node) → Lowering (List Expr)
  | [] => pure []
  | (place, node) :: rest => do
    let e ← g.lower c place node
    let es ← lowerEach rest
    pure (e :: es)

def lowerAll (roots : List (Place × Node)) : Lowering (List Expr) := do
  c.analyze (roots.map Prod.snd)
  g.lowerEach c roots

def lowerProjects (block : Block) : Except LoweringError (List Expr) × Block :=
  LoweringContext.run block (g.lowerAll c (LoweringContext.placed .project c.program.projects))

/-- The condition of the program; without one it is true. -/
def lowerCondition (block : Block) : Except LoweringError Expr × Block :=
  match c.program.condition with
  | none => (.ok (.boolean true), block)
  | some condition =>
    LoweringContext.run block do
      c.analyze [condition]
      g.lower c (.root .condition) condition

end Getter

end RowCode
