import RowCode.Proofs.Passes

/-!
# Plain trees

What lowering would produce if nothing were shared: one tree per node, made by going straight through
local references, with every field read from the row itself. There are no slots, no counts of uses
and no variables but the row, so a plain tree does not depend on how anything is named.
-/

namespace RowCode

/-- A context without what naming depends on: fields are read from one row, which is a parameter. -/
structure PlainContext where
  program : Program
  adapter : TypeAdapter
  row : Variable
  layout : RowLayout
  table : OperatorTable

namespace PlainContext

variable (c : PlainContext)

def naming (policy : NamingPolicy) (stem : String) : LoweringContext where
  program := c.program
  adapter := c.adapter
  inputs := [⟨.var c.row, c.layout⟩]
  policy := policy
  stem := stem
  table := c.table

def request (policy : NamingPolicy) (stem : String) (outputs : Outputs) : PassRequest :=
  ⟨c.naming policy stem, outputs⟩

theorem map_snd_items_projects (policy : NamingPolicy) (stem : String) :
    (c.request policy stem .projects).items.map Prod.snd = c.program.projects :=
  LoweringContext.map_snd_placed _ _

def assemble (strategy : Strategy) (node : Node) (args : List Expr) : Except LoweringError Expr :=
  match strategy.assemble? (c.adapter node.ty) args with
  | some e => .ok e
  | none => .error (LoweringContext.unsupported node)

mutual

def treeWith (follow : Nat → LogicalType → Except LoweringError Expr) :
    Node → Except LoweringError Expr
  | .inputRef index _ => c.layout.fieldOf (.var c.row) index
  | .localRef index ty => follow index ty
  | .literal value ty => .ok (lowerLiteral c.adapter value ty)
  | .call op operands ty =>
    match c.table.strategy? op with
    | none => .error (.unsupportedOperator op)
    | some strategy => do
      let args ← treesWith follow operands
      c.assemble strategy (.call op operands ty) args
  | .case branches otherwise ty => do
    let args ← branchTreesWith follow branches
    let last ← treeWith follow otherwise
    c.assemble .case (.case branches otherwise ty) (args ++ [last])
  | .dynamicParam index ty => .error (LoweringContext.unsupported (.dynamicParam index ty))

def treesWith (follow : Nat → LogicalType → Except LoweringError Expr) :
    List Node → Except LoweringError (List Expr)
  | [] => .ok []
  | node :: rest => do
    let e ← treeWith follow node
    let es ← treesWith follow rest
    .ok (e :: es)

def branchTreesWith (follow : Nat → LogicalType → Except LoweringError Expr) :
    List (Node × Node) → Except LoweringError (List Expr)
  | [] => .ok []
  | (condition, result) :: rest => do
    let test ← treeWith follow condition
    let value ← treeWith follow result
    let es ← branchTreesWith follow rest
    .ok (test :: value :: es)

end

def follow : (bound : Nat) → Nat → LogicalType → Except LoweringError Expr
  | 0, index, ty => .error (LoweringContext.unsupported (.localRef index ty))
  | bound + 1, index, ty =>
    if index = bound then
      match c.program.exprs[index]? with
      | some body => c.treeWith (follow bound) body
      | none => .error (LoweringContext.unsupported (.localRef index ty))
    else
      follow bound index ty

def tree (node : Node) : Except LoweringError Expr := c.treeWith (c.follow c.program.exprs.length) node

/-- The trees of the outputs; without a condition, it is true. -/
def trees : Outputs → Except LoweringError (List Expr)
  | .projects => c.program.projects.mapM c.tree
  | .condition =>
    match c.program.condition with
    | none => .ok [.boolean true]
    | some condition => [condition].mapM c.tree

section Sequences

variable {α β ε : Type} {f g : α → Except ε β} {xs : List α} {ys : List β}

theorem mapM_congr_of_mem (h : ∀ x ∈ xs, f x = g x) : xs.mapM f = xs.mapM g := by
  induction xs with
  | nil => rfl
  | cons x rest ih =>
      rw [List.mapM_cons, List.mapM_cons, h x List.mem_cons_self,
        ih fun x hx => h x (List.mem_cons_of_mem _ hx)]

theorem mapM_of_forall₂ (h : List.Forall₂ (fun x y => f x = .ok y) xs ys) :
    xs.mapM f = .ok ys := by
  induction h with
  | nil => rfl
  | cons hxy _ ih =>
      rw [List.mapM_cons, hxy, ih]
      rfl

end Sequences

variable {c} {follow : Nat → LogicalType → Except LoweringError Expr}

theorem treesWith_eq (nodes : List Node) :
    c.treesWith follow nodes = nodes.mapM (c.treeWith follow) := by
  induction nodes with
  | nil => rfl
  | cons node rest ih =>
      rw [treesWith, ih, List.mapM_cons]
      rfl

theorem branchTreesWith_eq (branches : List (Node × Node)) :
    c.branchTreesWith follow branches =
      (Node.flattenBranches branches).mapM (c.treeWith follow) := by
  induction branches with
  | nil => rfl
  | cons branch rest ih =>
      rw [branchTreesWith, ih, Node.flattenBranches, List.mapM_cons, List.mapM_cons]
      simp only [bind_assoc, pure_bind]
      rfl

theorem treeWith_of_operator? {node : Node} {op : Operator} (hop : node.operator? = some op) :
    c.treeWith follow node =
      match c.table.strategy? op with
      | none => .error (.unsupportedOperator op)
      | some strategy => (do
        let args ← node.children.mapM (c.treeWith follow)
        c.assemble strategy node args) := by
  cases node with
  | call op' operands ty =>
      obtain rfl : op' = op := Option.some.inj hop
      rw [treeWith, Node.children, ← treesWith_eq]
  | case branches otherwise ty =>
      obtain rfl : Operator.case = op := Option.some.inj hop
      rw [treeWith, Node.children, List.mapM_append, OperatorTable.strategy?_case,
        branchTreesWith_eq]
      simp
  | inputRef | localRef | literal | dynamicParam => simp [Node.operator?] at hop

theorem treeWith_congr {follow' : Nat → LogicalType → Except LoweringError Expr} {bound : Nat}
    (hsame : ∀ index < bound, follow index = follow' index) {count width : Nat} (node : Node)
    (hnone : node.fault? bound count width = none) :
    c.treeWith follow node = c.treeWith follow' node := by
  induction node using Node.children_induction with
  | step node ih =>
      cases hop : node.operator? with
      | some op =>
          have hchildren : node.children.mapM (c.treeWith follow) =
              node.children.mapM (c.treeWith follow') :=
            mapM_congr_of_mem fun child hchild =>
              ih child hchild (Node.fault?_of_mem_children hnone hchild)
          rw [treeWith_of_operator? hop, treeWith_of_operator? hop, hchildren]
      | none =>
          cases node with
          | localRef index ty =>
              rw [treeWith, treeWith, hsame index (Node.lt_of_localRef_fault? hnone)]
          | inputRef | literal | dynamicParam => rw [treeWith, treeWith]
          | call | case => simp [Node.operator?] at hop

theorem follow_of_lt {index bound : Nat} (h : index < bound) :
    c.follow bound index = c.follow (index + 1) index := by
  induction bound with
  | zero => omega
  | succ bound ih =>
      by_cases hb : index = bound
      · rw [hb]
      · funext ty
        rw [PlainContext.follow, if_neg hb, ih (by omega)]

theorem tree_of_operator? {node : Node} {op : Operator} {strategy : Strategy}
    (hop : node.operator? = some op) (hstrategy : c.table.strategy? op = some strategy) :
    c.tree node = (do
      let args ← node.children.mapM c.tree
      c.assemble strategy node args) := by
  rw [tree, treeWith_of_operator? hop, hstrategy]
  rfl

/-- **References are seen through.** A reference has the tree of what it refers to. -/
theorem tree_localRef {index : Nat} {ty : LogicalType} {body : Node}
    (hbody : c.program.exprs[index]? = some body) : c.tree (.localRef index ty) = c.tree body := by
  have hindex : index < c.program.exprs.length := (List.getElem?_eq_some_iff.mp hbody).1
  rw [tree, treeWith, follow_of_lt hindex, PlainContext.follow, if_pos rfl, hbody]
  refine treeWith_congr (fun earlier hearlier => ?_) body (Program.fault?_of_expr hbody)
  rw [follow_of_lt hearlier, follow_of_lt (Nat.lt_trans hearlier hindex)]

end PlainContext

end RowCode
