import RowCode.Lowering.Pass
import RowCode.Proofs.NodeTree

/-!
# Lowering, node by node

With any getter, what a node is lowered to is put together from what its operands are lowered to, and
a reference is lowered by lowering the expression that it leads to. These equations know nothing of
bounds, and what holds of nodes by them holds by induction over a program.
-/

namespace RowCode

namespace Program

/-- References lead backward, so that what holds of a node whenever it holds of what the node is made
of, or refers to, holds of every node, also of one that refers to no expression of the program. -/
theorem node_induction (p : Program) {P : Node → Prop}
    (dangling : ∀ (index : Nat) (ty : LogicalType), p.exprs[index]? = none → P (.localRef index ty))
    (reference : ∀ (index : Nat) (ty : LogicalType) (body : Node), p.exprs[index]? = some body →
      P body → P (.localRef index ty))
    (other : ∀ node : Node, node.reference? = none → (∀ child ∈ node.children, P child) → P node)
    (node : Node) : P node := by
  have hbelow : ∀ (bound : Nat) (node : Node), (∀ index ∈ node.references,
      index < p.exprs.length → index < bound) → P node := by
    intro bound
    -- The bound falls at a reference, and the node gets smaller elsewhere.
    induction bound using Nat.strongRecOn with
    | ind bound ihbound =>
        intro node hnode
        induction node using Node.children_induction with
        | step node ih =>
            cases hreference : node.reference? with
            | none =>
                refine other node hreference fun child hchild => ih child hchild fun index hindex => ?_
                exact hnode index (Node.mem_references_of_mem_children hchild hindex)
            | some index =>
                obtain ⟨ty, rfl⟩ := Node.exists_of_reference? hreference
                cases hbody : p.exprs[index]? with
                | none => exact dangling index ty hbody
                | some body =>
                    have hindex : index < bound := hnode index (Node.mem_references_localRef index ty)
                      (List.getElem?_eq_some_iff.mp hbody).1
                    refine reference index ty body hbody (ihbound index hindex body fun other hother _ => ?_)
                    exact Node.lt_of_mem_references (fault?_of_expr hbody) hother
  exact hbelow p.exprs.length node fun _ _ => id

/-- The references of the node lead to expressions of the program. -/
def Resolves (p : Program) (node : Node) : Prop := ∀ index ∈ node.references, index < p.exprs.length

theorem resolves_body {p : Program} {index : Nat} {body : Node} (hbody : p.exprs[index]? = some body) :
    p.Resolves body := fun _ hother =>
  Nat.lt_trans (Node.lt_of_mem_references (fault?_of_expr hbody) hother)
    (List.getElem?_eq_some_iff.mp hbody).1

/-- Nodes that refer to the program are made of such nodes, and refer to such nodes. -/
theorem resolving_induction (p : Program) {P : Node → Prop}
    (reference : ∀ (index : Nat) (ty : LogicalType) (body : Node), p.exprs[index]? = some body →
      P body → P (.localRef index ty))
    (other : ∀ node : Node, node.reference? = none → (∀ child ∈ node.children, P child) → P node)
    (node : Node) (hnode : p.Resolves node) : P node := by
  refine p.node_induction (P := fun node => p.Resolves node → P node) ?_ ?_ ?_ node hnode
  · intro index ty hnone hresolves
    have hindex := hresolves index (Node.mem_references_localRef index ty)
    exact absurd (List.getElem?_eq_none_iff.mp hnone) (Nat.not_le.mpr hindex)
  · intro index ty body hbody ih _
    exact reference index ty body hbody (ih (resolves_body hbody))
  · intro node hreference ih hresolves
    refine other node hreference fun child hchild => ih child hchild fun index hindex => ?_
    exact hresolves index (Node.mem_references_of_mem_children hchild hindex)

theorem lt_of_mem_references_output {p : Program} {node : Node} (hnode : node ∈ p.outputs) :
    ∀ index ∈ node.references, index < p.exprs.length := by
  obtain ⟨index, ty, rfl, hindex⟩ := of_mem_outputs hnode
  rw [Node.references_localRef]
  exact List.forall_mem_singleton.mpr hindex

end Program

namespace Lowering

theorem bind_congr {α β : Type} {x : Lowering α} {f f' : α → Lowering β}
    (h : ∀ s a s', x s = (.ok a, s') → f a = f' a) : (x >>= f) = (x >>= f') := by
  funext s
  rw [bind_apply, bind_apply]
  rcases hx : x s with ⟨result, s'⟩
  cases result with
  | error e => rfl
  | ok a => exact congrFun (h s a s' hx) s'

end Lowering

namespace LoweringContext

theorem Lowering.throw_ne_ok {α : Type} {e : LoweringError} {a : α} {s s' : LoweringState} :
    (throw e : Lowering α) s ≠ (.ok a, s') := by
  intro hrun
  cases (Prod.mk.inj hrun).1

theorem Lowering.of_bind_ok {α β : Type} {x : Lowering α} {f : α → Lowering β}
    {s s' : LoweringState} {b : β} (hrun : (x >>= f) s = (.ok b, s')) :
    ∃ a s₁, x s = (.ok a, s₁) ∧ f a s₁ = (.ok b, s') := by
  rw [Lowering.bind_apply] at hrun
  rcases hfirst : x s with ⟨result, s₁⟩
  rw [hfirst] at hrun
  cases result with
  | error e => cases (Prod.mk.inj hrun).1
  | ok a => exact ⟨a, s₁, rfl, hrun⟩

theorem Lowering.of_pure_ok {α : Type} {a b : α} {s s' : LoweringState}
    (hrun : (pure a : Lowering α) s = (.ok b, s')) : b = a ∧ s' = s := by
  obtain ⟨hvalue, rfl⟩ := Prod.mk.inj hrun
  exact ⟨(Except.ok.inj hvalue).symm, rfl⟩

end LoweringContext

/-- The same settings for another program. -/
def LoweringContext.on (c : LoweringContext) (p : Program) : LoweringContext :=
  { c with program := p }

namespace Place

theorem childItems_map (place : Place) (position : Nat) (nodes : List Node) (f : Node → Node) :
    place.childItems position (nodes.map f) =
      (place.childItems position nodes).map fun item => (item.1, f item.2) := by
  induction nodes generalizing position with
  | nil => rfl
  | cons node rest ih => rw [List.map_cons, childItems, ih, childItems, List.map_cons]

theorem length_childItems (place : Place) (position : Nat) (nodes : List Node) :
    (place.childItems position nodes).length = nodes.length := by
  calc
    (place.childItems position nodes).length =
        ((place.childItems position nodes).map Prod.snd).length := (List.length_map _).symm
    _ = nodes.length := by rw [map_snd_childItems]

end Place

theorem LoweringContext.mem_of_mem_placed {origin : Nat → Origin} {nodes : List Node}
    {item : Place × Node} (hitem : item ∈ placed origin nodes) : item.2 ∈ nodes := by
  obtain ⟨⟨node, index⟩, hnode, rfl⟩ := List.mem_map.mp hitem
  exact List.fst_mem_of_mem_zipIdx hnode

theorem LoweringContext.placed_map (origin : Nat → Origin) (nodes : List Node) (f : Node → Node) :
    placed origin (nodes.map f) = (placed origin nodes).map fun item => (item.1, f item.2) := by
  rw [placed, placed, List.zipIdx_map, List.map_map, List.map_map]
  rfl

namespace Getter

variable (g : Getter) (c : LoweringContext)

theorem operation_of_strategy? {op : Operator} {strategy : Strategy} {node : Node}
    (hstrategy : c.table.strategy? op = some strategy)
    (hrefuses : strategy.refuses node.children.length = false) (args : Lowering (List Expr)) :
    operation c op node args = (do
      let args ← args
      c.assemble strategy node args) := by
  rw [operation, hstrategy]
  simp only [hrefuses, Bool.false_eq_true, if_false]

section Operands

variable (follow : Nat → LogicalType → Lowering Expr) (place : Place)

theorem lowerOperands_append (position : Nat) (left right : List Node) :
    g.lowerOperands c follow place position (left ++ right) = (do
      let es ← g.lowerOperands c follow place position left
      let rest ← g.lowerOperands c follow place (position + left.length) right
      pure (es ++ rest)) := by
  induction left generalizing position with
  | nil => simp [lowerOperands]
  | cons node left ih =>
      rw [List.cons_append, lowerOperands, lowerOperands, ih]
      simp [Nat.add_comm, Nat.add_left_comm]

theorem lowerBranches_eq (position : Nat) (branches : List (Node × Node)) :
    g.lowerBranches c follow place position branches =
      g.lowerOperands c follow place position (Node.flattenBranches branches) := by
  induction branches generalizing position with
  | nil => simp [lowerBranches, lowerOperands, Node.flattenBranches]
  | cons branch rest ih =>
      obtain ⟨condition, result⟩ := branch
      simp [lowerBranches, lowerOperands, Node.flattenBranches, ih, Nat.add_assoc]

theorem lowerNode_of_operator? {node : Node} {op : Operator} (hop : node.operator? = some op) :
    g.lowerNode c follow place node = c.withSlot (.node place)
      (operation c op node (g.lowerOperands c follow place 0 node.children)) := by
  cases node with
  | call op' operands ty =>
      obtain rfl : op' = op := Option.some.inj hop
      rfl
  | case branches otherwise ty =>
      obtain rfl : Operator.case = op := Option.some.inj hop
      rw [lowerNode, Node.children, lowerOperands_append, lowerBranches_eq]
      simp [lowerOperands, Node.length_flattenBranches]
  | inputRef | localRef | literal | dynamicParam => cases hop

variable {follow} {follow' : Nat → LogicalType → Lowering Expr}

theorem lowerOperands_congr {nodes : List Node}
    (h : ∀ node ∈ nodes, ∀ place, g.lowerNode c follow place node = g.lowerNode c follow' place node)
    (position : Nat) : g.lowerOperands c follow place position nodes =
      g.lowerOperands c follow' place position nodes := by
  induction nodes generalizing position with
  | nil => rfl
  | cons node rest ih =>
      obtain ⟨hnode, hrest⟩ := List.forall_mem_cons.mp h
      rw [lowerOperands, lowerOperands, hnode, ih hrest]

/-- Only what the references of a node lead to matters. -/
theorem lowerNode_congr {node : Node} (h : ∀ index ∈ node.references, follow index = follow' index) :
    g.lowerNode c follow place node = g.lowerNode c follow' place node := by
  induction node using Node.children_induction generalizing place with
  | step node ih =>
      cases hop : node.operator? with
      | some op =>
          rw [Node.references_of_reference?_none (Node.reference?_of_operator? hop)] at h
          rw [lowerNode_of_operator? g c follow place hop,
            lowerNode_of_operator? g c follow' place hop]
          congr 2
          refine lowerOperands_congr g c place (fun child hchild place => ?_) 0
          exact ih child hchild place fun index hindex =>
            h index (List.mem_flatMap.mpr ⟨child, hchild, hindex⟩)
      | none =>
          cases node with
          | localRef index ty => exact congrFun (h index (Node.mem_references_localRef index ty)) ty
          | inputRef | literal | dynamicParam => rfl
          | call | case => cases hop

end Operands

/-! ### Equations -/

theorem follow_of_lt {index bound : Nat} (h : index < bound) :
    g.follow c bound index = g.follow c (index + 1) index := by
  induction bound with
  | zero => omega
  | succ bound ih =>
      by_cases hlast : index = bound
      · rw [hlast]
      · funext ty
        rw [follow, if_neg hlast, ih (by omega)]

theorem follow_of_le {index bound : Nat} (h : bound ≤ index) (ty : LogicalType) :
    g.follow c bound index ty = throw (LoweringContext.unsupported (.localRef index ty)) := by
  induction bound with
  | zero => rfl
  | succ bound ih => rw [follow, if_neg (Nat.ne_of_gt h), ih (Nat.le_of_lt h)]

theorem lower_dangling (place : Place) {index : Nat} (ty : LogicalType)
    (hnone : c.program.exprs[index]? = none) :
    g.lower c place (.localRef index ty) =
      throw (LoweringContext.unsupported (.localRef index ty)) := by
  rw [lower, lowerNode, follow_of_le g c (List.getElem?_eq_none_iff.mp hnone)]

theorem lower_localRef (place : Place) {index : Nat} {body : Node} (ty : LogicalType)
    (hbody : c.program.exprs[index]? = some body) :
    g.lower c place (.localRef index ty) =
      c.withSlot (.reference index) (g.lower c (.root (.expr index)) body) := by
  obtain ⟨hindex, -⟩ := List.getElem?_eq_some_iff.mp hbody
  have hlower : g.lowerNode c (g.follow c index) (.root (.expr index)) body =
      g.lower c (.root (.expr index)) body := by
    refine g.lowerNode_congr c _ fun other hother => ?_
    have hlt : other < index := Node.lt_of_mem_references (Program.fault?_of_expr hbody) hother
    rw [follow_of_lt g c hlt, follow_of_lt g c (Nat.lt_trans hlt hindex)]
  rw [lower, lowerNode, follow_of_lt g c hindex, follow, if_pos rfl, hbody]
  simp only [hlower]

theorem lowerOperands_eq_lowerEach (place : Place) (position : Nat) (nodes : List Node) :
    g.lowerOperands c (g.follow c c.program.exprs.length) place position nodes =
      g.lowerEach c (place.childItems position nodes) := by
  induction nodes generalizing position with
  | nil => rfl
  | cons node rest ih => rw [lowerOperands, ih, Place.childItems, lowerEach, lower]

theorem lower_of_operator? (place : Place) {node : Node} {op : Operator}
    (hop : node.operator? = some op) : g.lower c place node = c.withSlot (.node place)
      (operation c op node (g.lowerEach c (place.childItems 0 node.children))) := by
  rw [lower, lowerNode_of_operator? g c _ place hop, lowerOperands_eq_lowerEach]

/-- How a node with no operation is lowered where no slot holds it yet. -/
def leaf : Node → Lowering Expr
  | .inputRef index _ => g.read index
  | .literal value ty => pure (lowerLiteral c.adapter value ty)
  | node => throw (LoweringContext.unsupported node)

theorem lower_leaf (place : Place) {node : Node} (hop : node.operator? = none)
    (hreference : node.reference? = none) :
    g.lower c place node = c.withSlot (.node place) (g.leaf c node) := by
  cases node with
  | inputRef | literal | dynamicParam => rfl
  | localRef => cases hreference
  | call | case => cases hop

theorem of_lowerEach_cons_ok {place : Place} {node : Node} {rest : List (Place × Node)}
    {s s' : LoweringState} {es : List Expr}
    (hrun : g.lowerEach c ((place, node) :: rest) s = (.ok es, s')) :
    ∃ e es' s₁, es = e :: es' ∧ g.lower c place node s = (.ok e, s₁) ∧
      g.lowerEach c rest s₁ = (.ok es', s') := by
  rw [lowerEach] at hrun
  obtain ⟨e, s₁, hfirst, hrun⟩ := LoweringContext.Lowering.of_bind_ok hrun
  obtain ⟨es', s₂, hrest, hrun⟩ := LoweringContext.Lowering.of_bind_ok hrun
  obtain ⟨rfl, rfl⟩ := LoweringContext.Lowering.of_pure_ok hrun
  exact ⟨e, es', s₁, rfl, hfirst, hrest⟩

theorem lowerEach_singleton_ok {place : Place} {node : Node} {s s' : LoweringState} {e : Expr}
    (hrun : g.lower c place node s = (.ok e, s')) :
    g.lowerEach c [(place, node)] s = (.ok [e], s') := by
  rw [lowerEach, Lowering.bind_apply, hrun]
  rfl

theorem length_of_lowerEach {items : List (Place × Node)} {s s' : LoweringState} {es : List Expr}
    (hrun : g.lowerEach c items s = (.ok es, s')) : es.length = items.length := by
  induction items generalizing s es with
  | nil =>
      obtain ⟨rfl, -⟩ := LoweringContext.Lowering.of_pure_ok hrun
      rfl
  | cons item rest ih =>
      obtain ⟨e, es', s₁, rfl, -, hrest⟩ := g.of_lowerEach_cons_ok c hrun
      rw [List.length_cons, List.length_cons, ih hrest]

end Getter

end RowCode
