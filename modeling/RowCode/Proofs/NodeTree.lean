import RowCode.Lowering.Slot

/-!
# Nodes as trees

A call and a CASE differ in how they are written, not in how they are lowered: either is an operator
over the list of its children. What is stated over that list spares every later proof the detour
through branches. The nodes nested in a node refer to the same expressions of the program as the node.
-/

namespace RowCode

namespace Node

theorem length_flattenBranches (branches : List (Node × Node)) :
    (flattenBranches branches).length = 2 * branches.length := by
  induction branches with
  | nil => rfl
  | cons branch rest ih =>
      rw [flattenBranches, List.length_cons, List.length_cons, ih, List.length_cons]
      omega

theorem forall_mem_flattenBranches {P : Node → Prop} {branches : List (Node × Node)} :
    (∀ child ∈ flattenBranches branches, P child) ↔
      ∀ branch ∈ branches, P branch.1 ∧ P branch.2 := by
  induction branches with
  | nil => simp [flattenBranches]
  | cons branch rest ih => simp [flattenBranches, ih, and_assoc]

theorem forall_mem_children_case {P : Node → Prop} {branches : List (Node × Node)}
    {otherwise : Node} {ty : LogicalType} :
    (∀ child ∈ (case branches otherwise ty).children, P child) ↔
      (∀ branch ∈ branches, P branch.1 ∧ P branch.2) ∧ P otherwise := by
  rw [children, List.forall_mem_append, forall_mem_flattenBranches, List.forall_mem_singleton]

theorem sizeOf_lt_of_mem_flattenBranches {branches : List (Node × Node)} {child : Node}
    (hmem : child ∈ flattenBranches branches) : sizeOf child < sizeOf branches := by
  induction branches with
  | nil => simp [flattenBranches] at hmem
  | cons branch rest ih =>
      obtain ⟨condition, result⟩ := branch
      simp only [flattenBranches, List.mem_cons] at hmem
      simp only [List.cons.sizeOf_spec, Prod.mk.sizeOf_spec]
      rcases hmem with rfl | rfl | hrest
      · omega
      · omega
      · have := ih hrest
        omega

theorem sizeOf_lt_of_mem_children {node child : Node} (hmem : child ∈ node.children) :
    sizeOf child < sizeOf node := by
  cases node with
  | call op operands ty =>
      have : sizeOf child < sizeOf operands := List.sizeOf_lt_of_mem hmem
      simp only [call.sizeOf_spec]
      omega
  | case branches otherwise ty =>
      simp only [case.sizeOf_spec]
      rcases List.mem_append.mp hmem with hbranch | hlast
      · have := sizeOf_lt_of_mem_flattenBranches hbranch
        omega
      · obtain rfl := List.mem_singleton.mp hlast
        omega
  | inputRef | localRef | literal | dynamicParam => simp [children] at hmem

theorem children_induction {P : Node → Prop}
    (step : ∀ node : Node, (∀ child ∈ node.children, P child) → P node) (node : Node) : P node :=
  step node fun child _ => children_induction step child
termination_by sizeOf node
decreasing_by exact sizeOf_lt_of_mem_children (by assumption)

theorem digests_eq (nodes : List Node) : digests nodes = nodes.map digest := by
  induction nodes with
  | nil => rfl
  | cons node rest ih => rw [digests, ih, List.map_cons]

theorem branchDigests_eq (branches : List (Node × Node)) :
    branchDigests branches = (flattenBranches branches).map digest := by
  induction branches with
  | nil => rfl
  | cons branch rest ih =>
      rw [branchDigests, ih, flattenBranches, List.map_cons, List.map_cons]

theorem digest_of_operator? {node : Node} {op : Operator} (hop : node.operator? = some op) :
    node.digest =
      op.text ++ "(" ++ String.intercalate ", " (node.children.map digest) ++ ")" := by
  cases node with
  | call op' operands ty =>
      obtain rfl : op' = op := Option.some.inj hop
      rw [digest, digests_eq, children]
  | case branches otherwise ty =>
      obtain rfl : Operator.case = op := Option.some.inj hop
      rw [digest, branchDigests_eq, children, List.map_append, List.map_singleton]
      rfl
  | inputRef | localRef | literal | dynamicParam => cases hop

section Faults

variable {position count width : Nat}

theorem listFault?_append (left right : List Node) :
    listFault? position count width (left ++ right) =
      (listFault? position count width left).or (listFault? position count width right) := by
  induction left with
  | nil => rfl
  | cons node rest ih => rw [List.cons_append, listFault?, listFault?, ih, Option.or_assoc]

theorem branchFault?_eq (branches : List (Node × Node)) :
    branchFault? position count width branches =
      listFault? position count width (flattenBranches branches) := by
  induction branches with
  | nil => rfl
  | cons branch rest ih => rw [branchFault?, flattenBranches, listFault?, listFault?, ih]

theorem fault?_of_operator? {node : Node} {op : Operator} (hop : node.operator? = some op) :
    node.fault? position count width = listFault? position count width node.children := by
  cases node with
  | call => rfl
  | case branches otherwise ty =>
      rw [fault?, children, listFault?_append, branchFault?_eq, listFault?, listFault?,
        Option.or_none]
  | inputRef | localRef | literal | dynamicParam => simp [operator?] at hop

theorem listFault?_eq_none_iff {nodes : List Node} :
    listFault? position count width nodes = none ↔
      ∀ node ∈ nodes, node.fault? position count width = none := by
  induction nodes with
  | nil => simp [listFault?]
  | cons node rest ih => rw [listFault?, Option.or_eq_none_iff, ih, List.forall_mem_cons]

theorem fault?_of_mem_children {node child : Node} (hnone : node.fault? position count width = none)
    (hmem : child ∈ node.children) : child.fault? position count width = none := by
  cases hop : node.operator? with
  | some op => exact listFault?_eq_none_iff.mp (fault?_of_operator? hop ▸ hnone) child hmem
  | none => cases node <;> simp [operator?, children] at hop hmem

theorem lt_of_localRef_fault? {index : Nat} {ty : LogicalType}
    (hnone : (localRef index ty).fault? position count width = none) : index < position := by
  rw [fault?.eq_def] at hnone
  simp only [ownFault?] at hnone
  split at hnone
  · cases hnone
  · split at hnone
    · cases hnone
    · omega

theorem lt_of_inputRef_fault? {index : Nat} {ty : LogicalType}
    (hnone : (inputRef index ty).fault? position count width = none) : index < width := by
  rw [fault?.eq_def] at hnone
  simp only [ownFault?] at hnone
  split at hnone
  · cases hnone
  · omega

theorem fault?_of_exprFault? {exprs : List Node} (hnone : exprFault? count width position exprs = none)
    {k : Nat} {body : Node} (hbody : exprs[k]? = some body) :
    body.fault? (position + k) count width = none := by
  induction exprs generalizing position k with
  | nil => simp at hbody
  | cons node rest ih =>
      rw [exprFault?, Option.or_eq_none_iff] at hnone
      cases k with
      | zero =>
          obtain rfl := Option.some.inj hbody
          exact hnone.1
      | succ k =>
          rw [Nat.add_comm k 1, ← Nat.add_assoc]
          exact ih hnone.2 hbody

end Faults

/-! ### Nested nodes

A node and the nodes nested in it, the outer ones first. -/

mutual

def nodes : Node → List Node
  | call op operands ty => call op operands ty :: nodesOfAll operands
  | case branches otherwise ty =>
    case branches otherwise ty :: (nodesOfBranches branches ++ nodes otherwise)
  | node => [node]

def nodesOfAll : List Node → List Node
  | [] => []
  | node :: rest => nodes node ++ nodesOfAll rest

def nodesOfBranches : List (Node × Node) → List Node
  | [] => []
  | (condition, result) :: rest => nodes condition ++ (nodes result ++ nodesOfBranches rest)

end

def reference? : Node → Option Nat
  | localRef index _ => some index
  | _ => none

theorem reference?_of_operator? {node : Node} {op : Operator} (hop : node.operator? = some op) :
    node.reference? = none := by
  cases node <;> first | rfl | cases hop

theorem reference?_of_mem_children {node child : Node} (hchild : child ∈ node.children) :
    node.reference? = none := by
  cases node <;> first | rfl | cases hchild

theorem exists_of_reference? {node : Node} {index : Nat} (hnode : node.reference? = some index) :
    ∃ ty, node = localRef index ty := by
  cases node with
  | localRef _ ty => exact ⟨ty, by rw [Option.some.inj hnode]⟩
  | inputRef | literal | call | case | dynamicParam => cases hnode

/-- The indexes that are referred to in a node, once for each reference. -/
def references (node : Node) : List Nat := node.nodes.filterMap reference?

theorem nodesOfAll_eq (nodes' : List Node) : nodesOfAll nodes' = nodes'.flatMap nodes := by
  induction nodes' with
  | nil => rfl
  | cons node rest ih => rw [nodesOfAll, ih, List.flatMap_cons]

theorem nodesOfBranches_eq (branches : List (Node × Node)) :
    nodesOfBranches branches = (flattenBranches branches).flatMap nodes := by
  induction branches with
  | nil => rfl
  | cons branch rest ih =>
      rw [nodesOfBranches, ih, flattenBranches, List.flatMap_cons, List.flatMap_cons]

theorem nodes_eq (node : Node) : node.nodes = node :: node.children.flatMap nodes := by
  cases node with
  | call op operands ty => rw [nodes, nodesOfAll_eq, children]
  | case branches otherwise ty =>
      rw [nodes, nodesOfBranches_eq, children, List.flatMap_append, List.flatMap_singleton]
  | inputRef | localRef | literal | dynamicParam => simp [nodes, children]

theorem mem_nodes_self (node : Node) : node ∈ node.nodes := by
  rw [nodes_eq]
  exact List.mem_cons_self

theorem mem_nodes {node part : Node} :
    part ∈ node.nodes ↔ part = node ∨ ∃ child ∈ node.children, part ∈ child.nodes := by
  rw [nodes_eq, List.mem_cons, List.mem_flatMap]

theorem mem_nodes_child {root node child : Node} (hnode : node ∈ root.nodes)
    (hchild : child ∈ node.children) : child ∈ root.nodes := by
  induction root using children_induction with
  | step root ih =>
      rcases mem_nodes.mp hnode with rfl | ⟨part, hpart, hnested⟩
      · exact mem_nodes.mpr (Or.inr ⟨child, hchild, child.mem_nodes_self⟩)
      · exact mem_nodes.mpr (Or.inr ⟨part, hpart, ih part hpart hnested⟩)

theorem mem_references {node : Node} {index : Nat} :
    index ∈ node.references ↔ ∃ ty, localRef index ty ∈ node.nodes := by
  rw [references, List.mem_filterMap]
  constructor
  · rintro ⟨part, hpart, hindex⟩
    cases part with
    | localRef index' ty =>
        obtain rfl := Option.some.inj hindex
        exact ⟨ty, hpart⟩
    | inputRef | literal | call | case | dynamicParam => cases hindex
  · rintro ⟨ty, hpart⟩
    exact ⟨_, hpart, rfl⟩

theorem mem_references_of_mem_children {node child : Node} (hchild : child ∈ node.children)
    {index : Nat} (hindex : index ∈ child.references) : index ∈ node.references := by
  obtain ⟨ty, hpart⟩ := mem_references.mp hindex
  exact mem_references.mpr ⟨ty, mem_nodes.mpr (Or.inr ⟨child, hchild, hpart⟩)⟩

theorem nodes_localRef (index : Nat) (ty : LogicalType) :
    (localRef index ty).nodes = [localRef index ty] := by
  rw [nodes_eq]
  rfl

theorem references_localRef (index : Nat) (ty : LogicalType) :
    (localRef index ty).references = [index] := by
  rw [references, nodes_localRef]
  rfl

theorem mem_references_localRef (index : Nat) (ty : LogicalType) :
    index ∈ (localRef index ty).references := by
  rw [references_localRef]
  exact List.mem_singleton_self _

theorem references_of_reference?_none {node : Node} (hnode : node.reference? = none) :
    node.references = node.children.flatMap references := by
  rw [references, nodes_eq, List.filterMap_cons_none hnode, List.filterMap_flatMap]
  rfl

section Faults

variable {position count width : Nat} {node part : Node}

theorem fault?_of_mem_nodes (hnone : node.fault? position count width = none)
    (hpart : part ∈ node.nodes) : part.fault? position count width = none := by
  induction node using children_induction with
  | step node ih =>
      rcases mem_nodes.mp hpart with rfl | ⟨child, hchild, hnested⟩
      · exact hnone
      · exact ih child hchild (fault?_of_mem_children hnone hchild) hnested

theorem lt_of_mem_references (hnone : node.fault? position count width = none) {index : Nat}
    (hindex : index ∈ node.references) : index < position := by
  obtain ⟨ty, hpart⟩ := mem_references.mp hindex
  exact lt_of_localRef_fault? (fault?_of_mem_nodes hnone hpart)

end Faults

end Node

/-- An expression of a program only refers to earlier ones. -/
theorem Program.fault?_of_expr {p : Program} {index : Nat} {body : Node}
    (hbody : p.exprs[index]? = some body) :
    body.fault? index p.exprs.length p.inputRowType.length = none := by
  have hnone := p.faultless
  rw [ProgramParts.fault?, Option.or_eq_none_iff] at hnone
  have hbody := Node.fault?_of_exprFault? hnone.1 hbody
  rwa [Nat.zero_add] at hbody

/-- The outputs of a program are references to its expressions. -/
theorem Program.of_mem_outputs {p : Program} {node : Node} (hnode : node ∈ p.outputs) :
    ∃ index ty, node = .localRef index ty ∧ index < p.exprs.length := by
  have hnone := p.faultless
  rw [ProgramParts.fault?, Option.or_eq_none_iff, List.findSome?_eq_none_iff] at hnone
  have hfault := hnone.2 node hnode
  cases node with
  | localRef index ty =>
      rw [Node.outputFault?] at hfault
      split at hfault
      · exact ⟨index, ty, rfl, ‹_›⟩
      · cases hfault
  | inputRef | literal | call | case | dynamicParam => cases hfault

namespace OperatorTable

theorem strategy?_case (table : OperatorTable) : table.strategy? .case = some .case := by
  cases table <;> rfl

end OperatorTable

/-! ### Nodes by place -/

/-- The slot that a node at a place is looked up in. -/
def Node.slotKey (place : Place) : Node → SlotKey
  | .localRef index _ => .reference index
  | _ => .node place

theorem Node.slotKey_of_reference? {node : Node} (hnode : node.reference? = none) (place : Place) :
    node.slotKey place = .node place := by
  cases node <;> first | rfl | cases hnode

theorem Node.slotKey_of_operator? {node : Node} {op : Operator} (hop : node.operator? = some op)
    (place : Place) : node.slotKey place = .node place :=
  Node.slotKey_of_reference? (Node.reference?_of_operator? hop) place

namespace Place

/-- Siblings with their places; `position` is that of the first one. -/
def childItems (place : Place) (position : Nat) : List Node → List (Place × Node)
  | [] => []
  | node :: rest => (place.child position, node) :: childItems place (position + 1) rest

@[simp]
theorem map_snd_childItems (place : Place) (position : Nat) (operands : List Node) :
    (place.childItems position operands).map Prod.snd = operands := by
  induction operands generalizing position with
  | nil => rfl
  | cons node rest ih => simp [childItems, ih]

theorem flatMap_childItems {α : Type} (place : Place) (position : Nat) (operands : List Node)
    (f : Node → List α) :
    ((place.childItems position operands).flatMap fun item => f item.2) = operands.flatMap f := by
  calc
    ((place.childItems position operands).flatMap fun item => f item.2) =
        ((place.childItems position operands).map Prod.snd).flatMap f :=
          (List.flatMap_map ..).symm
    _ = operands.flatMap f := by rw [map_snd_childItems]

theorem mem_childItems {place : Place} {position : Nat} {operands : List Node}
    {item : Place × Node} : item ∈ place.childItems position operands ↔
      ∃ k, operands[k]? = some item.2 ∧ item.1 = place.child (position + k) := by
  induction operands generalizing position with
  | nil => simp [childItems]
  | cons node rest ih =>
      rw [childItems, List.mem_cons, ih]
      constructor
      · rintro (rfl | ⟨k, hnode, hplace⟩)
        · exact ⟨0, rfl, rfl⟩
        · exact ⟨k + 1, hnode, by rw [hplace, Nat.add_right_comm, Nat.add_assoc]⟩
      · rintro ⟨k, hnode, hplace⟩
        cases k with
        | zero => exact Or.inl (Prod.ext hplace (Option.some.inj hnode).symm)
        | succ k => exact Or.inr ⟨k, hnode, by rw [hplace, Nat.add_right_comm, Nat.add_assoc]⟩

theorem mem_of_mem_childItems {place : Place} {position : Nat} {operands : List Node}
    {item : Place × Node} (hitem : item ∈ place.childItems position operands) : item.2 ∈ operands := by
  obtain ⟨k, hk, -⟩ := mem_childItems.mp hitem
  exact List.mem_of_getElem? hk

end Place

end RowCode
