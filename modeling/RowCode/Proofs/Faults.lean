import RowCode.Proofs.StoredPrograms

/-!
# Faults and where they are found

The fault of an expression is that of the first node in it that has one of its own, in the order in
which the nodes are written. A program is refused for the fault of the first faulty expression, and
for that of an output only when every expression is sound.
-/

namespace RowCode

namespace Node

variable {position count width : Nat} {fault : ProgramError}

theorem listFault?_eq (nodes : List Node) :
    listFault? position count width nodes = nodes.findSome? (fault? position count width) := by
  induction nodes with
  | nil => rfl
  | cons node rest ih =>
      rw [listFault?, ih, List.findSome?_cons]
      cases node.fault? position count width <;> rfl

theorem ownFault?_of_operator? {node : Node} {op : Operator} (hop : node.operator? = some op) :
    node.ownFault? position count width = none := by
  cases node <;> first | rfl | cases hop

theorem fault?_of_operator?_none {node : Node} (hop : node.operator? = none) :
    node.fault? position count width = node.ownFault? position count width := by
  cases node with
  | call | case => cases hop
  | inputRef | localRef | literal | dynamicParam => rw [fault?.eq_def]

theorem findSome?_flatMap {nodes : List Node} {f g : Node → Option ProgramError}
    (h : ∀ node ∈ nodes, f node = node.nodes.findSome? g) :
    nodes.findSome? f = (nodes.flatMap Node.nodes).findSome? g := by
  induction nodes with
  | nil => rfl
  | cons node rest ih =>
      obtain ⟨hnode, hrest⟩ := List.forall_mem_cons.mp h
      rw [List.flatMap_cons, List.findSome?_append, ← hnode, ← ih hrest, List.findSome?_cons]
      cases f node <;> rfl

theorem fault?_eq_findSome? (node : Node) :
    node.fault? position count width = node.nodes.findSome? (ownFault? position count width) := by
  induction node using children_induction with
  | step node ih =>
      cases hop : node.operator? with
      | some op =>
          rw [fault?_of_operator? hop, listFault?_eq, findSome?_flatMap ih, nodes_eq node,
            List.findSome?_cons, ownFault?_of_operator? hop]
      | none =>
          have hnodes : node.nodes = [node] := by
            rw [nodes_eq]
            cases node <;> first | rfl | cases hop
          rw [fault?_of_operator?_none hop, hnodes, List.findSome?_cons, List.findSome?_nil]
          cases node.ownFault? position count width <;> rfl

theorem exists_of_exprFault? {exprs : List Node}
    (hfault : exprFault? count width position exprs = some fault) :
    ∃ (index : Nat) (expr : Node), exprs[index]? = some expr ∧
      expr.fault? (position + index) count width = some fault := by
  induction exprs generalizing position with
  | nil => cases hfault
  | cons expr rest ih =>
      rw [exprFault?, Option.or_eq_some_iff] at hfault
      rcases hfault with hfirst | ⟨-, hrest⟩
      · exact ⟨0, expr, rfl, hfirst⟩
      · obtain ⟨index, other, hother, hfault⟩ := ih hrest
        rw [Nat.add_assoc, Nat.add_comm 1 index] at hfault
        exact ⟨index + 1, other, hother, hfault⟩

end Node

namespace Program

variable {parts : ProgramParts} {fault : ProgramError}

theorem ofParts_error_iff : ofParts parts = .error fault ↔ parts.fault? = some fault := by
  unfold ofParts
  split
  · rename_i hnone
    simp [hnone]
  · rename_i other hother
    simp [hother]

theorem ofParts_ok_iff {p : Program} : ofParts parts = .ok p ↔ p.toProgramParts = parts := by
  constructor
  · exact fun h => (of_ofParts_ok h).symm
  · rintro rfl
    exact p.ofParts_toProgramParts

/-- A node with a fault of its own in an expression, or an output with one. -/
theorem of_ofParts_error (h : ofParts parts = .error fault) :
    (∃ (position : Nat) (expr : Node), parts.exprs[position]? = some expr ∧ ∃ part ∈ expr.nodes,
        part.ownFault? position parts.exprs.length parts.inputRowType.length = some fault) ∨
      ∃ output ∈ parts.outputs, output.outputFault? parts.exprs.length = some fault := by
  have hfault := ofParts_error_iff.mp h
  rw [ProgramParts.fault?, Option.or_eq_some_iff] at hfault
  rcases hfault with hexprs | ⟨-, houtputs⟩
  · obtain ⟨position, expr, hexpr, hfault⟩ := Node.exists_of_exprFault? hexprs
    rw [Nat.zero_add, Node.fault?_eq_findSome?] at hfault
    exact .inl ⟨position, expr, hexpr, List.exists_of_findSome?_eq_some hfault⟩
  · exact .inr (List.exists_of_findSome?_eq_some houtputs)

end Program

end RowCode
