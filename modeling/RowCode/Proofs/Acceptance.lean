import RowCode.Proofs.Faults

/-!
# Which parts make a program

Checking the parts of a program goes over their nodes in the order in which they are written: the
expressions by position, each from its root down, then the projections, then the condition. The parts
make a program just if none of these nodes offends, and else the first that does is reported.
-/

namespace RowCode

/-- Where a node is checked: inside the expression at a position, or as an output. -/
inductive Site where
  | expr (position : Nat)
  | output

namespace ProgramParts

/-- The nodes in the order in which they are checked. -/
def inspected (parts : ProgramParts) : List (Site × Node) :=
  (parts.exprs.zipIdx.flatMap fun body => body.1.nodes.map fun node => (.expr body.2, node)) ++
    (parts.projects ++ parts.condition.toList).map fun node => (.output, node)

/-- What is wrong with a node at the place where it is checked. -/
inductive Offends (parts : ProgramParts) : Site → Node → ProgramError → Prop where
  | pastEnd {position index : Nat} {ty : LogicalType} (h : parts.exprs.length ≤ index) :
      Offends parts (.expr position) (.localRef index ty)
        (.localIndexOutOfBounds index parts.exprs.length)
  | forward {position index : Nat} {ty : LogicalType} (hposition : position ≤ index)
      (hcount : index < parts.exprs.length) :
      Offends parts (.expr position) (.localRef index ty) (.forwardReference position index)
  | noField {position index : Nat} {ty : LogicalType} (h : parts.inputRowType.length ≤ index) :
      Offends parts (.expr position) (.inputRef index ty)
        (.inputIndexOutOfBounds index parts.inputRowType.length)
  | misfit {position : Nat} {value : Value} {ty : LogicalType}
      (h : value.fits ty.dataType = false) :
      Offends parts (.expr position) (.literal value ty)
        (.literalTypeMismatch (Node.literal value ty).digest ty)
  | outputPastEnd {index : Nat} {ty : LogicalType} (h : parts.exprs.length ≤ index) :
      Offends parts .output (.localRef index ty)
        (.localIndexOutOfBounds index parts.exprs.length)
  | noReference {node : Node} (h : node.reference? = none) :
      Offends parts .output node (.notALocalRef node.digest)

def offence? (count width : Nat) : Site × Node → Option ProgramError
  | (.expr position, node) => node.ownFault? position count width
  | (.output, node) => node.outputFault? count

variable {parts : ProgramParts} {site : Site} {node : Node} {position : Nat} {fault : ProgramError}

theorem offence?_of_offends (h : parts.Offends site node fault) :
    offence? parts.exprs.length parts.inputRowType.length (site, node) = some fault := by
  cases h with
  | pastEnd h => exact if_pos h
  | forward hposition hcount =>
      rw [offence?, Node.ownFault?, if_neg (Nat.not_le.mpr hcount), if_pos hposition]
  | noField h => exact if_pos h
  | misfit h =>
      rw [offence?, Node.ownFault?, h]
      rfl
  | outputPastEnd h => exact if_neg (Nat.not_lt.mpr h)
  | noReference h =>
      cases node with
      | localRef => cases h
      | inputRef | literal | call | case | dynamicParam => rfl

theorem offends_of_ownFault?
    (h : node.ownFault? position parts.exprs.length parts.inputRowType.length = some fault) :
    parts.Offends (.expr position) node fault := by
  cases node with
  | localRef index ty =>
      rw [Node.ownFault?] at h
      split at h
      · rename_i hcount
        exact Option.some.inj h ▸ .pastEnd hcount
      · rename_i hcount
        obtain ⟨hposition, hfault⟩ := Option.ite_none_right_eq_some.mp h
        exact Option.some.inj hfault ▸ .forward hposition (Nat.lt_of_not_le hcount)
  | inputRef index ty =>
      obtain ⟨hwidth, hfault⟩ := Option.ite_none_right_eq_some.mp h
      exact Option.some.inj hfault ▸ .noField hwidth
  | literal value ty =>
      obtain ⟨hfits, hfault⟩ := Option.ite_none_left_eq_some.mp h
      exact Option.some.inj hfault ▸ .misfit (Bool.eq_false_iff.mpr hfits)
  | call | case | dynamicParam => cases h

theorem offends_of_outputFault? (h : node.outputFault? parts.exprs.length = some fault) :
    parts.Offends .output node fault := by
  cases node with
  | localRef index ty =>
      obtain ⟨hcount, hfault⟩ := Option.ite_none_left_eq_some.mp h
      exact Option.some.inj hfault ▸ .outputPastEnd (Nat.le_of_not_lt hcount)
  | inputRef | literal | call | case | dynamicParam => exact Option.some.inj h ▸ .noReference rfl

theorem offends_iff : parts.Offends site node fault ↔
    offence? parts.exprs.length parts.inputRowType.length (site, node) = some fault := by
  refine ⟨offence?_of_offends, fun h => ?_⟩
  cases site with
  | expr position => exact offends_of_ownFault? h
  | output => exact offends_of_outputFault? h

/-! ### The first offence -/

/-- Checking one expression after the other comes to checking their nodes in order. -/
theorem exprFault?_eq (count width position : Nat) (exprs : List Node) :
    Node.exprFault? count width position exprs =
      ((exprs.zipIdx position).flatMap fun body =>
        body.1.nodes.map fun node => (.expr body.2, node)).findSome? (offence? count width) := by
  induction exprs generalizing position with
  | nil => rfl
  | cons expr rest ih =>
      rw [Node.exprFault?, ih, Node.fault?_eq_findSome?, List.zipIdx_cons, List.flatMap_cons,
        List.findSome?_append, List.findSome?_map]
      rfl

theorem fault?_eq :
    parts.fault? =
      parts.inspected.findSome? (offence? parts.exprs.length parts.inputRowType.length) := by
  rw [fault?, exprFault?_eq, inspected, List.findSome?_append, List.findSome?_map]
  rfl

theorem mem_inspected_expr :
    (.expr position, node) ∈ parts.inspected ↔
      ∃ expr, parts.exprs[position]? = some expr ∧ node ∈ expr.nodes := by
  simp [inspected, List.mem_zipIdx_iff_getElem?]

theorem mem_inspected_output : (.output, node) ∈ parts.inspected ↔ node ∈ parts.outputs := by
  simp [inspected, outputs]

theorem WellFormed.not_offends (h : parts.WellFormed) (hitem : (site, node) ∈ parts.inspected) :
    ¬parts.Offends site node fault := by
  intro hoffends
  cases site with
  | expr position =>
      obtain ⟨expr, hexpr, hnode⟩ := mem_inspected_expr.mp hitem
      have hsound := h.sound position expr hexpr node hnode
      obtain ⟨hcount, -⟩ := List.getElem?_eq_some_iff.mp hexpr
      cases hoffends with
      | pastEnd hpast =>
          rw [Node.IsSound] at hsound
          omega
      | forward hposition => exact Nat.not_lt.mpr hposition hsound
      | noField hwidth => exact Nat.not_lt.mpr hwidth hsound
      | misfit hfits => exact Bool.eq_false_iff.mp hfits hsound
  | output =>
      obtain ⟨index, ty, rfl, hindex⟩ := h.outputs node (mem_inspected_output.mp hitem)
      cases hoffends with
      | outputPastEnd hpast => exact Nat.not_lt.mpr hpast hindex
      | noReference hreference => cases hreference

/-- **Exactly the well-formed parts make a program.** A program is made of the parts that were
given, unchanged. Other parts are refused for the first node that offends, in the order in which
nodes are checked. -/
theorem wellFormed_parts_make_program (parts : ProgramParts) :
    ((∃ p, Program.ofParts parts = .ok p) ↔ parts.WellFormed) ∧
    (∀ p, Program.ofParts parts = .ok p ↔ p.toProgramParts = parts) ∧
    ∀ fault, Program.ofParts parts = .error fault ↔
      ∃ before site node after, parts.inspected = before ++ (site, node) :: after ∧
        parts.Offends site node fault ∧
        ∀ item ∈ before, ∀ other, ¬parts.Offends item.1 item.2 other := by
  have hfine (item : Site × Node) :
      offence? parts.exprs.length parts.inputRowType.length item = none ↔
        ∀ other, ¬parts.Offends item.1 item.2 other := by
    simp only [offends_iff, Option.eq_none_iff_forall_ne_some, ne_eq]
  refine ⟨?_, fun p => Program.ofParts_ok_iff, fun fault => ?_⟩
  · constructor
    · rintro ⟨p, hp⟩
      rw [← Program.ofParts_ok_iff.mp hp]
      exact p.wellFormed
    · intro hparts
      have hnone : parts.fault? = none := by
        rw [fault?_eq, List.findSome?_eq_none_iff]
        exact fun item hitem => (hfine item).mpr fun other => hparts.not_offends hitem
      exact ⟨⟨parts, hnone⟩, Program.ofParts_ok_iff.mpr rfl⟩
  · rw [Program.ofParts_error_iff, fault?_eq, List.findSome?_eq_some_iff]
    simp only [hfine, ← offends_iff, Prod.exists]

end ProgramParts

end RowCode
