import RowCode.Proofs.Faults
import RowCode.Proofs.Registration

/-!
# Building from own references

A builder that is only given references it could have returned itself always has expressions in an
order in which references lead backward, and outputs that are references into them. What can still
be wrong when the program is built is what was wrong in a node when it was supplied: a field that the
row does not have, or a literal that does not fit its type.
-/

namespace RowCode

namespace Node

/-- Whether the node itself makes building fail with the fault, over a row of `width` fields. -/
def Spoils (width : Nat) (fault : ProgramError) : Node → Prop
  | inputRef index _ => width ≤ index ∧ fault = .inputIndexOutOfBounds index width
  | literal value ty =>
    value.fits ty.dataType = false ∧ fault = .literalTypeMismatch value.text ty
  | _ => False

/-- Whether a node nested in this one is a literal or reads a field, and not the result of other
nodes. -/
def IsLeaf (node : Node) : Prop := node.operator? = none ∧ node.reference? = none

theorem isLeaf_of_spoils {width : Nat} {fault : ProgramError} {node : Node}
    (h : node.Spoils width fault) : node.IsLeaf := by
  cases node with
  | inputRef | literal => exact ⟨rfl, rfl⟩
  | localRef | call | case | dynamicParam => cases h

theorem spoils_of_ownFault? {position count width : Nat} {fault : ProgramError} {node : Node}
    (hrefers : ∀ index, node.reference? = some index → index < position) (hcount : position ≤ count)
    (hfault : node.ownFault? position count width = some fault) : node.Spoils width fault := by
  cases node with
  | inputRef index ty =>
      rw [ownFault?, Option.ite_none_right_eq_some] at hfault
      exact ⟨hfault.1, (Option.some.inj hfault.2).symm⟩
  | localRef index ty =>
      have hindex : index < position := hrefers index rfl
      rw [ownFault?, if_neg (by omega), if_neg (by omega)] at hfault
      cases hfault
  | literal value ty =>
      rw [ownFault?, Option.ite_none_left_eq_some] at hfault
      exact ⟨Bool.eq_false_iff.mpr hfault.1, (Option.some.inj hfault.2).symm⟩
  | call | case | dynamicParam => cases hfault

/-- What a builder asks of a node: its references lead to one of the first `bound` expressions, and
its leaves are among those that are allowed. -/
structure Fits (leaf : Node → Prop) (bound : Nat) (node : Node) : Prop where
  refers : ∀ index ∈ node.references, index < bound
  leaves : ∀ part ∈ node.nodes, part.IsLeaf → leaf part

namespace Fits

variable {leaf : Node → Prop} {bound bound' : Nat} {node : Node}

theorem mono (h : node.Fits leaf bound) (hle : bound ≤ bound') : node.Fits leaf bound' :=
  ⟨fun index hindex => Nat.lt_of_lt_of_le (h.refers index hindex) hle, h.leaves⟩

theorem localRef {index : Nat} (ty : LogicalType) (h : index < bound) :
    (Node.localRef index ty).Fits leaf bound where
  refers other hother := by
    rw [references_localRef, List.mem_singleton] at hother
    rwa [hother]
  leaves part hpart hleaf := by
    rw [nodes_localRef, List.mem_singleton] at hpart
    subst hpart
    cases hleaf.2

theorem of_isLeaf (hnode : node.IsLeaf) (h : leaf node) : node.Fits leaf bound := by
  have hchildren : node.children = [] := by
    cases node <;> first | rfl | cases hnode.1
  refine ⟨fun index hindex => ?_, fun part hpart _ => ?_⟩
  · rw [references_of_reference?_none hnode.2, hchildren] at hindex
    cases hindex
  · rw [nodes_eq, hchildren, List.flatMap_nil, List.mem_singleton] at hpart
    rwa [hpart]

theorem of_operator? {op : Operator} (hop : node.operator? = some op)
    (h : ∀ child ∈ node.children, child.Fits leaf bound) : node.Fits leaf bound := by
  refine ⟨fun index hindex => ?_, fun part hpart hleaf => ?_⟩
  · rw [references_of_reference?_none (reference?_of_operator? hop)] at hindex
    obtain ⟨child, hchild, hindex⟩ := List.mem_flatMap.mp hindex
    exact (h child hchild).refers index hindex
  · rcases mem_nodes.mp hpart with rfl | ⟨child, hchild, hpart⟩
    · cases hop.symm.trans hleaf.1
    · exact (h child hchild).leaves part hpart hleaf

end Fits

end Node

namespace ProgramBuilder

variable {b b' : ProgramBuilder} {leaf : Node → Prop}

/-! ### Registering again -/

theorem Keyed.index_eq (hb : b.Keyed) {i j : Nat} {x y : Node} (hx : b.exprs[i]? = some x)
    (hy : b.exprs[j]? = some y) (halike : Alike x y) : i = j := by
  have hkeys : (b.exprs.map key)[i]? = (b.exprs.map key)[j]? := by
    rw [List.getElem?_map, List.getElem?_map, hx, hy, Option.map_some, Option.map_some,
      key_eq_iff.mpr halike]
  obtain ⟨hi, -⟩ := List.getElem?_eq_some_iff.mp hx
  exact (List.getElem?_inj (by rwa [List.length_map]) hb).mp hkeys

/-- The reference that is returned for a node leads to an expression like it. -/
theorem exists_of_register (b : ProgramBuilder) {node : Node} (hnode : node.reference? = none) :
    ∃ index expr, (b.register node).1 = .localRef index node.ty ∧
      (b.register node).2.exprs[index]? = some expr ∧ Alike expr node := by
  rcases b.register_cases hnode with ⟨index, expr, hexpr, halike, h⟩ | ⟨-, h⟩
  · rw [h]
    exact ⟨index, expr, rfl, hexpr, halike⟩
  · rw [h]
    exact ⟨b.exprs.length, node, rfl, List.getElem?_concat_length, rfl, rfl⟩

theorem register_again (node : Node) (hb' : b'.Keyed) (h : Grows (b.register node).2 b') :
    b'.register node = ((b.register node).1, b') := by
  cases hnode : node.reference? with
  | some index =>
      cases node with
      | localRef => rfl
      | inputRef | literal | call | case | dynamicParam => cases hnode
  | none =>
      obtain ⟨index, expr, href, hexpr, halike⟩ := b.exists_of_register hnode
      have hkept : b'.exprs[index]? = some expr := h.getElem? hexpr
      rcases b'.register_cases hnode with ⟨found, other, hother, hlike, hfound⟩ | ⟨hfresh, -⟩
      · have hindex : found = index :=
          hb'.index_eq hother hkept ⟨hlike.1.trans halike.1.symm, hlike.2.trans halike.2.symm⟩
        rw [hfound, href, hindex]
      · exact absurd halike (hfresh expr (List.mem_of_getElem? hkept))

theorem registerAll_cons (b : ProgramBuilder) (node : Node) (rest : List Node) :
    b.registerAll (node :: rest) =
      ((b.register node).1 :: ((b.register node).2.registerAll rest).1,
        ((b.register node).2.registerAll rest).2) := rfl

theorem registerAll_append (b : ProgramBuilder) (left right : List Node) :
    b.registerAll (left ++ right) =
      ((b.registerAll left).1 ++ ((b.registerAll left).2.registerAll right).1,
        ((b.registerAll left).2.registerAll right).2) := by
  induction left generalizing b with
  | nil => rfl
  | cons node rest ih =>
      rw [List.cons_append, registerAll_cons, ih, registerAll_cons, List.cons_append]

theorem registerAll_flattenBranches (b : ProgramBuilder) (branches : List (Node × Node)) :
    b.registerAll (Node.flattenBranches branches) =
      (Node.flattenBranches (b.registerBranches branches).1, (b.registerBranches branches).2) := by
  induction branches generalizing b with
  | nil => rfl
  | cons branch rest ih =>
      rw [Node.flattenBranches, registerAll_cons, registerAll_cons, ih]
      rfl

/-- A CASE is registered like a call of what is nested in it. -/
theorem registerAll_children_case (b : ProgramBuilder) (branches : List (Node × Node))
    (otherwise : Node) (ty : LogicalType) :
    b.registerAll (Node.case branches otherwise ty).children =
      ((Node.case (b.registerBranches branches).1
          ((b.registerBranches branches).2.register otherwise).1 ty).children,
        ((b.registerBranches branches).2.register otherwise).2) := by
  rw [Node.children, registerAll_append, registerAll_flattenBranches]
  rfl

/-- What registering leaves alone. -/
structure SameOutputs (b b' : ProgramBuilder) : Prop where
  inputRowType : b'.inputRowType = b.inputRowType
  projects : b'.projects = b.projects
  condition : b'.condition = b.condition

namespace SameOutputs

theorem trans {b'' : ProgramBuilder} (h : SameOutputs b b') (h' : SameOutputs b' b'') :
    SameOutputs b b'' :=
  ⟨h'.1.trans h.1, h'.2.trans h.2, h'.3.trans h.3⟩

theorem register (b : ProgramBuilder) (node : Node) : SameOutputs b (b.register node).2 := by
  cases hnode : node.reference? with
  | some index =>
      cases node with
      | localRef => exact ⟨rfl, rfl, rfl⟩
      | inputRef | literal | call | case | dynamicParam => cases hnode
  | none =>
      rcases b.register_cases hnode with ⟨index, expr, -, -, h⟩ | ⟨-, h⟩ <;>
        exact h ▸ ⟨rfl, rfl, rfl⟩

theorem registerAll (b : ProgramBuilder) (nodes : List Node) :
    SameOutputs b (b.registerAll nodes).2 := by
  induction nodes generalizing b with
  | nil => exact ⟨rfl, rfl, rfl⟩
  | cons node rest ih => exact (register b node).trans (ih _)

end SameOutputs

/-! ### Sound builders -/

/-- Whether a node is a reference to an expression of the builder. -/
def Refers (b : ProgramBuilder) (node : Node) : Prop :=
  ∃ index ty, node = .localRef index ty ∧ index < b.exprs.length

theorem Refers.grow {node : Node} (hnode : b.Refers node) (h : Grows b b') : b'.Refers node := by
  obtain ⟨index, ty, rfl, hindex⟩ := hnode
  exact ⟨index, ty, rfl, Nat.lt_of_lt_of_le hindex h.keeps.length_le⟩

/-- References lead to earlier expressions, outputs are references, and the leaves of expressions
are among those that are allowed. -/
structure Sound (leaf : Node → Prop) (b : ProgramBuilder) : Prop where
  exprs : ∀ (index : Nat) (expr : Node), b.exprs[index]? = some expr → expr.Fits leaf index
  outputs : ∀ output ∈ b.projects ++ b.condition.toList, b.Refers output

theorem sound_empty (inputRowType : List LogicalType) : (empty inputRowType).Sound leaf where
  exprs index expr hexpr := by cases hexpr
  outputs output houtput := by cases houtput

namespace Sound

theorem register (hb : b.Sound leaf) {node : Node} (hnode : node.Fits leaf b.exprs.length) :
    (b.register node).2.Sound leaf ∧ (b.register node).2.Refers (b.register node).1 := by
  cases hreference : node.reference? with
  | some index =>
      cases node with
      | localRef index ty =>
          exact ⟨hb, index, ty, rfl, hnode.refers index (Node.mem_references_localRef index ty)⟩
      | inputRef | literal | call | case | dynamicParam => cases hreference
  | none =>
      rcases b.register_cases hreference with ⟨index, expr, hexpr, -, h⟩ | ⟨-, h⟩
      · rw [h]
        exact ⟨hb, index, node.ty, rfl, (List.getElem?_eq_some_iff.mp hexpr).1⟩
      · have hgrows : Grows b (b.register node).2 := b.grows_register node
        rw [h] at hgrows ⊢
        refine ⟨⟨fun index expr hexpr => ?_, fun output houtput => ?_⟩, ?_⟩
        · by_cases hindex : index < b.exprs.length
          · rw [List.getElem?_append_left hindex] at hexpr
            exact hb.exprs index expr hexpr
          · obtain ⟨hlt, -⟩ := List.getElem?_eq_some_iff.mp hexpr
            rw [List.length_append, List.length_singleton] at hlt
            obtain rfl : index = b.exprs.length := by omega
            rw [List.getElem?_concat_length] at hexpr
            exact Option.some.inj hexpr ▸ hnode
        · exact (hb.outputs output houtput).grow hgrows
        · exact ⟨b.exprs.length, node.ty, rfl, by simp⟩

theorem registerAll (hb : b.Sound leaf) {nodes : List Node}
    (hnodes : ∀ node ∈ nodes, node.Fits leaf b.exprs.length) :
    (b.registerAll nodes).2.Sound leaf ∧
      ∀ ref ∈ (b.registerAll nodes).1, (b.registerAll nodes).2.Refers ref := by
  induction nodes generalizing b with
  | nil => exact ⟨hb, fun ref href => by cases href⟩
  | cons node rest ih =>
      obtain ⟨hnode, hrest⟩ := List.forall_mem_cons.mp hnodes
      obtain ⟨hsound, href⟩ := hb.register hnode
      have hlength : b.exprs.length ≤ (b.register node).2.exprs.length :=
        (b.grows_register node).keeps.length_le
      obtain ⟨hsound', hrefs⟩ := ih hsound fun other hother => (hrest other hother).mono hlength
      refine ⟨hsound', List.forall_mem_cons.mpr ⟨?_, hrefs⟩⟩
      exact href.grow (grows_registerAll _ rest)

/-- A call or a CASE of references that were just returned. -/
theorem register_operation (hb : b.Sound leaf) {children : List Node}
    (hchildren : ∀ child ∈ children, child.Fits leaf b.exprs.length) {node : Node} {op : Operator}
    (hop : node.operator? = some op) (hnode : node.children = (b.registerAll children).1) :
    ((b.registerAll children).2.register node).2.Sound leaf := by
  obtain ⟨hsound, hrefs⟩ := hb.registerAll hchildren
  refine (hsound.register (.of_operator? hop fun child hchild => ?_)).1
  rw [hnode] at hchild
  obtain ⟨index, ty, rfl, hindex⟩ := hrefs child hchild
  exact .localRef ty hindex

end Sound

/-! ### Own references -/

namespace Operation

/-- The nodes that an operation is given. The field of an input reference is looked up, so that it
is not one of them. -/
def supplied : Operation → List Node
  | .register node | .addProject node | .setCondition node => [node]
  | .inputRef _ => []
  | .literal value ty => [.literal value ty]
  | .call _ operands _ => operands
  | .case branches otherwise ty => (Node.case branches otherwise ty).children

def project? : Operation → Option Node
  | .addProject node => some node
  | _ => none

def condition? : Operation → Option Node
  | .setCondition node => some node
  | _ => none

end Operation

/-- Whether each reference in a node is to one of the expressions there are when the node is
supplied. -/
def OwnReferences (b : ProgramBuilder) : List Operation → Prop
  | [] => True
  | operation :: rest =>
    (∀ node ∈ operation.supplied, ∀ index ∈ node.references, index < b.exprs.length) ∧
      OwnReferences (b.apply operation) rest

/-- What the builder returns for the nodes that are selected, in order. -/
def returned (select : Operation → Option Node) (b : ProgramBuilder) : List Operation → List Node
  | [] => []
  | operation :: rest =>
    ((select operation).map fun node => (b.register node).1).toList ++
      returned select (b.apply operation) rest

theorem sameOutputs_apply (b : ProgramBuilder) {operation : Operation}
    (hproject : operation.project? = none) (hcondition : operation.condition? = none) :
    SameOutputs b (b.apply operation) := by
  cases operation with
  | register node => exact .register b node
  | inputRef index =>
      rw [apply, inputRef]
      cases b.inputRowType[index]? with
      | some ty => exact .register b (.inputRef index ty)
      | none => exact ⟨rfl, rfl, rfl⟩
  | literal value ty => exact .register b (.literal value ty)
  | call op operands ty => exact (SameOutputs.registerAll b operands).trans (.register _ _)
  | case branches otherwise ty =>
      have h := SameOutputs.registerAll b (Node.case branches otherwise ty).children
      rw [registerAll_children_case] at h
      exact h.trans (.register _ _)
  | addProject => cases hproject
  | setCondition => cases hcondition

theorem outputs_apply (b : ProgramBuilder) (operation : Operation) :
    (b.apply operation).inputRowType = b.inputRowType ∧
      (b.apply operation).projects =
        b.projects ++ (operation.project?.map fun node => (b.register node).1).toList ∧
      (b.apply operation).condition =
        (operation.condition?.map fun node => (b.register node).1).or b.condition := by
  by_cases hnone : operation.project? = none ∧ operation.condition? = none
  · obtain ⟨hrow, hprojects, hcondition⟩ := b.sameOutputs_apply hnone.1 hnone.2
    rw [hnone.1, hnone.2]
    exact ⟨hrow, hprojects.trans (List.append_nil _).symm, hcondition⟩
  · cases operation with
    | addProject node =>
        obtain ⟨hrow, hprojects, hcondition⟩ := SameOutputs.register b node
        exact ⟨hrow, congrArg (· ++ [(b.register node).1]) hprojects, hcondition⟩
    | setCondition node =>
        obtain ⟨hrow, hprojects, -⟩ := SameOutputs.register b node
        exact ⟨hrow, hprojects.trans (List.append_nil _).symm, rfl⟩
    | register | inputRef | literal | call | case => exact absurd ⟨rfl, rfl⟩ hnone

theorem outputs_after (b : ProgramBuilder) (operations : List Operation) :
    (b.after operations).inputRowType = b.inputRowType ∧
      (b.after operations).projects = b.projects ++ b.returned Operation.project? operations ∧
      (b.after operations).condition =
        (b.returned Operation.condition? operations).getLast?.or b.condition := by
  induction operations generalizing b with
  | nil => exact ⟨rfl, (List.append_nil _).symm, rfl⟩
  | cons operation rest ih =>
      obtain ⟨hrow, hprojects, hcondition⟩ := b.outputs_apply operation
      obtain ⟨hrow', hprojects', hcondition'⟩ := ih (b.apply operation)
      refine ⟨hrow'.trans hrow, ?_, ?_⟩
      · rw [after, List.foldl_cons]
        rw [← after, hprojects', hprojects, returned, List.append_assoc]
      · rw [after, List.foldl_cons]
        rw [← after, hcondition', hcondition, returned, List.getLast?_append, Option.or_assoc]
        cases operation.condition? <;> rfl

namespace Sound

theorem apply (hb : b.Sound leaf) {operation : Operation}
    (hfields : ∀ index ty, index < b.inputRowType.length → leaf (.inputRef index ty))
    (hsupplied : ∀ node ∈ operation.supplied, node.Fits leaf b.exprs.length) :
    (b.apply operation).Sound leaf := by
  cases operation with
  | register node => exact (hb.register (hsupplied node List.mem_cons_self)).1
  | inputRef index =>
      rw [ProgramBuilder.apply, inputRef]
      cases hfield : b.inputRowType[index]? with
      | some ty =>
          obtain ⟨hindex, -⟩ := List.getElem?_eq_some_iff.mp hfield
          exact (hb.register (.of_isLeaf ⟨rfl, rfl⟩ (hfields index ty hindex))).1
      | none => exact hb
  | literal value ty => exact (hb.register (hsupplied _ List.mem_cons_self)).1
  | call op operands ty => exact hb.register_operation hsupplied rfl rfl
  | case branches otherwise ty =>
      have h := registerAll_children_case b branches otherwise ty
      let node := Node.case (b.registerBranches branches).1
        ((b.registerBranches branches).2.register otherwise).1 ty
      have hchildren : node.children = (b.registerAll (Node.case branches otherwise ty).children).1 :=
        (congrArg Prod.fst h).symm
      have hsound := hb.register_operation hsupplied rfl hchildren
      rwa [Operation.supplied, h] at hsound
  | addProject node =>
      obtain ⟨hsound, href⟩ := hb.register (hsupplied node List.mem_cons_self)
      refine ⟨hsound.exprs, fun output houtput => ?_⟩
      have hcases : output = (b.register node).1 ∨
          output ∈ (b.register node).2.projects ++ (b.register node).2.condition.toList := by
        simp only [ProgramBuilder.apply, addProject, List.mem_append, List.mem_singleton] at houtput ⊢
        tauto
      rcases hcases with rfl | hold
      · exact href
      · exact hsound.outputs output hold
  | setCondition node =>
      obtain ⟨hsound, href⟩ := hb.register (hsupplied node List.mem_cons_self)
      refine ⟨hsound.exprs, fun output houtput => ?_⟩
      rcases List.mem_append.mp houtput with hproject | hcondition
      · exact hsound.outputs output (List.mem_append_left _ hproject)
      · obtain rfl : output = (b.register node).1 := List.mem_singleton.mp hcondition
        exact href

theorem after (hb : b.Sound leaf) {operations : List Operation}
    (hfields : ∀ index ty, index < b.inputRowType.length → leaf (.inputRef index ty))
    (hleaves : ∀ operation ∈ operations, ∀ node ∈ operation.supplied, ∀ part ∈ node.nodes,
      part.IsLeaf → leaf part)
    (hown : b.OwnReferences operations) : (b.after operations).Sound leaf := by
  induction operations generalizing b with
  | nil => exact hb
  | cons operation rest ih =>
      obtain ⟨hfirst, hrest⟩ := List.forall_mem_cons.mp hleaves
      refine ih (hb.apply hfields fun node hnode => ?_) ?_ hrest hown.2
      · exact ⟨hown.1 node hnode, hfirst node hnode⟩
      · rw [(b.outputs_apply operation).1]
        exact hfields

/-- Only a leaf of an expression can make building fail. -/
theorem of_build_error (hb : b.Sound leaf) {fault : ProgramError} (h : b.build = .error fault) :
    ∃ expr ∈ b.exprs, ∃ part ∈ expr.nodes, leaf part ∧ part.Spoils b.inputRowType.length fault := by
  rcases Program.of_ofParts_error h with ⟨position, expr, hexpr, part, hpart, hfault⟩ | houtput
  · have hfits : expr.Fits leaf position := hb.exprs position expr hexpr
    obtain ⟨hposition, -⟩ := List.getElem?_eq_some_iff.mp hexpr
    have hrefers : ∀ index, part.reference? = some index → index < position := fun index hindex =>
      hfits.refers index (List.mem_filterMap.mpr ⟨part, hpart, hindex⟩)
    have hspoils := Node.spoils_of_ownFault? hrefers (Nat.le_of_lt hposition) hfault
    exact ⟨expr, List.mem_of_getElem? hexpr, part, hpart,
      hfits.leaves part hpart (Node.isLeaf_of_spoils hspoils), hspoils⟩
  · obtain ⟨output, hmem, hfault⟩ := houtput
    obtain ⟨index, ty, rfl, hindex⟩ := hb.outputs output hmem
    rw [Node.outputFault?, if_pos hindex] at hfault
    cases hfault

end Sound

/-- **A builder that is given its own references builds.** Its expressions stay where they are and
are pairwise distinct, and a node that is registered again gets the reference that it got before.
Building fails only because of a field or a literal in a node that was supplied. If none of those in
the expressions is wrong, the program has exactly the registered expressions, the projections in the
order in which they were added and the condition that was set last. -/
theorem own_references_build (inputRowType : List LogicalType) (operations : List Operation)
    (hown : (empty inputRowType).OwnReferences operations) :
    let b := (empty inputRowType).after operations
    (∀ earlier later, operations = earlier ++ later →
      ((empty inputRowType).after earlier).exprs <+: b.exprs) ∧
    (∀ (i j : Nat) (x y : Node), b.exprs[i]? = some x → b.exprs[j]? = some y →
      x.digest = y.digest → x.ty = y.ty → i = j) ∧
    (∀ node later, ((b.register node).2.after later).register node =
      ((b.register node).1, (b.register node).2.after later)) ∧
    (∀ fault, b.build = .error fault →
      ∃ operation ∈ operations, ∃ node ∈ operation.supplied, ∃ part ∈ node.nodes,
        part.Spoils inputRowType.length fault) ∧
    ((∀ expr ∈ b.exprs, ∀ part ∈ expr.nodes, ∀ fault, ¬part.Spoils inputRowType.length fault) →
      ∃ p, b.build = .ok p ∧ p.toProgramParts =
        ⟨inputRowType, b.exprs, (empty inputRowType).returned Operation.project? operations,
          ((empty inputRowType).returned Operation.condition? operations).getLast?⟩) := by
  intro b
  have hkeyed : b.Keyed := keyed_after inputRowType operations
  obtain ⟨hrow, hprojects, hcondition⟩ := (empty inputRowType).outputs_after operations
  -- A leaf of an expression was supplied, or it is a field that the builder looked up.
  let leaf (part : Node) : Prop :=
    (∃ operation ∈ operations, ∃ node ∈ operation.supplied, part ∈ node.nodes) ∨
      ∃ index ty, part = .inputRef index ty ∧ index < inputRowType.length
  have hsound : b.Sound leaf := by
    refine (sound_empty inputRowType).after ?_ ?_ hown
    · exact fun index ty hindex => .inr ⟨index, ty, rfl, hindex⟩
    · exact fun operation hoperation node hnode part hpart _ =>
        .inl ⟨operation, hoperation, node, hnode, hpart⟩
  refine ⟨?_, ?_, ?_, ?_, ?_⟩
  · rintro earlier later rfl
    have h := (((empty inputRowType).after earlier).grows_after later).keeps
    rwa [after, after, ← List.foldl_append] at h
  · exact fun i j x y hx hy hdigest hty => hkeyed.index_eq hx hy ⟨hdigest, hty⟩
  · intro node later
    have hgrows := (b.register node).2.grows_after later
    exact register_again node (hgrows.keyed ((b.grows_register node).keyed hkeyed)) hgrows
  · intro fault hfault
    obtain ⟨expr, -, part, -, hleaf, hspoils⟩ := hsound.of_build_error hfault
    rw [hrow] at hspoils
    rcases hleaf with ⟨operation, hoperation, node, hnode, hpart⟩ | ⟨index, ty, rfl, hindex⟩
    · exact ⟨operation, hoperation, node, hnode, part, hpart, hspoils⟩
    · exact absurd hindex (Nat.not_lt.mpr hspoils.1)
  · intro hfine
    cases hbuild : b.build with
    | error fault =>
        obtain ⟨expr, hexpr, part, hpart, -, hspoils⟩ := hsound.of_build_error hbuild
        rw [hrow] at hspoils
        exact absurd hspoils (hfine expr hexpr part hpart fault)
    | ok p =>
        refine ⟨p, rfl, ?_⟩
        rw [← Program.of_ofParts_ok hbuild, hrow, hprojects, hcondition]
        simp [empty]

/-- The sum of a field and a literal, compared with the sum itself. -/
def fieldPlusTwoExceedsField : Node :=
  .call .greaterThan [fieldPlusTwo, .localRef 0 (.notNull .integer)] (.notNull .boolean)

theorem sum_and_comparison_build :
    let b := empty [.notNull .integer]
    let operations : List Operation :=
      [.inputRef 0, .addProject fieldPlusTwo, .setCondition fieldPlusTwoExceedsField]
    b.OwnReferences operations ∧
      ∃ p, (b.after operations).build = .ok p ∧ p.projects = [.localRef 1 (.notNull .integer)] ∧
        p.condition = some (.localRef 2 (.notNull .boolean)) := by
  intro b operations
  have hown : b.OwnReferences operations := by
    refine ⟨fun node hnode => ?_, ?_, ?_, trivial⟩
    · cases hnode
    · exact List.forall_mem_singleton.mpr (by decide)
    · exact List.forall_mem_singleton.mpr (by decide)
  have hexprs : (b.after operations).exprs =
      [.inputRef 0 (.notNull .integer), fieldPlusTwo, fieldPlusTwoExceedsField] := by rfl
  obtain ⟨-, -, -, -, hbuilds⟩ := own_references_build [.notNull .integer] operations hown
  have hfine : ∀ expr ∈ (b.after operations).exprs, ∀ part ∈ expr.nodes, ∀ fault,
      ¬part.Spoils 1 fault := by
    have hfits : (Value.int32 2).fits (LogicalType.notNull .integer).dataType = true := rfl
    simp [hexprs, fieldPlusTwo, fieldPlusTwoExceedsField, Node.nodes, Node.nodesOfAll, Node.Spoils,
      hfits]
  obtain ⟨p, hbuild, hparts⟩ := hbuilds hfine
  refine ⟨hown, p, hbuild, ?_, ?_⟩
  · rw [hparts]
    rfl
  · rw [hparts]
    rfl

end ProgramBuilder

end RowCode
