import RowCode.Proofs.Faults
import RowCode.Proofs.Getters
import RowCode.Proofs.ReferenceCounts
import RowCode.Proofs.Support

/-!
# Two ways to write CASE

A CASE is a node of its own, or a call whose operands are its conditions and results in one list. A
program in which the calls are written as nodes is the same program: its faults, its text, its
references and what it is lowered to do not change.
-/

namespace RowCode

namespace Node

/-- The call of an operator, or the CASE that it stands for. -/
def structuredCall (op : Operator) (operands : List Node) (ty : LogicalType) : Node :=
  if op = .case then (caseOfFlat? operands ty).getD (call op operands ty) else call op operands ty

/-! A node with each call that stands for a CASE written as one. -/

mutual

def structured : Node → Node
  | call op operands ty => structuredCall op (structuredAll operands) ty
  | case branches otherwise ty => case (structuredBranches branches) (structured otherwise) ty
  | inputRef index ty => inputRef index ty
  | localRef index ty => localRef index ty
  | literal value ty => literal value ty
  | dynamicParam index ty => dynamicParam index ty

def structuredAll : List Node → List Node
  | [] => []
  | node :: rest => structured node :: structuredAll rest

def structuredBranches : List (Node × Node) → List (Node × Node)
  | [] => []
  | (condition, result) :: rest =>
    (structured condition, structured result) :: structuredBranches rest

end

theorem flattenBranches_of_pairUp? {items : List Node} {branches : List (Node × Node)}
    {otherwise : Node} (h : pairUp? items = some (branches, otherwise)) :
    flattenBranches branches ++ [otherwise] = items := by
  induction items using pairUp?.induct generalizing branches with
  | case1 => cases h
  | case2 last =>
      obtain ⟨rfl, rfl⟩ := Prod.mk.inj (Option.some.inj h)
      rfl
  | case3 first second rest ih =>
      obtain ⟨⟨pairs, last⟩, hrest, hpair⟩ := Option.map_eq_some_iff.mp h
      obtain ⟨rfl, rfl⟩ := Prod.mk.inj hpair
      rw [flattenBranches, List.cons_append, List.cons_append, ih hrest]

theorem of_caseOfFlat? {operands : List Node} {ty : LogicalType} {node : Node}
    (h : caseOfFlat? operands ty = some node) :
    ∃ branches otherwise, node = case branches otherwise ty ∧ node.children = operands := by
  obtain ⟨⟨branches, otherwise⟩, hpairs, rfl⟩ := Option.map_eq_some_iff.mp h
  exact ⟨branches, otherwise, rfl, flattenBranches_of_pairUp? hpairs⟩

/-- A call stands for a CASE just if it is one of CASE on an odd number of operands. -/
theorem structuredCall_cases (op : Operator) (operands : List Node) (ty : LogicalType) :
    (op ≠ .case ∨ operands.length % 2 = 0) ∧ structuredCall op operands ty = call op operands ty ∨
      op = .case ∧ operands.length % 2 = 1 ∧ ∃ branches otherwise,
        structuredCall op operands ty = case branches otherwise ty ∧
          (case branches otherwise ty).children = operands := by
  unfold structuredCall
  by_cases hop : op = .case
  · rw [if_pos hop]
    have hsome : (caseOfFlat? operands ty).isSome = decide (operands.length % 2 = 1) := by
      rw [caseOfFlat?, Option.isSome_map, Strategy.isSome_pairUp?]
    cases hflat : caseOfFlat? operands ty with
    | none =>
        rw [hflat] at hsome
        have heven : ¬operands.length % 2 = 1 := of_decide_eq_false hsome.symm
        exact .inl ⟨.inr (by omega), rfl⟩
    | some node =>
        rw [hflat] at hsome
        obtain ⟨branches, otherwise, rfl, hchildren⟩ := of_caseOfFlat? hflat
        exact .inr ⟨hop, of_decide_eq_true hsome.symm, branches, otherwise, rfl, hchildren⟩
  · rw [if_neg hop]
    exact .inl ⟨.inl hop, rfl⟩

theorem structuredAll_eq (nodes : List Node) : structuredAll nodes = nodes.map structured := by
  induction nodes with
  | nil => rfl
  | cons node rest ih => rw [structuredAll, ih, List.map_cons]

theorem flattenBranches_structuredBranches (branches : List (Node × Node)) :
    flattenBranches (structuredBranches branches) = (flattenBranches branches).map structured := by
  induction branches with
  | nil => rfl
  | cons branch rest ih =>
      rw [structuredBranches, flattenBranches, flattenBranches, ih, List.map_cons, List.map_cons]

variable {node : Node}

theorem structured_of_operator?_none (hop : node.operator? = none) : node.structured = node := by
  cases node <;> first | rfl | cases hop

@[simp]
theorem operator?_structured (node : Node) : node.structured.operator? = node.operator? := by
  cases node with
  | call op operands ty =>
      rw [structured]
      rcases structuredCall_cases op (structuredAll operands) ty with
        ⟨-, h⟩ | ⟨rfl, -, branches, otherwise, h, -⟩ <;> rw [h] <;> rfl
  | case | inputRef | localRef | literal | dynamicParam => rfl

@[simp]
theorem ty_structured (node : Node) : node.structured.ty = node.ty := by
  cases node with
  | call op operands ty =>
      rw [structured]
      rcases structuredCall_cases op (structuredAll operands) ty with
        ⟨-, h⟩ | ⟨rfl, -, branches, otherwise, h, -⟩ <;> rw [h] <;> rfl
  | case | inputRef | localRef | literal | dynamicParam => rfl

@[simp]
theorem children_structured (node : Node) :
    node.structured.children = node.children.map structured := by
  cases node with
  | call op operands ty =>
      rw [structured, children, ← structuredAll_eq]
      rcases structuredCall_cases op (structuredAll operands) ty with
        ⟨-, h⟩ | ⟨rfl, -, branches, otherwise, h, hchildren⟩
      · rw [h, children]
      · rw [h, hchildren]
  | case branches otherwise ty =>
      rw [structured, children, children, flattenBranches_structuredBranches, List.map_append,
        List.map_singleton]
  | inputRef | localRef | literal | dynamicParam => rfl

/-- Only a call that stands for a CASE is written as another kind of node. -/
theorem kind_structured (node : Node) : node.structured.kind = node.kind ∨
    node.operator? = some .case ∧ node.children.length % 2 = 1 := by
  cases node with
  | call op operands ty =>
      rw [structured]
      rcases structuredCall_cases op (structuredAll operands) ty with ⟨-, h⟩ | ⟨rfl, hodd, -⟩
      · rw [h]
        exact .inl rfl
      · rw [structuredAll_eq, List.length_map] at hodd
        exact .inr ⟨rfl, hodd⟩
  | case | inputRef | localRef | literal | dynamicParam => exact .inl rfl

/-! ### Digests, references and faults -/

/-- What is put together from the operator of a node and what its children have does not tell the
two ways to write CASE apart. -/
theorem apply_structured {α : Type} {f : Node → α} (combine : Operator → List α → α)
    (hf : ∀ node op, operator? node = some op → f node = combine op (node.children.map f))
    (node : Node) : f node.structured = f node := by
  induction node using children_induction with
  | step node ih =>
      cases hop : node.operator? with
      | none => rw [structured_of_operator?_none hop]
      | some op =>
          have hop' : node.structured.operator? = some op := by rw [operator?_structured, hop]
          have hchildren : (node.children.map structured).map f = node.children.map f := by
            rw [List.map_map]
            exact List.map_congr_left ih
          rw [hf _ op hop', hf _ op hop, children_structured, hchildren]

@[simp]
theorem digest_structured (node : Node) : node.structured.digest = node.digest :=
  apply_structured (fun op digests => op.text ++ "(" ++ String.intercalate ", " digests ++ ")")
    (fun _ _ hop => digest_of_operator? hop) node

@[simp]
theorem references_structured (node : Node) : node.structured.references = node.references := by
  refine apply_structured (fun _ => List.flatten) (fun node op hop => ?_) node
  rw [references_of_reference?_none (reference?_of_operator? hop), List.flatMap_def]

theorem fault?_structured (position count width : Nat) (node : Node) :
    node.structured.fault? position count width = node.fault? position count width := by
  refine apply_structured (fun _ faults => faults.findSome? id) (fun node op hop => ?_) node
  rw [fault?_of_operator? hop, listFault?_eq, List.findSome?_map]
  rfl

theorem exprFault?_structured (count width position : Nat) (exprs : List Node) :
    exprFault? count width position (exprs.map structured) =
      exprFault? count width position exprs := by
  induction exprs generalizing position with
  | nil => rfl
  | cons expr rest ih => rw [List.map_cons, exprFault?, exprFault?, fault?_structured, ih]

theorem outputFault?_structured (count : Nat) (node : Node) :
    node.structured.outputFault? count = node.outputFault? count := by
  cases hop : node.operator? with
  | none => rw [structured_of_operator?_none hop]
  | some op =>
      have hfault : ∀ {node : Node}, node.operator? = some op →
          node.outputFault? count = some (.notALocalRef node.digest) := by
        intro node hop
        cases node <;> first | rfl | cases hop
      rw [hfault hop, hfault (by rw [operator?_structured, hop]), digest_structured]

end Node

/-! ### Programs -/

namespace ProgramParts

def structured (parts : ProgramParts) : ProgramParts where
  inputRowType := parts.inputRowType
  exprs := parts.exprs.map Node.structured
  projects := parts.projects.map Node.structured
  condition := parts.condition.map Node.structured

theorem fault?_structured (parts : ProgramParts) : parts.structured.fault? = parts.fault? := by
  have houtputs : parts.structured.outputs = parts.outputs.map Node.structured := by
    rw [outputs, outputs, List.map_append, ← Option.toList_map]
    rfl
  have hexprs : parts.structured.exprs.length = parts.exprs.length := List.length_map _
  rw [fault?, fault?, houtputs, List.findSome?_map, hexprs]
  refine congrArg₂ Option.or (Node.exprFault?_structured _ _ 0 parts.exprs) ?_
  exact congrArg (parts.outputs.findSome? ·) (funext (Node.outputFault?_structured _))

end ProgramParts

namespace Program

/-- The program with each call that stands for a CASE written as one. -/
def structured (p : Program) : Program :=
  ⟨p.toProgramParts.structured, by rw [ProgramParts.fault?_structured, p.faultless]⟩

theorem exprLines_structured (index : Nat) (exprs : List Node) :
    exprLines index (exprs.map Node.structured) = exprLines index exprs := by
  induction exprs generalizing index with
  | nil => rfl
  | cons expr rest ih => rw [List.map_cons, exprLines, exprLines, ih, Node.digest_structured]

theorem map_digest_structured (nodes : List Node) :
    (nodes.map Node.structured).map Node.digest = nodes.map Node.digest := by
  rw [List.map_map]
  exact List.map_congr_left fun node _ => node.digest_structured

theorem text_structured (p : Program) : p.structured.text = p.text := by
  have hprojects : p.structured.projects = p.projects.map Node.structured := rfl
  have hcondition : p.structured.condition = p.condition.map Node.structured := rfl
  have hlines : exprLines 0 p.structured.exprs = exprLines 0 p.exprs :=
    exprLines_structured 0 p.exprs
  rw [text, text, hlines, hprojects, hcondition, map_digest_structured]
  cases p.condition with
  | none => rfl
  | some condition => simp only [Option.map_some, Node.digest_structured]

end Program

namespace Usage

theorem visit_structured (follow : Nat → Usage → Option Usage) (node : Node) :
    visit follow node.structured = visit follow node := by
  funext u
  rw [visit_eq, visit_eq, Node.references_structured]

theorem follow_structured (exprs : List Node) (bound : Nat) :
    follow (exprs.map Node.structured) bound = follow exprs bound := by
  induction bound with
  | zero => rfl
  | succ bound ih =>
      funext index u
      rw [follow, follow, ih, List.getElem?_map]
      cases exprs[index]? with
      | none => rfl
      | some body => simp only [Option.map_some, Option.bind_some, visit_structured]

theorem visitAll_structured (follow : Nat → Usage → Option Usage) (nodes : List Node) :
    visitAll follow (nodes.map Node.structured) = visitAll follow nodes := by
  funext u
  induction nodes generalizing u with
  | nil => rfl
  | cons node rest ih =>
      rw [List.map_cons, visitAll, visitAll, visit_structured]
      exact congrArg _ (funext ih)

theorem ofRoots?_structured (p : Program) (roots : List Node) :
    ofRoots? p.structured roots = ofRoots? p roots := by
  have hlength : p.structured.exprs.length = p.exprs.length := List.length_map _
  have hfollow : follow p.structured.exprs = follow p.exprs :=
    funext (follow_structured p.exprs)
  rw [ofRoots?, ofRoots?, hlength, hfollow]

theorem ofRoots?_map_structured (p : Program) (roots : List Node) :
    ofRoots? p (roots.map Node.structured) = ofRoots? p roots := by
  rw [ofRoots?, ofRoots?, visitAll_structured]

end Usage

/-! ### Lowering -/

namespace Getter

variable (g : Getter) (c : LoweringContext) (p : Program)

theorem operation_structured {node : Node} {op : Operator} (hop : node.operator? = some op)
    {args : Lowering (List Expr)}
    (hlength : ∀ s es s', args s = (.ok es, s') → es.length = node.children.length) :
    operation c op node.structured args = operation c op node args := by
  have hchildren : node.structured.children.length = node.children.length := by
    rw [Node.children_structured, List.length_map]
  rcases node.kind_structured with hkind | ⟨hcase, hodd⟩
  · have hunsupported :
        LoweringContext.unsupported node.structured = LoweringContext.unsupported node := by
      rw [LoweringContext.unsupported, LoweringContext.unsupported, hkind, Node.digest_structured]
    unfold operation LoweringContext.assemble
    rw [hchildren, hunsupported, Node.ty_structured]
  · obtain rfl : op = .case := Option.some.inj (hop.symm.trans hcase)
    -- An odd number of operands is refused neither before nor after they are lowered.
    have hrefuses : Strategy.refuses .case node.children.length = false := by
      simp [Strategy.refuses, hodd]
    have hstrategy := c.table.strategy?_case
    rw [operation_of_strategy? c hstrategy (hchildren ▸ hrefuses),
      operation_of_strategy? c hstrategy hrefuses]
    refine Lowering.bind_congr fun s es s' hargs => ?_
    have hsome : (Strategy.assemble? .case (c.adapter node.ty) es).isSome = true := by
      rw [Strategy.isSome_assemble?, Strategy.suits, hlength s es s' hargs, hodd]
      rfl
    obtain ⟨e, he⟩ := Option.isSome_iff_exists.mp hsome
    rw [LoweringContext.assemble, LoweringContext.assemble, Node.ty_structured, he]

theorem lowerEach_structured {items : List (Place × Node)}
    (hitems : ∀ item ∈ items, g.lower (c.on p.structured) item.1 item.2.structured =
      g.lower (c.on p) item.1 item.2) :
    g.lowerEach (c.on p.structured) (items.map fun item => (item.1, item.2.structured)) =
      g.lowerEach (c.on p) items := by
  induction items with
  | nil => rfl
  | cons item rest ih =>
      obtain ⟨hitem, hrest⟩ := List.forall_mem_cons.mp hitems
      rw [List.map_cons, lowerEach, lowerEach, hitem, ih hrest]

theorem lower_structured (place : Place) {node : Node}
    (hnode : ∀ index ∈ node.references, index < p.exprs.length) :
    g.lower (c.on p.structured) place node.structured = g.lower (c.on p) place node := by
  refine p.resolving_induction (P := fun node => ∀ place,
    g.lower (c.on p.structured) place node.structured = g.lower (c.on p) place node)
    ?reference ?other node hnode place
  case reference =>
    intro index ty body hbody ih place
    have hbody' : p.structured.exprs[index]? = some body.structured := by
      rw [show p.structured.exprs = p.exprs.map Node.structured from rfl, List.getElem?_map, hbody,
        Option.map_some]
    rw [Node.structured, lower_localRef g (c.on p.structured) place ty hbody',
      lower_localRef g (c.on p) place ty hbody, ih]
    rfl
  case other =>
    intro node hreference ih place
    cases hop : node.operator? with
    | none =>
        rw [Node.structured_of_operator?_none hop]
        cases node with
        | inputRef | literal | dynamicParam => rfl
        | localRef => cases hreference
        | call | case => cases hop
    | some op =>
        have hop' : node.structured.operator? = some op := by rw [Node.operator?_structured, hop]
        have hargs : g.lowerEach (c.on p.structured) (place.childItems 0 node.structured.children) =
            g.lowerEach (c.on p) (place.childItems 0 node.children) := by
          rw [Node.children_structured, Place.childItems_map]
          refine lowerEach_structured g c p fun item hitem => ?_
          exact ih item.2 (Place.mem_of_mem_childItems hitem) item.1
        rw [lower_of_operator? g _ place hop', lower_of_operator? g _ place hop, hargs]
        refine congrArg (c.withSlot (.node place)) (operation_structured c hop ?_)
        intro s es s' hrun
        rw [length_of_lowerEach g _ hrun, Place.length_childItems]

theorem analyze_structured (roots : List Node) :
    (c.on p.structured).analyze (roots.map Node.structured) = (c.on p).analyze roots := by
  have husage : Usage.ofRoots? p.structured (roots.map Node.structured) =
      Usage.ofRoots? p roots := by
    rw [Usage.ofRoots?_map_structured, Usage.ofRoots?_structured]
  funext s
  unfold LoweringContext.analyze
  rw [show (c.on p.structured).program = p.structured from rfl, husage]
  rfl

theorem lowerAll_structured {items : List (Place × Node)}
    (hitems : ∀ item ∈ items, item.2 ∈ p.outputs) :
    g.lowerAll (c.on p.structured) (items.map fun item => (item.1, item.2.structured)) =
      g.lowerAll (c.on p) items := by
  have hroots : (items.map fun item => (item.1, item.2.structured)).map Prod.snd =
      (items.map Prod.snd).map Node.structured := by
    rw [List.map_map, List.map_map]
    rfl
  have heach := g.lowerEach_structured c p fun item hitem =>
    g.lower_structured c p item.1 (Program.lt_of_mem_references_output (hitems item hitem))
  rw [lowerAll, lowerAll, hroots, analyze_structured, heach]

theorem lowerProjects_structured (block : Block) :
    g.lowerProjects (c.on p.structured) block = g.lowerProjects (c.on p) block := by
  have hprojects : (c.on p.structured).program.projects = p.projects.map Node.structured := rfl
  rw [lowerProjects, lowerProjects, hprojects, LoweringContext.placed_map, lowerAll_structured]
  · rfl
  · intro item hitem
    exact List.mem_append_left _ (LoweringContext.mem_of_mem_placed hitem)

theorem lowerCondition_structured (block : Block) :
    g.lowerCondition (c.on p.structured) block = g.lowerCondition (c.on p) block := by
  have hcondition : (c.on p.structured).program.condition = p.condition.map Node.structured := rfl
  rw [lowerCondition, lowerCondition, hcondition]
  cases hsome : p.condition with
  | none =>
      rw [show (c.on p).program.condition = none from hsome]
      rfl
  | some condition =>
      have hmem : condition ∈ p.outputs := by
        rw [ProgramParts.outputs, hsome]
        exact List.mem_append_right _ (List.mem_singleton_self _)
      have hlower := g.lower_structured c p (.root .condition)
        (Program.lt_of_mem_references_output hmem)
      have hanalyze := analyze_structured c p [condition]
      rw [show (c.on p).program.condition = some condition from hsome]
      simp only [Option.map_some, hlower]
      rw [← hanalyze]
      rfl

end Getter

/-- **The two ways to write CASE are the same program.** With each call that stands for a CASE
written as one, a program is valid, its text is the same and so are the references that are counted
from any roots. Whatever the settings and wherever the fields come from, its projections and its
condition are lowered to the same expressions, or fail with the same fault, and leave the same
block. -/
theorem Program.structured_is_same (p : Program) :
    Program.ofParts p.toProgramParts.structured = .ok p.structured ∧
    p.structured.text = p.text ∧
    (∀ roots, Usage.ofRoots? p.structured roots = Usage.ofRoots? p roots ∧
      Usage.ofRoots? p.structured (roots.map Node.structured) = Usage.ofRoots? p roots) ∧
    ∀ (c : LoweringContext) (block : Block),
      (c.on p.structured).lowerProjects block = (c.on p).lowerProjects block ∧
      (c.on p.structured).lowerCondition block = (c.on p).lowerCondition block ∧
      ∀ g : Getter,
        g.lowerProjects (c.on p.structured) block = g.lowerProjects (c.on p) block ∧
        g.lowerCondition (c.on p.structured) block = g.lowerCondition (c.on p) block := by
  refine ⟨Program.ofParts_ok_iff.mpr rfl, p.text_structured, fun roots => ⟨?_, ?_⟩, ?_⟩
  · exact Usage.ofRoots?_structured p roots
  · rw [Usage.ofRoots?_map_structured, Usage.ofRoots?_structured]
  · intro c block
    refine ⟨?_, ?_, fun g => ⟨?_, ?_⟩⟩
    · exact Getter.lowerProjects_structured (.rows c.inputs) c p block
    · exact Getter.lowerCondition_structured (.rows c.inputs) c p block
    · exact g.lowerProjects_structured c p block
    · exact g.lowerCondition_structured c p block

end RowCode
