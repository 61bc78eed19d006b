import RowCode.Proofs.Lookups

/-!
# What can be lowered

A pass fails for one reason only: it comes by a node that has no way to be lowered, which is a dynamic
parameter or the call of an operator that the table lacks or that takes another number of operands.
Nothing else goes wrong in a program whose fields are those of the row; and whatever a pass comes by,
it does lower.
-/

namespace RowCode

namespace Strategy

/-- Whether a strategy can put this many operands together. -/
def suits : Strategy → Nat → Bool
  | .runtimeCall _, _ => true
  | .fold _, operandCount => 2 ≤ operandCount
  | .unary _, operandCount => operandCount = 1
  | .nullTest _, operandCount => operandCount = 1
  | .case, operandCount => operandCount % 2 = 1
  | .cast, operandCount => operandCount = 1

theorem isSome_pairUp? {α : Type} (items : List α) :
    (pairUp? items).isSome = decide (items.length % 2 = 1) := by
  fun_induction pairUp? items with
  | case1 => rfl
  | case2 => rfl
  | case3 first second rest ih =>
      rw [Option.isSome_map, ih, List.length_cons, List.length_cons]
      exact decide_eq_decide.mpr (by omega)

theorem isSome_assemble? (strategy : Strategy) (ty : HostType) (args : List Expr) :
    (strategy.assemble? ty args).isSome = strategy.suits args.length := by
  cases strategy with
  | runtimeCall method => rfl
  | case => exact (Option.isSome_map ..).trans (isSome_pairUp? args)
  | fold op | unary op | nullTest holdsForValues | cast =>
      match args with
      | [] => rfl
      | [_] => rfl
      | _ :: _ :: _ => simp [assemble?, suits]

end Strategy

namespace OperatorTable

/-- Whether a call of the operator with this many operands can be lowered: the table has the
operator, and the number suits it. -/
def admits (table : OperatorTable) (op : Operator) (operandCount : Nat) : Bool :=
  (table.strategy? op).isSome &&
    match op with
    | .isNull | .isNotNull | .cast => operandCount = 1
    | .case => operandCount % 2 = 1
    | .and | .or | .lessThan | .lessThanOrEqual | .greaterThan | .greaterThanOrEqual | .equals
    | .notEquals => table = .standard || 2 ≤ operandCount
    | .not => table = .standard || operandCount = 1
    | _ => true

theorem admits_eq (table : OperatorTable) (op : Operator) (operandCount : Nat) :
    table.admits op operandCount =
      ((table.strategy? op).map fun strategy => strategy.suits operandCount).getD false := by
  cases table <;> cases op <;> rfl

end OperatorTable

namespace Node

/-- Whether the node itself, whatever is nested in it, can be lowered. -/
def isSupported (table : OperatorTable) : Node → Bool
  | .call op operands _ => table.admits op operands.length
  | .dynamicParam _ _ => false
  | _ => true

theorem isSupported_of_operator? {table : OperatorTable} {node : Node} {op : Operator}
    (hop : node.operator? = some op) :
    node.isSupported table = table.admits op node.children.length := by
  cases node with
  | call op' operands ty =>
      obtain rfl : op' = op := Option.some.inj hop
      rfl
  | case branches otherwise ty =>
      obtain rfl : Operator.case = op := Option.some.inj hop
      have hodd : (case branches otherwise ty).children.length % 2 = 1 := by
        rw [children, List.length_append, length_flattenBranches, List.length_singleton]
        omega
      rw [OperatorTable.admits, OperatorTable.strategy?_case]
      simp [isSupported, hodd]
  | inputRef | localRef | literal | dynamicParam => cases hop

end Node

/-! ### Why lowering fails -/

/-- The faults with which a step can fail. -/
def Lowering.Throws {α : Type} (E : LoweringError → Prop) (x : Lowering α) : Prop :=
  ∀ s e s', x s = (.error e, s') → E e

namespace Lowering.Throws

variable {α β : Type} {E : LoweringError → Prop}

theorem pure (a : α) : (Pure.pure a : Lowering α).Throws E := by
  intro s e s' hrun
  cases (Prod.mk.inj hrun).1

theorem throw {e : LoweringError} (he : E e) : (MonadExcept.throw e : Lowering α).Throws E := by
  intro s e' s' hrun
  exact Except.error.inj (Prod.mk.inj hrun).1 ▸ he

theorem bind {x : Lowering α} {f : α → Lowering β} (hx : x.Throws E)
    (hf : ∀ a s s', x s = (.ok a, s') → (f a).Throws E) : (x >>= f).Throws E := by
  intro s e s' hrun
  rw [Lowering.bind_apply] at hrun
  rcases hfirst : x s with ⟨result, s₁⟩
  rw [hfirst] at hrun
  cases result with
  | error e' =>
      obtain ⟨herror, -⟩ := Prod.mk.inj hrun
      exact Except.error.inj herror ▸ hx s e' s₁ hfirst
  | ok a => exact hf a s s₁ hfirst s₁ e s' hrun

theorem withSlot {c : LoweringContext} (key : SlotKey) {lower : Lowering Expr}
    (hlower : lower.Throws E) : (c.withSlot key lower).Throws E := by
  intro s e s' hrun
  unfold LoweringContext.withSlot at hrun
  cases hslot : s.slot? key with
  | some slot =>
      rw [hslot] at hrun
      cases (Prod.mk.inj hrun).1
  | none =>
      rw [hslot] at hrun
      rcases hfirst : lower s with ⟨result, s₁⟩
      simp only [hfirst] at hrun
      cases result with
      | error e' =>
          obtain ⟨herror, -⟩ := Prod.mk.inj hrun
          exact Except.error.inj herror ▸ hlower s e' s₁ hfirst
      | ok lowered => cases (Prod.mk.inj hrun).1

end Lowering.Throws

namespace LoweringContext

variable {c : LoweringContext}

/-- The fault of a node that is not supported: of an operator that the table lacks, its own. -/
def complaint (c : LoweringContext) (node : Node) : LoweringError :=
  match node.operator? with
  | some op => if (c.table.strategy? op).isNone then .unsupportedOperator op else unsupported node
  | none => unsupported node

/-- A node of the kind that makes lowering fail, and what it makes lowering say. -/
def Complains (c : LoweringContext) (P : Node → Prop) (e : LoweringError) : Prop :=
  ∃ node, P node ∧ node.isSupported c.table = false ∧ e = c.complaint node

theorem throws_items {g : Getter} {E : LoweringError → Prop} {items : List (Place × Node)}
    (hitems : ∀ item ∈ items, (g.lower c item.1 item.2).Throws E) : (g.lowerEach c items).Throws E := by
  induction items with
  | nil => exact .pure []
  | cons item rest ih =>
      obtain ⟨hitem, hrest⟩ := List.forall_mem_cons.mp hitems
      exact hitem.bind fun e _ _ _ => (ih hrest).bind fun es _ _ _ => .pure (e :: es)

theorem throws_operation {P : Node → Prop} {op : Operator} {node : Node} (hop : node.operator? = some op)
    (hnode : P node) {args : Lowering (List Expr)} (hargs : args.Throws (c.Complains P))
    (hlength : ∀ s es s', args s = (.ok es, s') → es.length = node.children.length) :
    (Getter.operation c op node args).Throws (c.Complains P) := by
  have hsupported : node.isSupported c.table = c.table.admits op node.children.length :=
    Node.isSupported_of_operator? hop
  rw [OperatorTable.admits_eq] at hsupported
  unfold Getter.operation
  cases hstrategy : c.table.strategy? op with
  | none =>
      refine .throw ⟨node, hnode, by simp [hsupported, hstrategy], ?_⟩
      simp [complaint, hop, hstrategy]
  | some strategy =>
      have hcomplaint : c.complaint node = unsupported node := by simp [complaint, hop, hstrategy]
      rw [hstrategy, Option.map_some, Option.getD_some] at hsupported
      dsimp only
      split
      · rename_i hrefused
        refine .throw ⟨node, hnode, ?_, hcomplaint.symm⟩
        obtain ⟨rfl, heven⟩ : strategy = .case ∧ node.children.length % 2 = 0 := by
          simpa [Strategy.refuses] using hrefused
        rw [hsupported]
        exact decide_eq_false (by omega)
      · refine hargs.bind fun es s s' hrun => ?_
        unfold assemble
        cases hassemble : strategy.assemble? (c.adapter node.ty) es with
        | some e => exact .pure e
        | none =>
            refine .throw ⟨node, hnode, ?_, hcomplaint.symm⟩
            rw [hsupported, ← hlength s es s' hrun,
              ← Strategy.isSome_assemble? strategy (c.adapter node.ty), hassemble]
            rfl

/-- What has to be known about the nodes that lowering comes by. -/
structure Sound (c : LoweringContext) (P : Node → Prop) : Prop where
  nested {node part : Node} : P node → part ∈ node.nodes → P part
  body {index : Nat} {ty : LogicalType} : P (.localRef index ty) →
    ∃ body, c.program.exprs[index]? = some body ∧ P body
  field {index : Nat} {ty : LogicalType} {E : LoweringError → Prop} : P (.inputRef index ty) →
    ((Getter.rows c.inputs).read index).Throws E

variable {P : Node → Prop}

theorem Sound.leaf (h : c.Sound P) {node : Node} (hnode : P node) (hop : node.operator? = none)
    (hreference : node.reference? = none) :
    ((Getter.rows c.inputs).leaf c node).Throws (c.Complains P) := by
  cases node with
  | inputRef index ty => exact h.field hnode
  | literal value ty => exact .pure _
  | dynamicParam index ty => exact .throw ⟨_, hnode, rfl, rfl⟩
  | localRef => cases hreference
  | call | case => cases hop

theorem Sound.lower (h : c.Sound P) {node : Node} (hnode : P node) (place : Place) :
    (c.lower place node).Throws (c.Complains P) := by
  rw [LoweringContext.lower]
  induction node using c.program.node_induction generalizing place with
  | dangling index ty hnone =>
      obtain ⟨body, hbody, -⟩ := h.body hnode
      rw [hnone] at hbody
      cases hbody
  | reference index ty body hbody ih =>
      obtain ⟨body', hbody', hreached⟩ := h.body hnode
      obtain rfl : body = body' := Option.some.inj (hbody.symm.trans hbody')
      rw [Getter.lower_localRef _ c place ty hbody]
      exact .withSlot _ (ih hreached _)
  | other node hreference ih =>
      cases hop : node.operator? with
      | some op =>
          rw [Getter.lower_of_operator? _ c place hop]
          refine .withSlot _ (throws_operation hop hnode (throws_items fun item hitem => ?_) ?_)
          · have hchild := Place.mem_of_mem_childItems hitem
            exact ih item.2 hchild (h.nested hnode (Node.mem_nodes_child node.mem_nodes_self hchild)) _
          · intro s es s' hrun
            rw [Getter.length_of_lowerEach _ c hrun, Place.length_childItems]
      | none =>
          rw [Getter.lower_leaf _ c place hop hreference]
          exact .withSlot _ (h.leaf hnode hop hreference)

theorem Sound.lowerEach (h : c.Sound P) {roots : List (Place × Node)}
    (hroots : ∀ root ∈ roots, P root.2) : (c.lowerEach roots).Throws (c.Complains P) :=
  throws_items fun root hroot => h.lower (hroots root hroot) root.1

theorem throws_analyze {E : LoweringError → Prop} {roots : List Node}
    (hroots : ∀ root ∈ roots, ∀ index ∈ root.references, index < c.program.exprs.length) :
    (c.analyze roots).Throws E := by
  intro s e s' hrun
  unfold analyze at hrun
  cases hpolicy : c.policy with
  | all =>
      rw [hpolicy] at hrun
      cases (Prod.mk.inj hrun).1
  | shared =>
      obtain ⟨usage, husage, -⟩ := Usage.exists_ofRoots? hroots
      simp only [hpolicy, husage] at hrun
      cases (Prod.mk.inj hrun).1

/-! ### What was lowered is supported -/

theorem reading_supported (c : LoweringContext) :
    c.Reading (fun _ => True) fun _ node _ => node.isSupported c.table = true where
  grows _ _ _ h := h
  field _ _ _ := ⟨trivial, rfl⟩
  literal _ _ := rfl
  reference _ _ _ _ := rfl
  operation _ _ hop hstrategy hargs hassemble := by
    rw [Node.isSupported_of_operator? hop, OperatorTable.admits_eq, hstrategy, Option.map_some,
      Option.getD_some, hargs.length_eq, ← Strategy.isSome_assemble?, hassemble]
    rfl
  naming _ _ h := ⟨trivial, h⟩

theorem isSupported_of_run_ok {r : PassRequest} {block after : Block} {es : List Expr}
    (hlowers : ¬ r.Vacuous) (hrun : r.run block = (.ok es, after)) {place : Place} {node : Node}
    (hreaches : r.context.program.Reaches r.items place node) :
    node.isSupported r.context.table = true := by
  obtain ⟨shared, s, h, -⟩ := PassRequest.ends_of_run_ok hlowers hrun
  obtain ⟨-, -, hsupported⟩ := h.reads r.context.reading_supported trivial hreaches
  exact hsupported

/-! ### One row -/

/-- The context with a single row as its input, which is laid out as the program expects. -/
def overRow (c : LoweringContext) (row : Expr) (rowAdapter : TypeAdapter) : LoweringContext :=
  { c with inputs := [⟨row, .ofRowType c.program.inputRowType rowAdapter⟩] }

theorem throws_readField (c : LoweringContext) (row : Expr) (rowAdapter : TypeAdapter) {index : Nat}
    (hindex : index < c.program.inputRowType.length) {E : LoweringError → Prop} :
    ((Getter.rows (c.overRow row rowAdapter).inputs).read index).Throws E := by
  intro s e s' hrun
  have hcount : index < (RowLayout.ofRowType c.program.inputRowType rowAdapter).fieldCount := by
    rwa [RowLayout.fieldCount, RowLayout.ofRowType, List.length_map]
  have htype := List.getElem?_eq_getElem hcount
  simp only [Getter.read, Getter.rows, overRow, RowInput.readField, RowInput.locate?, hcount, List.isEmpty_cons,
    RowLayout.fieldOf, htype, Bool.false_eq_true, if_false, if_true] at hrun
  cases (Prod.mk.inj hrun).1

end LoweringContext

namespace PassRequest

theorem sound_overRow (c : LoweringContext) (row : Expr) (rowAdapter : TypeAdapter)
    (outputs : Outputs) :
    (c.overRow row rowAdapter).Sound fun node => ∃ place,
      c.program.Reaches (PassRequest.mk (c.overRow row rowAdapter) outputs).items place node where
  nested := fun ⟨_, h⟩ hpart => h.nested hpart
  body := by
    rintro index ty ⟨place, h⟩
    have hlt := h.lt_of_mem_references (fun item hitem => (PassRequest.mk (c.overRow row rowAdapter)
      outputs).lt_of_mem_references _ (List.mem_map_of_mem hitem)) index
      (Node.mem_references_localRef _ _)
    have hbody := List.getElem?_eq_getElem hlt
    exact ⟨_, hbody, _, h.step (.body hbody)⟩
  field := by
    rintro index ty E ⟨place, h⟩
    have hmem := mem_reachedNodes_of_reaches (r := ⟨c.overRow row rowAdapter, outputs⟩) h rfl
    obtain ⟨k, -, body, hbody, hnested⟩ := Program.mem_reachedNodes.mp hmem
    exact c.throws_readField row rowAdapter (Node.lt_of_inputRef_fault?
      (Node.fault?_of_mem_nodes (Program.fault?_of_expr hbody) hnested))

end PassRequest

namespace LoweringContext

theorem of_run_error {α : Type} {pass : Lowering α} {block after : Block} {e : LoweringError}
    (hrun : run block pass = (.error e, after)) : ∃ s, pass (.start block) = (.error e, s) := by
  unfold run at hrun
  rcases hresult : pass (.start block) with ⟨result, s⟩
  rw [hresult] at hrun
  cases result with
  | ok a => cases (Prod.mk.inj hrun).1
  | error e' => exact ⟨s, by rw [Except.error.inj (Prod.mk.inj hrun).1]⟩

theorem complaint_cases (c : LoweringContext) (node : Node) :
    (∃ op, node.operator? = some op ∧ c.table.strategy? op = none ∧
        c.complaint node = .unsupportedOperator op) ∨
      c.complaint node = .unsupportedExpression node.kind node.digest := by
  unfold complaint
  cases hop : node.operator? with
  | none => exact Or.inr rfl
  | some op =>
      cases hstrategy : c.table.strategy? op with
      | none => exact Or.inl ⟨op, rfl, hstrategy, by simp [hstrategy]⟩
      | some strategy => exact Or.inr (by simp [hstrategy, unsupported])

theorem exists_unsupported_of_error {c : LoweringContext} {row : Expr} {rowAdapter : TypeAdapter}
    {block after : Block} {e : LoweringError}
    (hrun : (c.overRow row rowAdapter).lowerProjects block = (.error e, after)) :
    ∃ node ∈ c.program.reachedNodes c.program.projects, node.isSupported c.table = false ∧
      node.reference? = none ∧ e = c.complaint node := by
  let r : PassRequest := ⟨c.overRow row rowAdapter, .projects⟩
  have hroots : r.items.map Prod.snd = c.program.projects := map_snd_placed _ _
  obtain ⟨s, hpass⟩ := of_run_error hrun
  have hitems : ∀ item ∈ r.items, ∃ place, c.program.Reaches r.items place item.2 :=
    fun item hitem => ⟨item.1, .root hitem⟩
  have hlower := (PassRequest.sound_overRow c row rowAdapter .projects).lowerEach hitems
  have hthrows := (throws_analyze r.lt_of_mem_references).bind fun _ _ _ _ => hlower
  obtain ⟨node, ⟨place, hreaches⟩, hunsupported, rfl⟩ := hthrows (.start block) e s hpass
  have hnode : node.reference? = none := by
    cases node <;> first | rfl | cases hunsupported
  have hmem := PassRequest.mem_reachedNodes_of_reaches (r := r) hreaches hnode
  rw [hroots] at hmem
  exact ⟨node, hmem, hunsupported, hnode, rfl⟩

/-- **Passes succeed on what is supported.** Let the input be a single row of the program's input row
type. The projections can be lowered if and only if every node in the expressions that they lead to is
supported. Otherwise the fault is about such a node that is not, which is a call or a dynamic
parameter; it is never about a field, the input or a reference. -/
theorem lowers_iff_supported (c : LoweringContext) (row : Expr) (rowAdapter : TypeAdapter)
    (block : Block) :
    ((∃ es after, (c.overRow row rowAdapter).lowerProjects block = (.ok es, after)) ↔
        ∀ node ∈ c.program.reachedNodes c.program.projects, node.isSupported c.table = true) ∧
      ∀ e after, (c.overRow row rowAdapter).lowerProjects block = (.error e, after) →
        ∃ node ∈ c.program.reachedNodes c.program.projects,
          node.isSupported c.table = false ∧ node.reference? = none ∧
            ((∃ op, node.operator? = some op ∧ c.table.strategy? op = none ∧
                e = .unsupportedOperator op) ∨
              e = .unsupportedExpression node.kind node.digest) := by
  refine ⟨⟨?_, fun hall => ?_⟩, fun e after hrun => ?_⟩
  · rintro ⟨es, after, hrun⟩ node hnode
    rw [← map_snd_placed .project c.program.projects] at hnode
    obtain ⟨place, hreaches⟩ := Program.Reaches.of_mem_reachedNodes hnode
    exact isSupported_of_run_ok (r := ⟨c.overRow row rowAdapter, .projects⟩)
      (fun hvacuous => by cases hvacuous.1) hrun hreaches
  · rcases hrun : (c.overRow row rowAdapter).lowerProjects block with ⟨result, after⟩
    cases result with
    | ok es => exact ⟨es, after, rfl⟩
    | error e =>
        obtain ⟨node, hnode, hunsupported, -⟩ := exists_unsupported_of_error hrun
        rw [hall node hnode] at hunsupported
        cases hunsupported
  · obtain ⟨node, hnode, hunsupported, hreference, rfl⟩ := exists_unsupported_of_error hrun
    exact ⟨node, hnode, hunsupported, hreference, c.complaint_cases node⟩

/-- `NOT` of two operands. -/
def notProgram : Program where
  inputRowType := [.notNull .boolean]
  exprs := [.inputRef 0 (.notNull .boolean),
    .call .not [.localRef 0 (.notNull .boolean), .localRef 0 (.notNull .boolean)] (.notNull .boolean)]
  projects := [.localRef 1 (.notNull .boolean)]
  condition := none
  faultless := by decide

def notContext (table : OperatorTable) : LoweringContext :=
  { likeContext with program := notProgram, table := table }

/-- A runtime function takes any number of operands, a host operator does not. -/
theorem not_takes_two_operands_at_runtime_only :
    (∃ es after, ((notContext .standard).overRow (.var ⟨"row", .objectArray⟩)
        .standard).lowerProjects usedBlock = (.ok es, after)) ∧
      ∃ node ∈ notProgram.reachedNodes notProgram.projects, node.isSupported .native = false ∧
        node.kind = "call" ∧ node.digest = "NOT($t0, $t0)" := by
  have hrun : ((notContext .native).overRow (.var ⟨"row", .objectArray⟩) .standard).lowerProjects
      usedBlock = (.error (.unsupportedExpression "call" "NOT($t0, $t0)"),
        (((notContext .native).overRow (.var ⟨"row", .objectArray⟩) .standard).lowerProjects
          usedBlock).2) := Prod.ext (by rfl) rfl
  obtain ⟨node, hnode, hunsupported, -, hfault⟩ :=
    (lowers_iff_supported (notContext .native) _ .standard usedBlock).2 _ _ hrun
  refine ⟨(lowers_iff_supported (notContext .standard) _ .standard usedBlock).1.mpr (by decide),
    node, hnode, hunsupported, ?_⟩
  rcases hfault with ⟨op, -, -, hfault⟩ | hfault
  · cases hfault
  · obtain ⟨hkind, hdigest⟩ := LoweringError.unsupportedExpression.inj hfault
    exact ⟨hkind.symm, hdigest.symm⟩

end LoweringContext

end RowCode
