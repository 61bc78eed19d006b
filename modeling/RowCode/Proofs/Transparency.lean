import RowCode.Proofs.Expansion
import RowCode.Proofs.PlainTrees

/-!
# Sharing is transparent

Slots and variables only save work. Whatever a pass names, and whatever passes before it left in the
block, expanding the variables in its results gives the plain trees of its nodes. In the simulation
behind this, an expression stands for a node if it expands to the tree of the node; strategies look
at the types of operands, so it matters that expanding keeps types.
-/

namespace RowCode

namespace Block

/-- Blocks to which only passes over the given rows have added declarations. Names may be reserved at
any time. -/
inductive LeftByPasses (inputs : List RowInput) : Block → Prop where
  | start {b : Block} (hempty : b.statements = []) : LeftByPasses inputs b
  | reserve {b : Block} (suggestion : String) (h : LeftByPasses inputs b) :
      LeftByPasses inputs (b.newName suggestion).2
  | pass {b : Block} (r : PassRequest) (hinputs : r.context.inputs = inputs)
      (h : LeftByPasses inputs b) : LeftByPasses inputs (r.run b).2

theorem Scoped.newName {inputs : List Variable} {b : Block} (h : b.Scoped inputs)
    (suggestion : String) : (b.newName suggestion).2.Scoped inputs where
  named d hd := (b.mem_names_reserve _ _).mpr (Or.inr (h.named d hd))
  distinct := h.distinct
  typed := h.typed
  ordered := h.ordered

end Block

theorem PassRequest.reading_firstOrder (r : PassRequest)
    (hrows : ∀ input ∈ r.context.inputs, input.row.FirstOrder) :
    r.context.Reading (fun b => ∀ d ∈ b.statements, d.init.FirstOrder)
      fun _ _ e => e.FirstOrder where
  grows _ _ _ he := he
  field {b b'} {index ty e} hb _ hread := by
    obtain ⟨position, input, offset, hlocate, rfl, hfield⟩ := RowInput.of_readField_ok hread
    refine ⟨?_, Expr.compositional_firstOrder.fieldOf
      (show (Expr.var _).FirstOrder from trivial) hfield⟩
    unfold Block.append
    cases b.holder? input.row with
    | some v => exact hb
    | none =>
        intro d hd
        rcases Block.mem_statements_declareFinal hd with hold | rfl
        · exact hb d hold
        · exact hrows input (RowInput.mem_of_locate? hlocate)
  literal _ _ := Expr.compositional_firstOrder.lowerLiteral _ _ _
  reference _ _ _ he := he
  operation _ _ _ _ hargs he :=
    Expr.compositional_firstOrder.assemble?
      (LoweringContext.forall_of_forall₂ hargs fun _ _ harg => harg) he
  naming {b} {node e} suggestion hb he := by
    refine ⟨fun d hd => ?_, trivial⟩
    rcases Block.mem_statements_declareFinal hd with hold | rfl
    · exact hb d hold
    · exact he

namespace PlainContext

variable {c : PlainContext}

def inputs (c : PlainContext) : List RowInput := [⟨.var c.row, c.layout⟩]

theorem traceable_of_leftByPasses {block : Block} (hblock : Block.LeftByPasses c.inputs block)
    (hreserved : block.Reserves c.row.name) : block.Traceable c.row := by
  suffices hkept : block.Scoped [c.row] ∧ ∀ d ∈ block.statements, d.init.FirstOrder from
    ⟨hkept.1, hkept.2, hreserved⟩
  clear hreserved
  induction hblock with
  | start hempty => exact ⟨Block.scoped_of_no_statements hempty, by simp [hempty]⟩
  | reserve suggestion _ ih => exact ⟨ih.1.newName suggestion, ih.2⟩
  | pass r hinputs _ ih =>
      have hrows : RowInput.rowVars r.context.inputs ⊆ [c.row] := by
        rw [hinputs]
        exact List.Subset.refl _
      have hfirst : ∀ input ∈ r.context.inputs, input.row.FirstOrder := by
        rw [hinputs]
        intro input hinput
        rw [List.mem_singleton.mp hinput]
        trivial
      exact ⟨r.invariant_run (r.reading_inScope hrows) ih.1,
        r.invariant_run (r.reading_firstOrder hfirst) ih.2⟩

theorem locate?_inputs {index position offset : Nat} {input : RowInput}
    (hlocate : RowInput.locate? 0 c.inputs index = some (position, input, offset)) :
    input = ⟨.var c.row, c.layout⟩ ∧ offset = index := by
  unfold inputs at hlocate
  rw [RowInput.locate?] at hlocate
  split at hlocate
  · obtain ⟨-, rfl, rfl⟩ := by simpa using hlocate
    exact ⟨rfl, rfl⟩
  · simp [RowInput.locate?] at hlocate

/-- **The simulation.** Each expression expands to the tree of the node it stands for. -/
theorem reading_tree (c : PlainContext) (policy : NamingPolicy) (stem : String) :
    (c.naming policy stem).Reading (Block.Traceable c.row) fun b node e =>
      c.tree node = .ok (b.expand e) ∧ Block.Tame c.row b.statements e where
  grows hb _ hgrows he := by
    rw [hb.expand_of_grows hgrows he.2]
    exact ⟨he.1, he.2.mono hgrows.statements_grow⟩
  field {b b'} {index ty e} hb _ hread := by
    obtain ⟨position, input, offset, hlocate, rfl, hfield⟩ := RowInput.of_readField_ok hread
    obtain ⟨rfl, rfl⟩ := locate?_inputs hlocate
    obtain ⟨htraceable, htame, hexpand⟩ := hb.append_row (RowInput.rowName position)
    refine ⟨htraceable, ?_, (Block.compositional_tame _ _).fieldOf htame hfield⟩
    have hcommutes : c.layout.fieldOf _ offset = _ :=
      (Block.homomorphism_expand _).fieldOf (htraceable.ty_expand htame) offset
    rw [hexpand, hfield] at hcommutes
    exact hcommutes
  literal {b} {value ty} _ _ := by
    refine ⟨?_, (Block.compositional_tame _ _).lowerLiteral _ _ _⟩
    rw [(Block.homomorphism_expand b).lowerLiteral]
    rfl
  reference _ _ hbody he := by
    rw [tree_localRef hbody]
    exact he
  operation {b} {node op strategy args e} hb _ hop hstrategy hargs he := by
    have htame : ∀ arg ∈ args, Block.Tame c.row b.statements arg :=
      LoweringContext.forall_of_forall₂ hargs fun _ _ harg => harg.2
    refine ⟨?_, (Block.compositional_tame _ _).assemble? htame he⟩
    have hchildren : node.children.mapM c.tree = .ok (args.map b.expand) :=
      mapM_of_forall₂ (List.forall₂_map_right_iff.mpr (hargs.imp fun _ _ harg => harg.1))
    have hassemble : strategy.assemble? (c.adapter node.ty) (args.map b.expand) =
        some (b.expand e) := by
      rw [(Block.homomorphism_expand b).assemble? strategy _ fun arg harg =>
        hb.ty_expand (htame arg harg)]
      exact congrArg (Option.map b.expand) he
    rw [tree_of_operator? hop hstrategy, hchildren]
    change c.assemble strategy node _ = _
    rw [assemble, hassemble]
  naming suggestion hb he := by
    obtain ⟨htraceable, htame, hexpand⟩ := hb.declareFinal he.2 suggestion
    exact ⟨htraceable, hexpand ▸ he.1, htame⟩

variable {policy : NamingPolicy} {stem : String} {outputs : Outputs} {block after : Block}
  {es : List Expr}

theorem trees_eq (policy : NamingPolicy) (stem : String)
    (hlowers : ¬ (c.request policy stem outputs).Vacuous) :
    c.trees outputs =
      ((c.request policy stem outputs).items.map Prod.snd).mapM c.tree := by
  cases outputs with
  | projects => simp [trees, request, PassRequest.items, LoweringContext.placed, naming, Function.comp_def]
  | condition =>
      cases hcondition : c.program.condition with
      | none => exact absurd ⟨rfl, hcondition⟩ hlowers
      | some condition => simp [trees, request, PassRequest.items, naming, hcondition]

theorem expand_of_run (hblock : block.Traceable c.row)
    (hrun : (c.request policy stem outputs).run block = (.ok es, after)) :
    after.Traceable c.row ∧ c.trees outputs = .ok (es.map after.expand) ∧
      ∀ e ∈ es, Block.Tame c.row after.statements e := by
  obtain ⟨hafter, ⟨hvacuous, rfl⟩ | ⟨hlowers, hresults⟩⟩ :=
    PassRequest.reads (c.reading_tree policy stem) hblock hrun
  · obtain ⟨rfl, hcondition⟩ := hvacuous
    refine ⟨hafter, ?_, fun e he => ?_⟩
    · have hnone : c.program.condition = none := hcondition
      rw [trees, hnone, List.map_singleton, Expr.boolean, (after.homomorphism_expand).constant]
    · rw [List.mem_singleton.mp he]
      exact (Block.compositional_tame _ _).constant _ _
  · refine ⟨hafter, ?_, LoweringContext.forall_of_forall₂ hresults fun _ _ he => he.2⟩
    rw [trees_eq policy stem hlowers]
    exact mapM_of_forall₂ (List.forall₂_map_right_iff.mpr (hresults.imp fun _ _ he => he.1))

/-- **Sharing and naming are transparent.** Let a pass succeed on a block that holds only what passes
over the same row left there and in which the row's name is reserved. Replacing each variable in its
results by its initializer, and again until none is left but the row, gives the plain trees. So
results expand alike whatever the policy, the names and the earlier passes were. -/
theorem results_expand_to_trees (c : PlainContext) (policy : NamingPolicy) (stem : String)
    (outputs : Outputs) (block after : Block) (es : List Expr)
    (hblock : Block.LeftByPasses c.inputs block) (hreserved : block.Reserves c.row.name)
    (hrun : (c.request policy stem outputs).run block = (.ok es, after)) :
    c.trees outputs = .ok (es.map after.expand) ∧
      (∀ e ∈ es, after.inline (after.expand e) = after.expand e ∧
        ∀ v ∈ (after.expand e).vars, v = c.row) ∧
      ∀ policy' stem' block' after' es', Block.LeftByPasses c.inputs block' →
        block'.Reserves c.row.name →
        (c.request policy' stem' outputs).run block' = (.ok es', after') →
        es'.map after'.expand = es.map after.expand := by
  obtain ⟨hafter, htrees, htame⟩ :=
    expand_of_run (traceable_of_leftByPasses hblock hreserved) hrun
  refine ⟨htrees, fun e he => ?_, ?_⟩
  · have hexpanded := hafter.expand_tame (htame e he)
    exact ⟨Block.inline_eq_id hafter.initOf?_row hexpanded, hexpanded.eq_row⟩
  · intro policy' stem' block' after' es' hblock' hreserved' hrun'
    obtain ⟨-, htrees', -⟩ :=
      expand_of_run (traceable_of_leftByPasses hblock' hreserved') hrun'
    exact Except.ok.inj (htrees'.symm.trans htrees)

def upperContext : PlainContext where
  program := PassRequest.upperProgram
  adapter := .standard
  row := ⟨"row", .objectArray⟩
  layout := ⟨[.string]⟩
  table := .standard

/-- What lowering the condition leaves if every node is named. -/
def blockOfCondition : Block :=
  ((upperContext.request .all "v" .condition).run (Block.empty.newName "row").2).2

theorem upper_expands_to_trees :
    ∃ after es, (upperContext.request .shared "v" .projects).run blockOfCondition =
        (.ok es, after) ∧
      es = [.var ⟨"v2_1", .string⟩, .var ⟨"v2_1", .string⟩] ∧
      upperContext.trees .projects = .ok (es.map after.expand) := by
  have hblock : Block.LeftByPasses upperContext.inputs blockOfCondition :=
    .pass _ rfl (.reserve "row" (.start rfl))
  have hstart : (Block.empty.newName "row").2.Reserves "row" := ⟨by decide, fun d hd => by cases hd⟩
  have hreserved : blockOfCondition.Reserves "row" := hstart.grows (PassRequest.grows_run _ _)
  have hrun : (upperContext.request .shared "v" .projects).run blockOfCondition =
      (.ok [.var ⟨"v2_1", .string⟩, .var ⟨"v2_1", .string⟩],
        ((upperContext.request .shared "v" .projects).run blockOfCondition).2) :=
    Prod.ext (by rfl) rfl
  exact ⟨_, _, hrun, rfl,
    (results_expand_to_trees upperContext .shared "v" .projects _ _ _ hblock hreserved hrun).1⟩

end PlainContext

end RowCode
