import RowCode.Proofs.Lookups

/-!
# Types of generated code

Nodes carry logical types, which nothing checks when a program is made. Where the types of references,
nulls and predicates are what they should be, each node becomes an expression of the host type that
represents its logical type, with the standard adapter.
-/

namespace RowCode

/-! ### Well-typed programs -/

/-- Whether the type of the node fits what it is made of, as far as lowering relies on it: what is
nested in it is judged by itself. -/
def Node.isWellTyped (p : ProgramParts) (table : OperatorTable) : Node → Bool
  | .inputRef index ty => p.inputRowType[index]? = some ty
  | .localRef index ty => (p.exprs[index]?).map Node.ty = some ty
  | .literal value ty => !value.isNull || ty.nullable
  | .call op operands ty =>
    match op with
    | .isNull | .isNotNull => ty = .notNull .boolean
    | .and | .or | .lessThan | .lessThanOrEqual | .greaterThan | .greaterThanOrEqual | .equals
    | .notEquals => table = .standard || ty = .notNull .boolean
    | .not => table = .standard ||
        (ty = .notNull .boolean && operands.all fun operand => operand.ty.dataType = .boolean)
    | _ => true
  | _ => true

/-- Whether every node of the program is well typed for a table. -/
def Program.isWellTyped (p : Program) (table : OperatorTable) : Bool :=
  ((p.exprs ++ p.outputs).flatMap Node.nodes).all (Node.isWellTyped p.toProgramParts table)

theorem Program.mem_of_has {p : Program} {node : Node} (h : p.Has node) :
    node ∈ (p.exprs ++ p.outputs).flatMap Node.nodes := by
  obtain ⟨⟨origin, path⟩, hnode⟩ := h
  rw [List.mem_flatMap]
  induction path generalizing node with
  | nil =>
      refine ⟨node, ?_, node.mem_nodes_self⟩
      cases origin with
      | expr index => exact List.mem_append_left _ (List.mem_of_getElem? hnode)
      | project index =>
          exact List.mem_append_right _ (List.mem_append_left _ (List.mem_of_getElem? hnode))
      | condition =>
          exact List.mem_append_right _ (List.mem_append_right _ (Option.mem_toList.mpr hnode))
      | extra index => cases hnode
  | cons position path ih =>
      obtain ⟨parent, hparent, hchild⟩ := Option.bind_eq_some_iff.mp hnode
      obtain ⟨root, hroot, hnested⟩ := ih hparent
      exact ⟨root, hroot, Node.mem_nodes_child hnested (List.mem_of_getElem? hchild)⟩

theorem Program.isWellTyped_of_has {p : Program} {table : OperatorTable}
    (hp : p.isWellTyped table = true) {node : Node} (h : p.Has node) :
    node.isWellTyped p.toProgramParts table = true :=
  List.all_eq_true.mp hp node (mem_of_has h)

/-! ### Types of what strategies assemble -/

namespace Expr

theorem ty_operation {op : BinaryOp} (hop : op.isBoolean = true) (left right : Expr) :
    (operation op left right).ty = .boolean :=
  if_pos hop

theorem ty_foldl_operation {op : BinaryOp} (hop : op.isBoolean = true) {first : Expr}
    (hfirst : first.ty = .boolean) (rest : List Expr) :
    (rest.foldl (operation op) first).ty = .boolean := by
  induction rest generalizing first with
  | nil => exact hfirst
  | cons e rest ih => exact ih (ty_operation hop first e)

theorem ty_unbox_of_boolean {e : Expr} {nullable : Bool}
    (he : e.ty = TypeAdapter.scalar .boolean nullable) : e.unbox.ty = .boolean := by
  unfold unbox
  rw [he]
  cases nullable with
  | true => exact ty_coerce _ _
  | false => exact he

theorem ty_caseChain (ty : HostType) (branches : List (Expr × Expr)) (otherwise : Expr) :
    (Strategy.caseChain ty branches otherwise).ty = ty := by
  cases branches with
  | nil => exact ty_coerce _ _
  | cons branch rest => exact ty_coerce branch.2 ty

end Expr

theorem ty_lowerLiteral {value : Value} {ty : LogicalType}
    (htyped : (!value.isNull || ty.nullable) = true) :
    (lowerLiteral .standard value ty).ty = TypeAdapter.standard ty := by
  unfold lowerLiteral
  dsimp only
  split
  · rename_i hnull
    obtain ⟨dataType, nullable⟩ := ty
    obtain rfl : nullable = true := by simpa [hnull] using htyped
    cases dataType <;> rfl
  · split <;> rfl

namespace Strategy

/-- The type of what a strategy assembles. -/
theorem ty_assemble? {strategy : Strategy} {ty : HostType} {args : List Expr} {e : Expr}
    (he : strategy.assemble? ty args = some e) :
    match strategy with
    | .runtimeCall _ | .case | .cast => e.ty = ty
    | .fold op => op.isBoolean = true → e.ty = .boolean
    | .unary _ => ∃ operand, args = [operand] ∧ e.ty = operand.unbox.ty
    | .nullTest _ => e.ty = .boolean := by
  unfold assemble? at he
  split at he
  · obtain rfl := Option.some.inj he
    rfl
  · obtain rfl := Option.some.inj he
    intro hop
    exact Expr.ty_foldl_operation hop (Expr.ty_operation hop _ _) _
  · obtain rfl := Option.some.inj he
    exact ⟨_, rfl, rfl⟩
  · obtain rfl := Option.some.inj he
    dsimp only
    split
    · rfl
    · split <;> rfl
  · obtain ⟨⟨branches, otherwise⟩, -, rfl⟩ := Option.map_eq_some_iff.mp he
    exact Expr.ty_caseChain _ _ _
  · obtain rfl := Option.some.inj he
    exact Expr.ty_coerce _ _
  · cases he

end Strategy

section Calls

variable {p : ProgramParts} {table : OperatorTable} {op : Operator} {operands : List Node}
  {ty : LogicalType}

theorem Node.isWellTyped_of_fold {hostOp : BinaryOp}
    (hstrategy : table.strategy? op = some (.fold hostOp))
    (htyped : (Node.call op operands ty).isWellTyped p table = true) :
    hostOp.isBoolean = true ∧ ty = .notNull .boolean := by
  cases table with
  | standard => cases op <;> cases hstrategy
  | native =>
      cases op <;> cases hstrategy <;> exact ⟨rfl, by simpa [isWellTyped] using htyped⟩

theorem Node.isWellTyped_of_unary {hostOp : UnaryOp}
    (hstrategy : table.strategy? op = some (.unary hostOp))
    (htyped : (Node.call op operands ty).isWellTyped p table = true) :
    ty = .notNull .boolean ∧ ∀ operand ∈ operands, operand.ty.dataType = .boolean := by
  cases table with
  | standard => cases op <;> cases hstrategy
  | native =>
      cases op <;> cases hstrategy
      simpa [isWellTyped] using htyped

theorem Node.isWellTyped_of_nullTest {holdsForValues : Bool}
    (hstrategy : table.strategy? op = some (.nullTest holdsForValues))
    (htyped : (Node.call op operands ty).isWellTyped p table = true) : ty = .notNull .boolean := by
  cases table <;> cases op <;> cases hstrategy <;> simpa [isWellTyped] using htyped

/-- **Calls have the host type of their logical type**, if their operands do. -/
theorem Strategy.ty_assemble?_of_isWellTyped {strategy : Strategy} {args : List Expr} {e : Expr}
    (hstrategy : table.strategy? op = some strategy)
    (htyped : (Node.call op operands ty).isWellTyped p table = true)
    (hargs : List.Forall₂ (fun operand arg => arg.ty = TypeAdapter.standard operand.ty) operands args)
    (he : strategy.assemble? (TypeAdapter.standard ty) args = some e) :
    e.ty = TypeAdapter.standard ty := by
  have hassembled := ty_assemble? he
  cases strategy with
  | runtimeCall | case | cast => exact hassembled
  | fold hostOp =>
      obtain ⟨hboolean, rfl⟩ := Node.isWellTyped_of_fold hstrategy htyped
      exact hassembled hboolean
  | unary hostOp =>
      obtain ⟨rfl, hoperands⟩ := Node.isWellTyped_of_unary hstrategy htyped
      obtain ⟨arg, rfl, hty⟩ := hassembled
      obtain ⟨operand, rest, harg, -, rfl⟩ := List.forall₂_cons_right_iff.mp hargs
      rw [TypeAdapter.standard, hoperands operand List.mem_cons_self] at harg
      exact hty.trans (Expr.ty_unbox_of_boolean harg)
  | nullTest holdsForValues =>
      rw [Node.isWellTyped_of_nullTest hstrategy htyped]
      exact hassembled

end Calls

theorem Block.Grows.ty_target {b b' : Block} (h : b.Grows b') :
    ∀ d ∈ b'.statements.drop b.length, d.target.ty = d.init.ty := by
  induction h with
  | refl => simp [Block.length]
  | @declare b' suggestion init h ih =>
      obtain ⟨added, hadded⟩ := h.statements_grow
      have hle : b.length ≤ b'.statements.length := by
        rw [← hadded, List.length_append]
        exact Nat.le_add_right _ _
      intro d hd
      rw [Block.statements_declareFinal, List.drop_append_of_le_length hle] at hd
      rcases List.mem_append.mp hd with hold | hlast
      · exact ih d hold
      · rw [List.mem_singleton.mp hlast]
        rfl

/-! ### Types of what a pass computes -/

namespace LoweringContext

variable {c : LoweringContext} {row : Expr}

theorem ty_of_readField {layout : RowLayout} {b b' : Block} {index : Nat} {host : HostType} {e : Expr}
    (hfield : layout.fieldTypes[index]? = some host)
    (hread : RowInput.readField [⟨row, layout⟩] b index = (.ok e, b')) : e.ty = host := by
  obtain ⟨position, input, offset, hlocate, -, he⟩ := RowInput.of_readField_ok hread
  obtain ⟨rfl, rfl⟩ : input = ⟨row, layout⟩ ∧ offset = index := by
    rw [RowInput.locate?] at hlocate
    split at hlocate
    · obtain ⟨-, rfl, rfl⟩ := by simpa using hlocate
      exact ⟨rfl, rfl⟩
    · cases hlocate
  rw [RowLayout.fieldOf, hfield] at he
  rw [← Except.ok.inj he]
  exact Expr.ty_coerce _ _

/-- **The reading of types.** -/
theorem reading_typed (hadapter : c.adapter = .standard)
    (hinputs : c.inputs = [⟨row, .ofRowType c.program.inputRowType .standard⟩])
    (hprogram : c.program.isWellTyped c.table = true) :
    c.Reading (fun _ => True) fun _ node e => e.ty = TypeAdapter.standard node.ty where
  grows _ _ _ he := he
  field {b b'} {index ty e} _ hnode hread := by
    have htyped : c.program.inputRowType[index]? = some ty :=
      of_decide_eq_true (Program.isWellTyped_of_has hprogram hnode)
    rw [hinputs] at hread
    refine ⟨trivial, ty_of_readField ?_ hread⟩
    rw [RowLayout.ofRowType, List.getElem?_map, htyped, Option.map_some]
    rfl
  literal _ hnode := by
    have hliteral := ty_lowerLiteral (Program.isWellTyped_of_has hprogram hnode)
    rwa [← hadapter] at hliteral ⊢
  reference {b} {index ty body e} _ hnode hbody he := by
    have htyped : (c.program.exprs[index]?).map Node.ty = some ty :=
      of_decide_eq_true (Program.isWellTyped_of_has hprogram hnode)
    rw [hbody, Option.map_some, Option.some.injEq] at htyped
    rw [he, htyped]
    rfl
  operation {b} {node op strategy args e} _ hnode hop hstrategy hargs he := by
    have htyped := Program.isWellTyped_of_has hprogram hnode
    rw [hadapter] at he
    cases node with
    | call op' operands ty =>
        obtain rfl : op' = op := Option.some.inj hop
        exact Strategy.ty_assemble?_of_isWellTyped hstrategy htyped hargs he
    | case branches otherwise ty =>
        obtain rfl : Operator.case = op := Option.some.inj hop
        rw [OperatorTable.strategy?_case] at hstrategy
        obtain rfl := Option.some.inj hstrategy
        exact Strategy.ty_assemble? he
    | inputRef | localRef | literal | dynamicParam => cases hop
  naming _ _ he := ⟨trivial, he⟩

end LoweringContext

namespace PassRequest

/-- **Lowering is well typed.** Let the program be well typed for the table, the adapter the standard
one and the input a row that is laid out by it. In a pass that succeeds, each declared variable has
the type of what it is declared to hold, each result has the host type of its node, and so does what
the pass made of each node that it came by, as its slots tell in the end. -/
theorem lowered_nodes_have_host_types (r : PassRequest) (row : Expr) (block after : Block)
    (es : List Expr) (hadapter : r.context.adapter = .standard)
    (hinputs : r.context.inputs = [⟨row, .ofRowType r.context.program.inputRowType .standard⟩])
    (hprogram : r.context.program.isWellTyped r.context.table = true)
    (hrun : r.run block = (.ok es, after)) :
    (∀ d ∈ after.statements.drop block.length, d.target.ty = d.init.ty) ∧
      (r.Vacuous ∧ es = [.boolean true] ∨
        ∃ s, r.context.lowerAll r.items (.start block) = (.ok es, s) ∧ s.block = after ∧
          List.Forall₂ (fun item e => e.ty = TypeAdapter.standard item.2.ty) r.items es ∧
          ∀ place node, r.context.program.Reaches r.items place node →
            ∃ e, s.value? (node.slotKey place) = some e ∧ e.ty = TypeAdapter.standard node.ty) := by
  have hgrows := r.grows_run block
  rw [hrun] at hgrows
  refine ⟨hgrows.ty_target, ?_⟩
  by_cases hvacuous : r.Vacuous
  · rcases of_run_ok hrun with ⟨-, hes, -⟩ | ⟨hlowers, -⟩
    · exact Or.inl ⟨hvacuous, hes⟩
    · exact absurd hvacuous hlowers
  · obtain ⟨s, hlowerAll, hafter⟩ := lowerAll_of_run_ok hvacuous hrun
    obtain ⟨shared, h⟩ := ends_of_lowerAll hlowerAll
    have hreading := LoweringContext.reading_typed hadapter hinputs hprogram
    obtain ⟨-, -, hresults⟩ := h.lowers.reads hreading nodeAt?_of_mem_items trivial
      (fun _ _ hnone => by cases hnone)
    exact Or.inr ⟨s, hlowerAll, hafter, List.forall₂_map_left_iff.mp hresults,
      fun _ _ hreaches => h.reads hreading trivial hreaches⟩

/-- Projects a boolean that may be null, and its negation. -/
def negationProgram : Program where
  inputRowType := [.orNull .boolean]
  exprs := [.inputRef 0 (.orNull .boolean),
    .call .not [.localRef 0 (.orNull .boolean)] (.notNull .boolean)]
  projects := [.localRef 0 (.orNull .boolean), .localRef 1 (.notNull .boolean)]
  condition := none
  faultless := by decide

def negationRequest : PassRequest where
  context := {
    program := negationProgram
    adapter := .standard
    inputs := [⟨.var ⟨"row", .objectArray⟩, .ofRowType negationProgram.inputRowType .standard⟩]
    policy := .all
    stem := "v"
    table := .native }
  outputs := .projects

/-- The operand is boxed, and its negation is not. -/
theorem negation_has_host_type :
    ∃ after, negationRequest.run (Block.empty.newName "row").2 =
        (.ok [.var ⟨"v0", .boxed .boolean⟩, .var ⟨"v2", .boolean⟩], after) ∧
      after.statements.map (fun d => d.init.ty) =
        [.objectArray, .boxed .boolean, .boolean] ∧
      ∀ d ∈ after.statements, d.target.ty = d.init.ty := by
  have hrun : negationRequest.run (Block.empty.newName "row").2 =
      (.ok [.var ⟨"v0", .boxed .boolean⟩, .var ⟨"v2", .boolean⟩],
        (negationRequest.run (Block.empty.newName "row").2).2) := Prod.ext (by rfl) rfl
  obtain ⟨hdeclared, -⟩ := lowered_nodes_have_host_types negationRequest (.var ⟨"row", .objectArray⟩)
    _ _ _ rfl rfl (by decide) hrun
  exact ⟨_, hrun, by rfl, hdeclared⟩

end PassRequest

end RowCode
