import RowCode.Proofs.Casts

/-!
# Where refused casts come from

A pass over a row of objects emits a cast that the host refuses for one reason only: the program
brings an operand of a CAST, or a result of a CASE, to a box that the host does not cast it to. It
emits such a cast for every node that is named and does so.
-/

namespace RowCode

/-- The node brings an operand of the source type to the box of `q`, to which the host refuses to
cast it. -/
def Node.BoxesAcross (node : Node) (source : HostType) (q : Primitive) : Prop :=
  TypeAdapter.standard node.ty = .boxed q ∧ source.clashes (.boxed q) = true ∧
    ∃ child ∈ node.converted, TypeAdapter.standard child.ty = source

/-- The expression has all the refused casts that the node gives rise to. -/
def Node.ShownBy (node : Node) (e : Expr) : Prop :=
  ∀ source q, node.BoxesAcross source q → (source, .boxed q) ∈ e.casts

theorem Node.shownBy_of_converted_eq_nil {node : Node} (h : node.converted = []) (e : Expr) :
    node.ShownBy e := by
  rintro source q ⟨-, -, child, hchild, -⟩
  rw [h] at hchild
  cases hchild

/-- A node of the program gives rise to the cast. -/
def Program.Explains (p : Program) (source target : HostType) : Prop :=
  ∃ node q, p.Has node ∧ node.BoxesAcross source q ∧ target = .boxed q

namespace LoweringContext

variable {c : LoweringContext} {row : Variable} {start : Nat} {b : Block} {node : Node} {e : Expr}

/-- What is known of a block on which a pass runs that began after `start` declarations. -/
structure Accounted (c : LoweringContext) (row : Variable) (start : Nat) (b : Block) : Prop where
  started : start ≤ b.statements.length
  rows : ∀ d ∈ b.statements, d.init = .var row → d.target.ty = .objectArray
  explained : ∀ d ∈ b.statements.drop start, d.init.RefusedAs c.program.Explains

/-- An expression stands for a node if it has its type, its refused casts are explained, and those
that the node gives rise to are in it or in a declaration. -/
structure Accounts (c : LoweringContext) (start : Nat) (b : Block) (node : Node) (e : Expr) :
    Prop where
  typed : e.ty = TypeAdapter.standard node.ty
  explained : e.RefusedAs c.program.Explains
  shown : node.ShownBy e ∨ ∃ d ∈ b.statements.drop start, node.ShownBy d.init

theorem Accounted.mem_drop_declareFinal (h : c.Accounted row start b) (suggestion : String)
    (init : Expr) {d : Declaration} :
    d ∈ (b.declareFinal suggestion init).2.statements.drop start ↔
      d ∈ b.statements.drop start ∨ d = ⟨(b.declareFinal suggestion init).1, init, true⟩ := by
  rw [Block.statements_declareFinal, List.drop_append_of_le_length h.started, List.mem_append,
    List.mem_singleton]

theorem Accounted.declareFinal (h : c.Accounted row start b) (hrow : row.ty = .objectArray)
    (he : e.RefusedAs c.program.Explains) (suggestion : String) :
    c.Accounted row start (b.declareFinal suggestion e).2 where
  started := by
    rw [Block.statements_declareFinal, List.length_append]
    exact Nat.le_add_right_of_le h.started
  rows d hd hinit := by
    rcases Block.mem_statements_declareFinal hd with hold | rfl
    · exact h.rows d hold hinit
    · obtain rfl : e = .var row := hinit
      exact hrow
  explained d hd := by
    rcases (h.mem_drop_declareFinal suggestion e).mp hd with hold | rfl
    · exact h.explained d hold
    · exact he

theorem Accounted.append (h : c.Accounted row start b) (hrow : row.ty = .objectArray)
    (suggestion : String) :
    c.Accounted row start (b.append suggestion (.var row)).2 ∧
      (b.append suggestion (.var row)).1.ty = .objectArray := by
  unfold Block.append
  cases hholder : b.holder? (.var row) with
  | some v =>
      have hholds := Block.holds_of_holder?_eq_some (Expr.floatFree_var row) hholder
      exact ⟨h, h.rows _ hholds rfl⟩
  | none => exact ⟨h.declareFinal hrow (Expr.refusedAs_of_casts_eq_nil rfl) suggestion, hrow⟩

/-- **The reading of casts.** -/
theorem reading_casts (hadapter : c.adapter = .standard)
    (hinputs : c.inputs = [⟨.var row, .ofRowType c.program.inputRowType .standard⟩])
    (hprogram : c.program.isWellTyped c.table = true) (hrow : row.ty = .objectArray) (start : Nat) :
    c.Reading (c.Accounted row start) (c.Accounts start) where
  grows {b b'} {node e} hb _ hgrows he := by
    obtain ⟨added, hadded⟩ := hgrows.statements_grow
    refine ⟨he.typed, he.explained, he.shown.imp_right ?_⟩
    rintro ⟨d, hd, hshown⟩
    refine ⟨d, ?_, hshown⟩
    rw [← hadded, List.drop_append_of_le_length hb.started]
    exact List.mem_append_left _ hd
  field {b b'} {index ty e} hb hnode hread := by
    have htyped := ((reading_typed hadapter hinputs hprogram).field trivial hnode hread).2
    obtain ⟨position, input, offset, hlocate, rfl, hfield⟩ := RowInput.of_readField_ok hread
    have hinput := RowInput.mem_of_locate? hlocate
    rw [hinputs] at hinput
    obtain rfl := List.mem_singleton.mp hinput
    obtain ⟨hb', hholder⟩ := hb.append hrow (RowInput.rowName position)
    exact ⟨hb', htyped, Expr.refusedAs_fieldOf hholder hfield,
      Or.inl (Node.shownBy_of_converted_eq_nil rfl e)⟩
  literal {b} {value ty} _ hnode :=
    ⟨(reading_typed hadapter hinputs hprogram).literal (b := b) trivial hnode,
      Expr.refusedAs_of_casts_eq_nil (Expr.casts_lowerLiteral _ _ _),
      Or.inl (Node.shownBy_of_converted_eq_nil rfl _)⟩
  reference {b} {index ty body e} _ hnode hbody he :=
    ⟨(reading_typed hadapter hinputs hprogram).reference (b := b) trivial hnode hbody he.typed,
      he.explained, Or.inl (Node.shownBy_of_converted_eq_nil rfl e)⟩
  operation {b} {node op strategy args e} _ hnode hop hstrategy hargs he := by
    have htypes := hargs.imp fun _ _ => Accounts.typed
    have hconverted := Strategy.converted_forall₂ htypes strategy
    rw [← Node.converted_eq hop hstrategy] at hconverted
    have htyped := (reading_typed hadapter hinputs hprogram).operation (b := b) trivial hnode hop
      hstrategy htypes he
    refine ⟨htyped, ?_, Or.inl ?_⟩
    · refine Strategy.refusedAs_assemble?
        (forall_of_forall₂ hargs fun _ _ => Accounts.explained) ?_ he
      intro arg harg q hq hclashes
      obtain ⟨child, hchild, hty⟩ := exists_of_mem_right hconverted harg
      rw [hadapter] at hq hclashes ⊢
      exact ⟨node, q, hnode, ⟨hq, hq ▸ hclashes, child, hchild, hty.symm⟩, hq⟩
    · rintro source q ⟨hq, hclashes, child, hchild, rfl⟩
      obtain ⟨arg, harg, hty⟩ := exists_of_mem_right hconverted.flip hchild
      rw [hadapter, hq] at he
      rw [← hty] at hclashes ⊢
      exact Strategy.mem_casts_assemble? harg hclashes he
  naming {b} {node e} suggestion hb he := by
    refine ⟨hb.declareFinal hrow he.explained suggestion, he.typed,
      Expr.refusedAs_of_casts_eq_nil rfl, Or.inr ?_⟩
    rcases he.shown with hshown | ⟨d, hd, hshown⟩
    · exact ⟨_, (hb.mem_drop_declareFinal suggestion e).mpr (Or.inr rfl), hshown⟩
    · exact ⟨d, (hb.mem_drop_declareFinal suggestion e).mpr (Or.inl hd), hshown⟩

end LoweringContext

namespace PassRequest

/-- **Refused casts come from conversions to boxes.** Let the program be well typed for the table,
the adapter the standard one and the input a row of objects that is laid out by it, which the block
holds as such. If a pass succeeds, each cast in its results and in the declarations that it adds which
the host refuses is one to a box, and a CAST or CASE of the program brings an operand of the type to
that box. And wherever a node that the pass names does so, a declaration has the cast. -/
theorem refused_casts_are_conversions (r : PassRequest) (row : Variable) (block after : Block)
    (es : List Expr) (hadapter : r.context.adapter = .standard)
    (hinputs : r.context.inputs =
      [⟨.var row, .ofRowType r.context.program.inputRowType .standard⟩])
    (hprogram : r.context.program.isWellTyped r.context.table = true)
    (hrow : row.ty = .objectArray)
    (hblock : ∀ d ∈ block.statements, d.init = .var row → d.target.ty = .objectArray)
    (hrun : r.run block = (.ok es, after)) :
    (∀ e ∈ (after.statements.drop block.length).map Declaration.init ++ es,
      ∀ source target, (source, target) ∈ e.casts → source.clashes target = true →
        ∃ node q, r.context.program.Has node ∧ node.BoxesAcross source q ∧ target = .boxed q) ∧
    ∀ node source q, r.Names node → node.BoxesAcross source q →
      ∃ d ∈ after.statements.drop block.length, (source, .boxed q) ∈ d.init.casts := by
  have hstart : r.context.Accounted row block.length block :=
    ⟨Nat.le_refl _, hblock, fun d hd => by simp [Block.length] at hd⟩
  have hreading := LoweringContext.reading_casts hadapter hinputs hprogram hrow block.length
  obtain ⟨hafter, hresults⟩ := reads hreading hstart hrun
  refine ⟨fun e he => ?_, fun node source q hnames hboxes => ?_⟩
  · change e.RefusedAs r.context.program.Explains
    rcases List.mem_append.mp he with hdeclared | hresult
    · obtain ⟨d, hd, rfl⟩ := List.mem_map.mp hdeclared
      exact hafter.explained d hd
    · rcases hresults with ⟨-, rfl⟩ | ⟨-, hmeans⟩
      · rw [List.mem_singleton.mp hresult]
        exact Expr.refusedAs_of_casts_eq_nil rfl
      · exact LoweringContext.forall_of_forall₂ hmeans
          (fun _ _ => LoweringContext.Accounts.explained) e hresult
  · have hvacuous : ¬ r.Vacuous := fun hvacuous => not_names_of_vacuous hvacuous node hnames
    obtain ⟨shared, s, hends, rfl⟩ := ends_of_run_ok hvacuous hrun
    obtain ⟨shared', place, hshared', hreaches, hnamed⟩ := hnames
    obtain rfl := hends.shares.unique hshared'
    obtain ⟨e, hvalue, haccounts⟩ := hends.reads hreading hstart hreaches
    obtain ⟨v, -, rfl⟩ := hends.exists_target hvalue hnamed
    rcases haccounts.shown with hshown | ⟨d, hd, hshown⟩
    · cases hshown source q hboxes
    · exact ⟨d, hd, hshown source q hboxes⟩

/-! ### An integer as a long that may be null -/

/-- `CAST($0 AS BIGINT)`, where the field is an integer that is not null and the result may be. -/
def longProgram : Program where
  inputRowType := [.notNull .integer]
  exprs := [.inputRef 0 (.notNull .integer),
    .call .cast [.localRef 0 (.notNull .integer)] (.orNull .bigInt)]
  projects := [.localRef 1 (.orNull .bigInt)]
  condition := none
  faultless := by decide

def longRequest (policy : NamingPolicy) : PassRequest where
  context := {
    program := longProgram
    adapter := .standard
    inputs := [⟨.var ⟨"row", .objectArray⟩, .ofRowType longProgram.inputRowType .standard⟩]
    policy := policy
    stem := "v"
    table := .standard }
  outputs := .projects

theorem cast_to_long_is_conversion :
    ∃ after d, (longRequest .all).run (Block.empty.newName "row").2 =
        (.ok [.var ⟨"v2", .boxed .long⟩], after) ∧
      d ∈ after.statements ∧ (HostType.int, HostType.boxed .long) ∈ d.init.casts := by
  have hrun : (longRequest .all).run (Block.empty.newName "row").2 =
      (.ok [.var ⟨"v2", .boxed .long⟩],
        ((longRequest .all).run (Block.empty.newName "row").2).2) := Prod.ext (by rfl) rfl
  have hnames : (longRequest .all).Names longProgram.exprs[1] :=
    ⟨[], .root (.expr 1), rfl, .step (.root List.mem_cons_self) (.body rfl), rfl⟩
  obtain ⟨-, hshown⟩ := refused_casts_are_conversions (longRequest .all) ⟨"row", .objectArray⟩ _ _ _
    rfl rfl (by decide) rfl (fun d hd => by cases hd) hrun
  obtain ⟨d, hd, hcast⟩ := hshown _ .int .long hnames
    ⟨rfl, rfl, .localRef 0 (.notNull .integer), List.mem_cons_self, rfl⟩
  exact ⟨_, d, hrun, hd, hcast⟩

/-- **An `int` is cast to `Long`**, which the host refuses: in a declaration if all nodes are named,
and else in the result. -/
theorem int_is_cast_to_boxed_long :
    longProgram.isWellTyped .standard = true ∧ HostType.int.clashes (.boxed .long) = true ∧
      (HostType.int, HostType.boxed .long) ∈ (((longRequest .all).run
        (Block.empty.newName "row").2).2.statements.map Declaration.init).flatMap Expr.casts ∧
      ((longRequest .shared).run (Block.empty.newName "row").2).1.map (List.map Expr.casts) =
        .ok [[(.int, .boxed .long), (.object, .boxed .int)]] := by
  exact ⟨by decide, by decide, by decide +kernel, by rfl⟩

end PassRequest

end RowCode
