import RowCode.Proofs.Composition
import RowCode.Proofs.Passes

/-!
# Scoping over whole runs

Passes share a block: one finds the declarations of the others there, some fail and are rolled back,
and each numbers its names from zero. The block nevertheless stays *scoped*: every variable that a
declaration mentions is an input or was declared before it, and no name is declared twice. A name
that was reserved at the start is never declared.
-/

namespace RowCode

namespace Block

/-- The variables that code after the block may mention. -/
def visible (inputs : List Variable) (statements : List Declaration) : List Variable :=
  inputs ++ statements.map Declaration.target

def InScope (inputs : List Variable) (b : Block) (e : Expr) : Prop :=
  ∀ v ∈ e.vars, v ∈ visible inputs b.statements

/-- The declarations of the block make sense where only the inputs are given. -/
structure Scoped (inputs : List Variable) (b : Block) : Prop where
  named : ∀ d ∈ b.statements, d.name ∈ b.names
  distinct : (b.statements.map Declaration.name).Nodup
  typed : ∀ d ∈ b.statements, d.target.ty = d.init.ty
  ordered : ∀ before d rest, b.statements = before ++ d :: rest →
    ∀ v ∈ d.init.vars, v ∈ visible inputs before

variable {inputs : List Variable} {b b' : Block} {e : Expr}

theorem scoped_of_no_statements (hempty : b.statements = []) : b.Scoped inputs where
  named := by simp [hempty]
  distinct := by simp [hempty]
  typed := by simp [hempty]
  ordered := by simp [hempty]

theorem Grows.visible_subset (h : b.Grows b') :
    visible inputs b.statements ⊆ visible inputs b'.statements := by
  obtain ⟨added, hadded⟩ := h.statements_grow
  intro v hv
  rw [visible, ← hadded, List.map_append, ← List.append_assoc]
  exact List.mem_append_left _ hv

theorem InScope.grows (h : b.InScope inputs e) (hgrows : b.Grows b') : b'.InScope inputs e :=
  fun v hv => hgrows.visible_subset (h v hv)

theorem Scoped.declareFinal (h : b.Scoped inputs) (he : b.InScope inputs e) (suggestion : String) :
    (b.declareFinal suggestion e).2.Scoped inputs := by
  have hnew := b.name_declareFinal_not_mem suggestion e
  refine ⟨?_, ?_, ?_, ?_⟩
  · intro d hd
    rw [b.names_declareFinal suggestion e]
    rcases mem_statements_declareFinal hd with hold | rfl
    · exact List.mem_cons_of_mem _ (h.named d hold)
    · exact List.mem_cons_self
  · rw [statements_declareFinal, List.map_append, List.map_singleton]
    refine h.distinct.append (List.nodup_singleton _) ?_
    intro name hold hlast
    obtain ⟨d, hd, rfl⟩ := List.mem_map.mp hold
    have hsame : d.name = (b.declareFinal suggestion e).1.name := List.mem_singleton.mp hlast
    exact hnew (hsame ▸ h.named d hd)
  · intro d hd
    rcases mem_statements_declareFinal hd with hold | rfl
    · exact h.typed d hold
    · rfl
  · intro before d rest hsplit v hv
    rw [statements_declareFinal] at hsplit
    rcases List.eq_nil_or_concat rest with rfl | ⟨rest, last, rfl⟩
    · obtain ⟨rfl, hlast⟩ := List.append_inj' hsplit rfl
      obtain rfl := List.head_eq_of_cons_eq hlast
      exact he v hv
    · rw [List.concat_eq_append, ← List.cons_append, ← List.append_assoc] at hsplit
      exact h.ordered before d rest (List.append_inj' hsplit rfl).1 v hv

theorem mem_visible_declareFinal (suggestion : String) :
    (b.declareFinal suggestion e).1 ∈ visible inputs (b.declareFinal suggestion e).2.statements := by
  rw [visible, statements_declareFinal, List.map_append]
  simp

theorem holder?_mem_visible {v : Variable} (hholder : b.holder? e = some v) :
    v ∈ visible inputs b.statements := by
  unfold holder? at hholder
  obtain ⟨d, hfound, rfl⟩ := Option.map_eq_some_iff.mp hholder
  exact List.mem_append_right _ (List.mem_map_of_mem (List.mem_of_find?_eq_some hfound))

theorem Scoped.append (h : b.Scoped inputs) (he : b.InScope inputs e) (suggestion : String) :
    (b.append suggestion e).2.Scoped inputs ∧
      (b.append suggestion e).1 ∈ visible inputs (b.append suggestion e).2.statements := by
  unfold Block.append
  cases hholder : b.holder? e with
  | some v => exact ⟨h, holder?_mem_visible hholder⟩
  | none => exact ⟨h.declareFinal he suggestion, mem_visible_declareFinal suggestion⟩

end Block

namespace RowInput

def rowVars (inputs : List RowInput) : List Variable := inputs.flatMap fun input => input.row.vars

end RowInput

namespace PassRequest

theorem reading_inScope {inputs : List Variable} (r : PassRequest)
    (hrows : RowInput.rowVars r.context.inputs ⊆ inputs) :
    r.context.Reading (Block.Scoped inputs) fun b _ e => b.InScope inputs e where
  grows _ _ hgrows he := he.grows hgrows
  field {b b'} {index ty e} hscoped _ hread := by
    obtain ⟨position, input, offset, hlocate, rfl, hfield⟩ := RowInput.of_readField_ok hread
    have hrow : b.InScope inputs input.row := by
      intro v hv
      refine List.mem_append_left _ (hrows ?_)
      exact List.mem_flatMap.mpr ⟨input, RowInput.mem_of_locate? hlocate, hv⟩
    obtain ⟨hscoped', hholder⟩ := hscoped.append hrow (RowInput.rowName position)
    refine ⟨hscoped', (Expr.compositional_vars _).fieldOf ?_ hfield⟩
    intro v hv
    rwa [List.mem_singleton.mp hv]
  literal _ _ := (Expr.compositional_vars _).lowerLiteral _ _ _
  reference _ _ _ he := he
  operation _ _ _ _ hargs he :=
    (Expr.compositional_vars _).assemble?
      (LoweringContext.forall_of_forall₂ hargs fun _ _ harg => harg) he
  naming suggestion hscoped he := by
    refine ⟨hscoped.declareFinal he suggestion, ?_⟩
    intro v hv
    obtain rfl := List.mem_singleton.mp hv
    exact Block.mem_visible_declareFinal suggestion

variable {inputs : List Variable} {block : Block} {requests : List PassRequest}

/-- The variables that occur in the rows that the passes read. -/
def inputVars (requests : List PassRequest) : List Variable :=
  requests.flatMap fun r => RowInput.rowVars r.context.inputs

theorem rowVars_subset {r : PassRequest} {rest : List PassRequest}
    (hrows : inputVars (r :: rest) ⊆ inputs) :
    RowInput.rowVars r.context.inputs ⊆ inputs ∧ inputVars rest ⊆ inputs := by
  rw [inputVars, List.flatMap_cons] at hrows
  exact ⟨fun v hv => hrows (List.mem_append_left _ hv), fun v hv => hrows (List.mem_append_right _ hv)⟩

theorem inScope_run {r : PassRequest} {after : Block} {es : List Expr}
    (hrows : RowInput.rowVars r.context.inputs ⊆ inputs) (hscoped : block.Scoped inputs)
    (hrun : r.run block = (.ok es, after)) : ∀ e ∈ es, after.InScope inputs e := by
  obtain ⟨-, ⟨-, rfl⟩ | ⟨-, hresults⟩⟩ := reads (r.reading_inScope hrows) hscoped hrun
  · intro e he v hv
    obtain rfl := List.mem_singleton.mp he
    simp [Expr.boolean, Expr.vars] at hv
  · exact LoweringContext.forall_of_forall₂ hresults fun _ _ he => he

theorem scoped_runAll (hrows : inputVars requests ⊆ inputs) (hscoped : block.Scoped inputs) :
    (runAll requests block).2.Scoped inputs ∧
      ∀ es, .ok es ∈ (runAll requests block).1 →
        ∀ e ∈ es, (runAll requests block).2.InScope inputs e := by
  -- Results that are in scope after their pass stay so, because the block only grows.
  induction requests generalizing block with
  | nil => exact ⟨hscoped, by simp [runAll]⟩
  | cons r rest ih =>
      obtain ⟨hfirst, hrest⟩ := rowVars_subset hrows
      obtain ⟨hdone, hresults⟩ := ih hrest (r.invariant_run (r.reading_inScope hfirst) hscoped)
      refine ⟨hdone, fun es hes e he => ?_⟩
      rcases List.mem_cons.mp hes with hhead | htail
      · have hrun : r.run block = (.ok es, (r.run block).2) := Prod.ext hhead.symm rfl
        exact (inScope_run hfirst hscoped hrun e he).grows (grows_runAll rest _)
      · exact hresults es htail e he

theorem mem_visible {statements : List Declaration} {v : Variable} :
    v ∈ Block.visible inputs statements ↔ v ∈ inputs ∨ ∃ d ∈ statements, d.target = v := by
  rw [Block.visible, List.mem_append, List.mem_map]

/-- **Generated code is well scoped.** Let any passes run on a block that has no declarations yet and
reserves the names of the input variables. Then declared names are distinct and none is an input's;
each declaration mentions inputs and what was declared before it; and each result mentions inputs and
what is declared at the end. A variable is what it is by name and type. -/
theorem passes_are_scoped (requests : List PassRequest) (start : Block)
    (hempty : start.statements = [])
    (hreserved : ∀ v ∈ inputVars requests, v.name ∈ start.names) :
    (((runAll requests start).2.statements.map Declaration.name).Nodup ∧
      ∀ d ∈ (runAll requests start).2.statements, ∀ v ∈ inputVars requests, d.name ≠ v.name) ∧
    (∀ before d rest, (runAll requests start).2.statements = before ++ d :: rest →
      ∀ v ∈ d.init.vars, v ∈ inputVars requests ∨ ∃ d' ∈ before, d'.target = v) ∧
    ∀ es, .ok es ∈ (runAll requests start).1 → ∀ e ∈ es, ∀ v ∈ e.vars,
      v ∈ inputVars requests ∨ ∃ d ∈ (runAll requests start).2.statements, d.target = v := by
  obtain ⟨hscoped, hresults⟩ := scoped_runAll (List.Subset.refl (inputVars requests))
    (Block.scoped_of_no_statements hempty)
  refine ⟨⟨hscoped.distinct, ?_⟩, ?_, ?_⟩
  · intro d hd v hv
    have hstart : start.Reserves v.name := ⟨hreserved v hv, by simp [hempty]⟩
    exact (hstart.grows (grows_runAll requests start)).undeclared d hd
  · intro before d rest hsplit v hv
    exact mem_visible.mp (hscoped.ordered before d rest hsplit v hv)
  · intro es hes e he v hv
    exact mem_visible.mp (hresults es hes e he v hv)

def upperProgram : Program where
  inputRowType := [.notNull .varchar]
  exprs := [.inputRef 0 (.notNull .varchar),
    .call .upper [.localRef 0 (.notNull .varchar)] (.notNull .varchar),
    .call .isNotNull [.localRef 1 (.notNull .varchar)] (.notNull .boolean)]
  projects := [.localRef 1 (.notNull .varchar), .localRef 1 (.notNull .varchar)]
  condition := some (.localRef 2 (.notNull .boolean))
  faultless := by decide

/-- Two passes that declare variables of the same names, and between them one that fails. -/
def mixedRequests : List PassRequest :=
  [⟨{ LoweringContext.likeContext with program := upperProgram }, .projects⟩,
    ⟨LoweringContext.likeContext, .projects⟩,
    ⟨{ LoweringContext.likeContext with program := upperProgram, policy := .all }, .condition⟩]

theorem mixed_passes_are_scoped :
    (runAll mixedRequests (Block.empty.newName "row").2).2.statements.map Declaration.name =
        ["current0", "v2", "v0", "v2_1", "v4"] ∧
      ∀ d ∈ (runAll mixedRequests (Block.empty.newName "row").2).2.statements,
        ∀ v ∈ inputVars mixedRequests, d.name ≠ v.name :=
  ⟨by decide +kernel, (passes_are_scoped mixedRequests _ rfl (by decide)).1.2⟩

end PassRequest

end RowCode
