import RowCode.Proofs.BlockGrowth
import RowCode.Proofs.Getters

/-!
# A failed pass leaves no trace

Whatever lowering does to a state, it does in three ways: it reads a field, it uses a filled slot
again, it fills a slot. A relation that contains these three and can be composed therefore contains
every run, also one that stops half way. Growth of the block is such a relation, and growth is what
rolling back undoes.
-/

namespace RowCode

def Lowering.Within {α : Type} (R : LoweringState → LoweringState → Prop) (x : Lowering α) : Prop :=
  ∀ s, R s (x s).2

theorem Lowering.Within.bind {α β : Type} {R : LoweringState → LoweringState → Prop}
    (htrans : ∀ s s' s'', R s s' → R s' s'' → R s s'') {x : Lowering α} {f : α → Lowering β}
    (hx : x.Within R) (hf : ∀ a, (f a).Within R) : (x >>= f).Within R := by
  intro s
  have hfirst := hx s
  rw [bind_apply]
  rcases hresult : x s with ⟨result, s'⟩
  rw [hresult] at hfirst
  cases result with
  | error e => exact hfirst
  | ok a => exact htrans _ _ _ hfirst (hf a s')

namespace Getter

variable {g : Getter} {c : LoweringContext} {R : LoweringState → LoweringState → Prop}
  (hrefl : ∀ s, R s s) (htrans : ∀ s s' s'', R s s' → R s' s'' → R s s'')

include hrefl htrans

theorem within_lowerEach {items : List (Place × Node)}
    (hitems : ∀ item ∈ items, (g.lower c item.1 item.2).Within R) :
    (g.lowerEach c items).Within R := by
  induction items with
  | nil => exact fun s => hrefl s
  | cons item rest ih =>
      obtain ⟨hitem, hrest⟩ := List.forall_mem_cons.mp hitems
      exact hitem.bind htrans fun e => (ih hrest).bind htrans fun es s => hrefl s

theorem within_operation (op : Operator) (node : Node) {args : Lowering (List Expr)}
    (hargs : args.Within R) : (operation c op node args).Within R := by
  unfold operation
  split
  · exact fun s => hrefl s
  · split
    · exact fun s => hrefl s
    · refine hargs.bind htrans fun args => ?_
      unfold LoweringContext.assemble
      split <;> exact fun s => hrefl s

end Getter

namespace LoweringContext

variable {g : Getter} {c : LoweringContext} {R : LoweringState → LoweringState → Prop}

/-- A relation between states that contains all that lowering does. -/
structure Contains (R : LoweringState → LoweringState → Prop) (g : Getter) (c : LoweringContext) :
    Prop where
  refl (s : LoweringState) : R s s
  trans (s s' s'' : LoweringState) : R s s' → R s' s'' → R s s''
  read (index : Nat) : (g.read index).Within R
  touch (key : SlotKey) (s : LoweringState) : R s (s.touch key)
  fill (key : SlotKey) (lowered : Expr) (s : LoweringState) : R s (c.fill key lowered s).2

namespace Contains

variable (h : Contains R g c)

include h

theorem withSlot (key : SlotKey) {lower : Lowering Expr} (hlower : lower.Within R) :
    (c.withSlot key lower).Within R := by
  intro s
  unfold LoweringContext.withSlot
  cases hslot : s.slot? key with
  | some slot => exact h.touch key s
  | none =>
      have hfirst := hlower s
      rcases hresult : lower s with ⟨result, s'⟩
      rw [hresult] at hfirst
      cases result with
      | error e => simpa [hresult] using hfirst
      | ok lowered => simpa [hresult] using h.trans _ _ _ hfirst (h.fill key lowered s')

theorem leaf (node : Node) : (g.leaf c node).Within R := by
  cases node with
  | inputRef index ty => exact h.read index
  | localRef | literal | call | case | dynamicParam => exact fun s => h.refl s

theorem lower (place : Place) (node : Node) : (g.lower c place node).Within R := by
  induction node using c.program.node_induction generalizing place with
  | dangling index ty hnone =>
      rw [g.lower_dangling c place ty hnone]
      exact fun s => h.refl s
  | reference index ty body hbody ih =>
      rw [g.lower_localRef c place ty hbody]
      exact h.withSlot _ (ih _)
  | other node hreference ih =>
      cases hop : node.operator? with
      | some op =>
          rw [g.lower_of_operator? c place hop]
          refine h.withSlot _ (Getter.within_operation h.refl h.trans op node ?_)
          refine Getter.within_lowerEach h.refl h.trans fun item hitem => ih item.2 ?_ item.1
          exact Place.mem_of_mem_childItems hitem
      | none =>
          rw [g.lower_leaf c place hop hreference]
          exact h.withSlot _ (h.leaf node)

theorem lowerEach (roots : List (Place × Node)) : (g.lowerEach c roots).Within R :=
  Getter.within_lowerEach h.refl h.trans fun root _ => h.lower root.1 root.2

end Contains

/-- **Lowering only lets the block grow.** -/
theorem contains_grows (c : LoweringContext) :
    Contains (fun s s' => s.block.Grows s'.block) (.rows c.inputs) c where
  refl _ := .refl
  trans _ _ _ h h' := h.trans h'
  read index s := by
    change s.block.Grows (RowInput.readField c.inputs s.block index).2
    unfold RowInput.readField
    split
    · exact .refl
    · cases RowInput.locate? 0 c.inputs index with
      | none => exact .refl
      | some found => exact s.block.grows_append _ _
  touch _ _ := .refl
  fill key lowered s := by
    unfold fill
    split
    · exact s.block.grows_declareFinal _ _
    · exact .refl

theorem block_analyze (c : LoweringContext) (roots : List Node) (s : LoweringState) :
    (c.analyze roots s).2.block = s.block := by
  unfold analyze
  split
  · rfl
  · cases Usage.ofRoots? c.program roots <;> rfl

theorem run_eq_of_error {α : Type} {pass : Lowering α} {block after : Block} {e : LoweringError}
    (hgrows : pass.Within fun s s' => s.block.Grows s'.block)
    (hfails : run block pass = (.error e, after)) : after = block := by
  have hblock := hgrows (.start block)
  unfold run at hfails
  rcases hresult : pass (.start block) with ⟨result, s⟩
  rw [hresult] at hfails hblock
  cases result with
  | ok a => simp at hfails
  | error e' =>
      obtain ⟨-, rfl⟩ := Prod.mk.inj hfails
      exact hblock.rollback_eq

theorem within_analyze (c : LoweringContext) (roots : List Node) :
    (c.analyze roots).Within fun s s' => s.block.Grows s'.block := by
  intro s
  rw [block_analyze]
  exact .refl

theorem lowerProjects_eq_of_error {block after : Block} {e : LoweringError}
    (hfails : c.lowerProjects block = (.error e, after)) : after = block := by
  have h := contains_grows c
  exact run_eq_of_error ((c.within_analyze _).bind h.trans fun _ => h.lowerEach _) hfails

theorem lowerCondition_eq_of_error {block after : Block} {e : LoweringError}
    (hfails : c.lowerCondition block = (.error e, after)) : after = block := by
  have h := contains_grows c
  unfold lowerCondition Getter.lowerCondition at hfails
  cases hcondition : c.program.condition with
  | none => simp [hcondition] at hfails
  | some condition =>
      rw [hcondition] at hfails
      exact run_eq_of_error ((c.within_analyze _).bind h.trans fun _ => h.lower _ condition) hfails

/-- **A failed pass leaves no trace.** Where lowering the projections or the condition fails, the
declarations and the names of the block are what they were, whatever the block held. -/
theorem failed_pass_restores_block (c : LoweringContext) (block after : Block) (e : LoweringError) :
    (c.lowerProjects block = (.error e, after) → after = block) ∧
      (c.lowerCondition block = (.error e, after) → after = block) :=
  ⟨lowerProjects_eq_of_error, lowerCondition_eq_of_error⟩

/-- Projects `UPPER($0)`, which is shared, and a LIKE of it, which has no strategy; the LIKE is also
the condition. -/
def likeProgram : Program where
  inputRowType := [.notNull .varchar]
  exprs := [.inputRef 0 (.notNull .varchar),
    .call .upper [.localRef 0 (.notNull .varchar)] (.notNull .varchar),
    .call .like [.localRef 1 (.notNull .varchar), .localRef 1 (.notNull .varchar)]
      (.notNull .boolean)]
  projects := [.localRef 1 (.notNull .varchar), .localRef 2 (.notNull .boolean)]
  condition := some (.localRef 2 (.notNull .boolean))
  faultless := by decide

def likeContext : LoweringContext where
  program := likeProgram
  adapter := .standard
  inputs := [⟨.var ⟨"row", .objectArray⟩, ⟨[.string]⟩⟩]
  policy := .shared
  stem := "v"
  table := .standard

/-- A block with a declaration of its own, and a reserved name that has none. -/
def usedBlock : Block := (Block.empty.add ⟨⟨"v1", .int⟩, .nullOf .object, false⟩).reserve "current0"

theorem failed_like_restores_block :
    likeContext.lowerProjects usedBlock = (.error (.unsupportedOperator .like), usedBlock) ∧
      likeContext.lowerCondition usedBlock = (.error (.unsupportedOperator .like), usedBlock) := by
  have hprojects : likeContext.lowerProjects usedBlock =
      (.error (.unsupportedOperator .like), (likeContext.lowerProjects usedBlock).2) :=
    Prod.ext (by rfl) rfl
  have hcondition : likeContext.lowerCondition usedBlock =
      (.error (.unsupportedOperator .like), (likeContext.lowerCondition usedBlock).2) :=
    Prod.ext (by rfl) rfl
  have hrestored := (failed_pass_restores_block likeContext usedBlock _ _).1 hprojects
  have hrestored' := (failed_pass_restores_block likeContext usedBlock _ _).2 hcondition
  rw [hrestored] at hprojects
  rw [hrestored'] at hcondition
  exact ⟨hprojects, hcondition⟩

end LoweringContext

end RowCode
