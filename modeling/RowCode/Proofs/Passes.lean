import RowCode.Proofs.Reading

/-!
# Passes on one block

The projections and the condition are lowered by passes of their own, often on one block and for
several programs. A request names what one pass lowers, so that what the two kinds have in common is
said once; requests run one after the other, and those that fail are rolled back.
-/

namespace RowCode

inductive Outputs where
  | projects
  | condition
  deriving DecidableEq

structure PassRequest where
  context : LoweringContext
  outputs : Outputs

namespace PassRequest

/-- Lowers the outputs. That of a condition is the only one. -/
def run (r : PassRequest) (block : Block) : Except LoweringError (List Expr) × Block :=
  match r.outputs with
  | .projects => r.context.lowerProjects block
  | .condition =>
    let (result, block) := r.context.lowerCondition block
    (result.map fun e => [e], block)

def items (r : PassRequest) : List (Place × Node) :=
  match r.outputs with
  | .projects => LoweringContext.placed .project r.context.program.projects
  | .condition => r.context.program.condition.toList.map fun node => (.root .condition, node)

/-- There is nothing to lower: the condition was asked for, and there is none. -/
def Vacuous (r : PassRequest) : Prop := r.outputs = .condition ∧ r.context.program.condition = none

variable {r : PassRequest} {block after : Block} {es : List Expr} {Inv : Block → Prop}
  {Means : Block → Node → Expr → Prop}

theorem nodeAt?_of_mem_items : ∀ item ∈ r.items, r.context.program.nodeAt? item.1 = some item.2 := by
  intro item hitem
  unfold items at hitem
  cases houtputs : r.outputs with
  | projects =>
      rw [houtputs] at hitem
      exact LoweringContext.nodeAt?_of_mem_projects item hitem
  | condition =>
      rw [houtputs] at hitem
      obtain ⟨node, hnode, rfl⟩ := List.mem_map.mp hitem
      exact Option.mem_toList.mp hnode

theorem run_eq_of_error {e : LoweringError} (hrun : r.run block = (.error e, after)) :
    after = block := by
  unfold run at hrun
  cases houtputs : r.outputs with
  | projects =>
      rw [houtputs] at hrun
      exact LoweringContext.lowerProjects_eq_of_error hrun
  | condition =>
      rw [houtputs] at hrun
      rcases hcondition : r.context.lowerCondition block with ⟨result, block'⟩
      rw [hcondition] at hrun
      obtain ⟨hresult, rfl⟩ := Prod.mk.inj hrun
      cases result with
      | error e' => exact LoweringContext.lowerCondition_eq_of_error hcondition
      | ok e' => cases hresult

/-- **What a successful pass did.** It derived its results from its nodes; where there is no
condition to lower, it did nothing and the result is true. -/
theorem of_run_ok (hrun : r.run block = (.ok es, after)) :
    (r.Vacuous ∧ es = [.boolean true] ∧ after = block) ∨
      ¬ r.Vacuous ∧ ∃ shared s, r.context.Shares (r.items.map Prod.snd) shared ∧
        r.context.Lowers r.items ⟨block, [], shared⟩ es s ∧ s.block = after := by
  unfold run at hrun
  unfold Vacuous items
  cases houtputs : r.outputs with
  | projects =>
      rw [houtputs] at hrun
      obtain ⟨shared, s, hshared, hlowers, hafter⟩ := LoweringContext.lowers_of_lowerProjects hrun
      refine Or.inr ⟨fun hvacuous => (Outputs.noConfusion hvacuous.1), shared, s, ?_, hlowers, hafter⟩
      simpa [LoweringContext.placed, Function.comp_def] using hshared
  | condition =>
      rw [houtputs] at hrun
      rcases hlower : r.context.lowerCondition block with ⟨result, block'⟩
      rw [hlower] at hrun
      obtain ⟨hresult, rfl⟩ := Prod.mk.inj hrun
      cases result with
      | error e => cases hresult
      | ok e =>
          obtain rfl : [e] = es := Except.ok.inj hresult
          cases hcondition : r.context.program.condition with
          | none =>
              rw [LoweringContext.lowerCondition, Getter.lowerCondition, hcondition] at hlower
              obtain ⟨he, rfl⟩ := Prod.mk.inj hlower
              exact Or.inl ⟨⟨rfl, rfl⟩, by rw [Except.ok.inj he], rfl⟩
          | some condition =>
              exact Or.inr ⟨fun hvacuous => (Option.some_ne_none _ hvacuous.2),
                LoweringContext.lowers_of_lowerCondition hcondition hlower⟩

theorem grows_run (r : PassRequest) (block : Block) : block.Grows (r.run block).2 := by
  rcases hrun : r.run block with ⟨result, after⟩
  cases result with
  | error e =>
      obtain rfl := run_eq_of_error hrun
      exact .refl
  | ok es =>
      rcases of_run_ok hrun with ⟨-, -, rfl⟩ | ⟨-, shared, s, -, hlowers, rfl⟩
      · exact .refl
      · exact hlowers.grows

/-- **A reading holds of the results.** -/
theorem reads (R : r.context.Reading Inv Means) (hinv : Inv block)
    (hrun : r.run block = (.ok es, after)) :
    Inv after ∧ ((r.Vacuous ∧ es = [.boolean true]) ∨
      ¬ r.Vacuous ∧ List.Forall₂ (Means after) (r.items.map Prod.snd) es) := by
  rcases of_run_ok hrun with ⟨hvacuous, hes, rfl⟩ | ⟨hvacuous, shared, s, -, hlowers, rfl⟩
  · exact ⟨hinv, Or.inl ⟨hvacuous, hes⟩⟩
  · obtain ⟨hafter, -, hmeans⟩ := hlowers.reads R nodeAt?_of_mem_items hinv (by
      intro key slot hslot
      cases hslot)
    exact ⟨hafter, Or.inr ⟨hvacuous, hmeans⟩⟩

theorem invariant_run (R : r.context.Reading Inv Means) (hinv : Inv block) :
    Inv (r.run block).2 := by
  rcases hrun : r.run block with ⟨result, after⟩
  cases result with
  | error e => exact run_eq_of_error hrun ▸ hinv
  | ok es => exact (reads R hinv hrun).1

/-- The results of passes that run one after the other, and the block after the last. -/
def runAll : List PassRequest → Block → List (Except LoweringError (List Expr)) × Block
  | [], block => ([], block)
  | r :: rest, block =>
    let (result, block) := r.run block
    let (results, block) := runAll rest block
    (result :: results, block)

theorem grows_runAll (requests : List PassRequest) (block : Block) :
    block.Grows (runAll requests block).2 := by
  induction requests generalizing block with
  | nil => exact .refl
  | cons r rest ih => exact (r.grows_run block).trans (ih _)

end PassRequest

end RowCode
