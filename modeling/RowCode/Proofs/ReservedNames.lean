import Mathlib.Data.List.Infix
import RowCode.Proofs.BlockGrowth

/-!
# Reserved names over the life of a block

A block may be asked for names, be given declarations and be rolled back to earlier lengths, in any
order. Each step leaves the names of the declarations reserved, but for one: rolling back frees the
names of the declarations that it drops, also where a declaration that stays has the same name. Such a
pair of declarations comes from giving the block a declaration of a name that it declares already.
-/

namespace RowCode

/-- What can be done to a block. -/
inductive BlockStep where
  | newName (suggestion : String)
  | add (d : Declaration)
  | declareFinal (suggestion : String) (init : Expr)
  | append (suggestion : String) (e : Expr)
  | checkpoint
  /-- Back to the checkpoint with this number. -/
  | rollback (number : Nat)

/-- A block together with the lengths that it had at its checkpoints, the earliest first. -/
structure BlockHistory where
  block : Block
  checkpoints : List Nat

namespace Block

/-- The name of each declaration is reserved. -/
def Covered (b : Block) : Prop := ∀ d ∈ b.statements, d.name ∈ b.names

def Declares (b : Block) (name : String) : Prop := ∃ d ∈ b.statements, d.name = name

/-- What is declared before the length is not declared again behind it. -/
def Separates (b : Block) (length : Nat) : Prop :=
  ∀ kept ∈ b.statements.take length, ∀ dropped ∈ b.statements.drop length, kept.name ≠ dropped.name

variable {b : Block}

theorem Covered.not_declares (h : b.Covered) {name : String} (hname : name ∉ b.names) :
    ¬ b.Declares name := by
  rintro ⟨d, hd, rfl⟩
  exact hname (h d hd)

theorem Covered.reserve (h : b.Covered) (name : String) : (b.reserve name).Covered := fun d hd =>
  (b.mem_names_reserve name d.name).mpr (Or.inr (h d hd))

theorem Covered.add (h : b.Covered) (d : Declaration) : (b.add d).Covered := by
  intro d' hd'
  refine (b.mem_names_reserve d.name d'.name).mpr ?_
  rcases List.mem_append.mp hd' with hold | hlast
  · exact Or.inr (h d' hold)
  · rw [List.mem_singleton.mp hlast]
    exact Or.inl rfl

theorem Covered.declareFinal (h : b.Covered) (suggestion : String) (init : Expr) :
    (b.declareFinal suggestion init).2.Covered :=
  h.add _

theorem Covered.append (h : b.Covered) (suggestion : String) (e : Expr) :
    (b.append suggestion e).2.Covered := by
  unfold Block.append
  cases b.holder? e with
  | some v => exact h
  | none => exact h.declareFinal suggestion e

/-- **Rolling back frees what it drops.** The names that stay declared stay reserved exactly if none of
them is among those of the dropped declarations. -/
theorem covered_rollback_iff (h : b.Covered) (length : Nat) :
    (b.rollback length).Covered ↔ b.Separates length := by
  have hmem : ∀ kept ∈ b.statements.take length, kept.name ∈ (b.rollback length).names ↔
      ∀ dropped ∈ b.statements.drop length, kept.name ≠ dropped.name := by
    intro kept hkept
    have hreserved : kept.name ∈ b.names := h kept (List.mem_of_mem_take hkept)
    simp only [rollback, List.mem_filter, hreserved, true_and, decide_eq_true_eq, List.mem_map,
      not_exists, not_and]
    exact forall₂_congr fun _ _ => ne_comm
  exact forall₂_congr hmem

theorem separates_of_nodup (h : (b.statements.map Declaration.name).Nodup) (length : Nat) :
    b.Separates length := by
  intro kept hkept dropped hdropped
  rw [← List.take_append_drop length b.statements, List.map_append] at h
  intro hsame
  exact List.disjoint_of_nodup_append h (List.mem_map_of_mem hkept)
    (hsame ▸ List.mem_map_of_mem hdropped)

/-- The name of each declaration is reserved, and declared once. -/
structure Tidy (b : Block) : Prop where
  covered : b.Covered
  distinct : (b.statements.map Declaration.name).Nodup

theorem Tidy.add (h : b.Tidy) {d : Declaration} (hnew : ¬ b.Declares d.name) : (b.add d).Tidy where
  covered := h.covered.add d
  distinct := by
    change ((b.statements ++ [d]).map Declaration.name).Nodup
    rw [List.map_append]
    refine h.distinct.append (List.nodup_singleton d.name) fun name hold hlast => hnew ?_
    rw [List.mem_singleton.mp hlast] at hold
    exact List.mem_map.mp hold

theorem Tidy.declareFinal (h : b.Tidy) (suggestion : String) (init : Expr) :
    (b.declareFinal suggestion init).2.Tidy :=
  h.add (h.covered.not_declares (b.name_declareFinal_not_mem suggestion init))

theorem Tidy.append (h : b.Tidy) (suggestion : String) (e : Expr) :
    (b.append suggestion e).2.Tidy := by
  unfold Block.append
  cases b.holder? e with
  | some v => exact h
  | none => exact h.declareFinal suggestion e

theorem Tidy.rollback (h : b.Tidy) (length : Nat) : (b.rollback length).Tidy where
  covered := (covered_rollback_iff h.covered length).mpr (separates_of_nodup h.distinct length)
  distinct := h.distinct.sublist ((List.take_sublist length b.statements).map Declaration.name)

/-- The name of a variable made now is that of no declaration. -/
theorem Covered.fresh (h : b.Covered) (suggestion : String) (e : Expr) :
    ¬ b.Declares (b.newName suggestion).1 ∧ ¬ b.Declares (b.declareFinal suggestion e).1.name ∧
      (b.holder? e = none → ¬ b.Declares (b.append suggestion e).1.name) := by
  have hfresh := h.not_declares (freshName_not_mem b.names suggestion)
  refine ⟨hfresh, hfresh, fun hnone => ?_⟩
  rw [Block.append, hnone]
  exact hfresh

end Block

namespace BlockHistory

def start : BlockHistory := ⟨.empty, []⟩

/-- One step; there is no going back to a checkpoint that lies ahead. -/
def step? (h : BlockHistory) : BlockStep → Option BlockHistory
  | .newName suggestion => some { h with block := (h.block.newName suggestion).2 }
  | .add d => some { h with block := h.block.add d }
  | .declareFinal suggestion init =>
    some { h with block := (h.block.declareFinal suggestion init).2 }
  | .append suggestion e => some { h with block := (h.block.append suggestion e).2 }
  | .checkpoint => some { h with checkpoints := h.checkpoints ++ [h.block.length] }
  | .rollback number => do
    let length ← h.checkpoints[number]?
    let block ← h.block.rollback? length
    some { h with block }

def after? : List BlockStep → BlockHistory → Option BlockHistory
  | [], h => some h
  | step :: rest, h => (h.step? step).bind (after? rest)

/-- The history at some point of a run from a new block. -/
def Visits (steps : List BlockStep) (h : BlockHistory) : Prop :=
  ∃ before, before <+: steps ∧ after? before start = some h

/-- The step is taken, or tried, from this point of the run on. -/
def Tries (steps : List BlockStep) (h : BlockHistory) (step : BlockStep) : Prop :=
  ∃ before, before ++ [step] <+: steps ∧ after? before start = some h

/-- If the step rolls back, no name that it frees stays declared. -/
def Separates (h : BlockHistory) (step : BlockStep) : Prop :=
  ∀ number length, step = .rollback number → h.checkpoints[number]? = some length →
    h.block.Separates length

/-- If the step gives the block a declaration, its name is not declared yet. -/
def AddsNew (h : BlockHistory) (step : BlockStep) : Prop :=
  ∀ d, step = .add d → ¬ h.block.Declares d.name

variable {h h' : BlockHistory} {steps : List BlockStep} {step : BlockStep}

theorem after?_append (left right : List BlockStep) (h : BlockHistory) :
    after? (left ++ right) h = (after? left h).bind (after? right) := by
  induction left generalizing h with
  | nil => rfl
  | cons step rest ih =>
      rw [List.cons_append, after?, after?, Option.bind_assoc]
      exact congrArg _ (funext ih)

theorem after?_concat (before : List BlockStep) (step : BlockStep) :
    after? (before ++ [step]) start = (after? before start).bind (step? · step) := by
  rw [after?_append]
  exact congrArg _ (funext fun h => Option.bind_fun_some (h.step? step))

theorem Tries.visits (htries : Tries steps h step) : Visits steps h := by
  obtain ⟨before, hbefore, hafter⟩ := htries
  exact ⟨before, (List.prefix_append before [step]).trans hbefore, hafter⟩

theorem Tries.visits_next (htries : Tries steps h step) (hstep : h.step? step = some h') :
    Visits steps h' := by
  obtain ⟨before, hbefore, hafter⟩ := htries
  refine ⟨before ++ [step], hbefore, ?_⟩
  rw [after?_concat, hafter, Option.bind_some, hstep]

/-- What holds of a new block and is kept by each step of a run holds at each point of the run. -/
theorem Visits.induction {P : BlockHistory → Prop} (hstart : P start)
    (hkept : ∀ h step h', Tries steps h step → P h → h.step? step = some h' → P h')
    (hvisits : Visits steps h) : P h := by
  obtain ⟨before, hbefore, hafter⟩ := hvisits
  induction before using List.reverseRecOn generalizing h with
  | nil => exact Option.some.inj hafter ▸ hstart
  | append_singleton before step ih =>
      rw [after?_concat] at hafter
      obtain ⟨h₀, hfirst, hstep⟩ := Option.bind_eq_some_iff.mp hafter
      exact hkept h₀ step h ⟨before, hbefore, hfirst⟩
        (ih ((List.prefix_append before [step]).trans hbefore) hfirst) hstep

theorem of_rollback {number : Nat} (hstep : h.step? (.rollback number) = some h') :
    ∃ length, h.checkpoints[number]? = some length ∧ length ≤ h.block.length ∧
      h' = { h with block := h.block.rollback length } := by
  obtain ⟨length, hnumber, hrest⟩ := Option.bind_eq_some_iff.mp hstep
  obtain ⟨block, hblock, hsome⟩ := Option.bind_eq_some_iff.mp hrest
  unfold Block.rollback? at hblock
  split at hblock
  · exact ⟨length, hnumber, ‹_›, by rw [← Option.some.inj hsome, Option.some.inj hblock]⟩
  · cases hblock

/-- **The step.** Where the names of declarations are reserved, they are so afterwards, unless the step
rolls back and frees a name that stays declared. -/
theorem covered_step_iff (hcovered : h.block.Covered) (hstep : h.step? step = some h') :
    h'.block.Covered ↔ h.Separates step := by
  cases step with
  | rollback number =>
      obtain ⟨length, hnumber, -, rfl⟩ := of_rollback hstep
      rw [Block.covered_rollback_iff hcovered]
      constructor
      · intro hseparates other length' hother hlength'
        obtain rfl := BlockStep.rollback.inj hother
        exact Option.some.inj (hnumber.symm.trans hlength') ▸ hseparates
      · exact fun hseparates => hseparates number length rfl hnumber
  | newName suggestion =>
      obtain rfl := Option.some.inj hstep
      exact iff_of_true (hcovered.reserve _) fun _ _ hrollback => by cases hrollback
  | add d =>
      obtain rfl := Option.some.inj hstep
      exact iff_of_true (hcovered.add d) fun _ _ hrollback => by cases hrollback
  | declareFinal suggestion init =>
      obtain rfl := Option.some.inj hstep
      exact iff_of_true (hcovered.declareFinal _ _) fun _ _ hrollback => by cases hrollback
  | append suggestion e =>
      obtain rfl := Option.some.inj hstep
      exact iff_of_true (hcovered.append _ _) fun _ _ hrollback => by cases hrollback
  | checkpoint =>
      obtain rfl := Option.some.inj hstep
      exact iff_of_true hcovered fun _ _ hrollback => by cases hrollback

theorem tidy_step (htidy : h.block.Tidy) (hnew : h.AddsNew step)
    (hstep : h.step? step = some h') : h'.block.Tidy := by
  cases step with
  | rollback number =>
      obtain ⟨length, -, -, rfl⟩ := of_rollback hstep
      exact htidy.rollback length
  | newName suggestion =>
      obtain rfl := Option.some.inj hstep
      exact ⟨htidy.covered.reserve _, htidy.distinct⟩
  | add d =>
      obtain rfl := Option.some.inj hstep
      exact htidy.add (hnew d rfl)
  | declareFinal suggestion init =>
      obtain rfl := Option.some.inj hstep
      exact htidy.declareFinal suggestion init
  | append suggestion e =>
      obtain rfl := Option.some.inj hstep
      exact htidy.append suggestion e
  | checkpoint =>
      obtain rfl := Option.some.inj hstep
      exact htidy

/-- A step that fails is one back to a length that the block does not reach, so that it would have
dropped nothing. -/
theorem separates_of_step?_none (hnone : h.step? step = none) : h.Separates step := by
  rintro number length rfl hnumber kept - dropped hdropped
  cases hblock : h.block.rollback? length with
  | some block => simp [step?, hnumber, hblock] at hnone
  | none =>
      unfold Block.rollback? at hblock
      split at hblock
      · cases hblock
      · rename_i hshort
        rw [List.drop_eq_nil_of_le (Nat.le_of_not_le hshort)] at hdropped
        cases hdropped

theorem covered_throughout_iff (steps : List BlockStep) :
    (∀ h, Visits steps h → h.block.Covered) ↔
      ∀ h step, Tries steps h step → h.Separates step := by
  constructor
  · intro hcovered h step htries
    cases hstep : h.step? step with
    | none => exact separates_of_step?_none hstep
    | some h' =>
        exact (covered_step_iff (hcovered h htries.visits) hstep).mp
          (hcovered h' (htries.visits_next hstep))
  · intro hseparates h hvisits
    refine hvisits.induction (P := fun h => h.block.Covered) (List.forall_mem_nil _) ?_
    intro h step h' htries hcovered hstep
    exact (covered_step_iff hcovered hstep).mpr (hseparates h step htries)

/-- **When declared names are reserved.** At every point of a run from a new block, the names of the
declarations are reserved, exactly if no step of the run rolls back behind a declaration of a name that
stays declared. It is enough that no declaration is added under a name that is declared already; each
name is then declared once. And where the names of the declarations are reserved, none of them is
given to a variable that is made. -/
theorem declared_names_reserved_iff (steps : List BlockStep) :
    ((∀ h, Visits steps h → h.block.Covered) ↔
      ∀ h step, Tries steps h step → h.Separates step) ∧
    ((∀ h step, Tries steps h step → h.AddsNew step) →
      ∀ h, Visits steps h → h.block.Covered ∧ (h.block.statements.map Declaration.name).Nodup) ∧
    ∀ b : Block, b.Covered → ∀ suggestion e,
      ¬ b.Declares (b.newName suggestion).1 ∧ ¬ b.Declares (b.declareFinal suggestion e).1.name ∧
        (b.holder? e = none → ¬ b.Declares (b.append suggestion e).1.name) := by
  refine ⟨covered_throughout_iff steps, fun hnew h hvisits => ?_, fun b h => h.fresh⟩
  have htidy : h.block.Tidy := by
    refine hvisits.induction (P := fun h => h.block.Tidy)
      ⟨List.forall_mem_nil _, List.nodup_nil⟩ ?_
    exact fun h step h' htries htidy hstep => tidy_step htidy (hnew h step htries) hstep
  exact ⟨htidy.covered, htidy.distinct⟩

/-- A declaration is given twice, and the second one is rolled back. -/
def twiceDeclared : List BlockStep :=
  [.add ⟨⟨"x", .boolean⟩, .boolean true, true⟩, .checkpoint,
    .add ⟨⟨"x", .boolean⟩, .boolean false, true⟩, .rollback 0]

/-- The first declaration stays, but its name is free and is given away again. -/
theorem second_declaration_frees_the_first :
    ¬ (∀ h, Visits twiceDeclared h → h.block.Covered) ∧
      ∃ h, after? twiceDeclared start = some h ∧
        h.block.statements.map Declaration.name = ["x"] ∧ h.block.names = [] ∧
        (h.block.declareFinal "x" .null).1.name = "x" := by
  refine ⟨fun hcovered => ?_, _, rfl, rfl, rfl, rfl⟩
  have hmem := hcovered _ ⟨twiceDeclared, List.prefix_rfl, rfl⟩ _ List.mem_cons_self
  cases hmem

end BlockHistory

end RowCode
