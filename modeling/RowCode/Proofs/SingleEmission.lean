import Mathlib.Algebra.GroupWithZero.Nat
import RowCode.Proofs.Lookups
import RowCode.Proofs.PlainTrees

/-!
# No call is emitted twice

The slot of an expression is filled once, so its body is lowered once. What could still be emitted
twice is what a slot holds, each time that it is asked for again; and a slot that is asked for again
holds a variable, if usage had the expression behind it named. An expression that is a reference
itself is the exception: it is never named, and if what it refers to is referred to only there, this
is not named either.
-/

namespace RowCode

namespace Expr

/-! The calls of runtime functions that occur in an expression. -/

mutual

def runtimeCalls : Expr → Nat
  | constant _ _ => 0
  | var _ => 0
  | call target _ args _ => runtimeCalls target + runtimeCallsOfAll args
  | staticCall owner _ args _ => (if owner = runtimeClass then 1 else 0) + runtimeCallsOfAll args
  | construct _ args => runtimeCallsOfAll args
  | binary _ left right _ => runtimeCalls left + runtimeCalls right
  | unary _ operand _ => runtimeCalls operand
  | conditional test ifTrue ifFalse _ =>
    runtimeCalls test + (runtimeCalls ifTrue + runtimeCalls ifFalse)
  | cast operand _ => runtimeCalls operand
  | element array _ _ => runtimeCalls array
  | lambda _ body => runtimeCalls body

def runtimeCallsOfAll : List Expr → Nat
  | [] => 0
  | e :: rest => runtimeCalls e + runtimeCallsOfAll rest

end

theorem runtimeCallsOfAll_eq (es : List Expr) :
    runtimeCallsOfAll es = (es.map runtimeCalls).sum := by
  induction es with
  | nil => rfl
  | cons e rest ih => rw [runtimeCallsOfAll, ih, List.map_cons, List.sum_cons]

theorem runtimeCalls_readAs (e : Expr) (p : Primitive) :
    (e.readAs p).runtimeCalls = e.runtimeCalls := by
  unfold readAs
  split
  · rfl
  · split <;> rfl

theorem runtimeCalls_coerce (e : Expr) (target : HostType) :
    (e.coerce target).runtimeCalls = e.runtimeCalls := by
  unfold coerce
  split
  · rfl
  · split
    · rfl
    · split
      · exact e.runtimeCalls_readAs _
      · rfl

theorem runtimeCalls_unbox (e : Expr) : e.unbox.runtimeCalls = e.runtimeCalls := by
  unfold unbox
  split
  · exact e.runtimeCalls_coerce _
  · rfl

theorem runtimeCalls_foldl_operation (op : BinaryOp) (first : Expr) (rest : List Expr) :
    ((rest.map unbox).foldl (operation op) first).runtimeCalls =
      first.runtimeCalls + (rest.map runtimeCalls).sum := by
  induction rest generalizing first with
  | nil => rfl
  | cons e rest ih =>
      rw [List.map_cons, List.foldl_cons, ih, List.map_cons, List.sum_cons, operation, runtimeCalls,
        runtimeCalls_unbox, Nat.add_assoc]

theorem runtimeCalls_caseChain (ty : HostType) (branches : List (Expr × Expr)) (otherwise : Expr) :
    (Strategy.caseChain ty branches otherwise).runtimeCalls =
      (branches.map fun branch => branch.1.runtimeCalls + branch.2.runtimeCalls).sum +
        otherwise.runtimeCalls := by
  induction branches with
  | nil => exact (otherwise.runtimeCalls_coerce ty).trans (Nat.zero_add _).symm
  | cons branch rest ih =>
      change (choose _ _ (Strategy.caseChain ty rest otherwise)).runtimeCalls = _
      rw [choose, runtimeCalls, ih, runtimeCalls_coerce, runtimeCalls_coerce, List.map_cons,
        List.sum_cons]
      omega

theorem runtimeCalls_lowerLiteral (adapter : TypeAdapter) (v : Value) (ty : LogicalType) :
    (lowerLiteral adapter v ty).runtimeCalls = 0 := by
  unfold lowerLiteral
  dsimp only
  split
  · rfl
  · split <;> rfl

theorem sum_of_pairUp? {α : Type} (weight : α → Nat) {items : List α} {pairs : List (α × α)}
    {last : α} (hpairs : pairUp? items = some (pairs, last)) :
    (items.map weight).sum =
      (pairs.map fun pair => weight pair.1 + weight pair.2).sum + weight last := by
  fun_induction pairUp? items generalizing pairs with
  | case1 => simp at hpairs
  | case2 only => simp_all
  | case3 first second rest ih =>
      obtain ⟨⟨pairs', last'⟩, hrest, heq⟩ := Option.map_eq_some_iff.mp hpairs
      obtain ⟨rfl, rfl⟩ := Prod.mk.inj heq
      rw [List.map_cons, List.map_cons, List.sum_cons, List.sum_cons, ih hrest, List.map_cons,
        List.sum_cons]
      dsimp only
      omega

end Expr

namespace Strategy

/-- The runtime calls that a strategy adds to those of its operands. -/
def runtimeCalls : Strategy → Nat
  | .runtimeCall _ => 1
  | _ => 0

/-- **A strategy emits its operands at most once**, and at most one call of its own. -/
theorem runtimeCalls_assemble? {strategy : Strategy} {ty : HostType} {args : List Expr} {e : Expr}
    (he : strategy.assemble? ty args = some e) :
    e.runtimeCalls ≤ (args.map Expr.runtimeCalls).sum + strategy.runtimeCalls := by
  unfold assemble? at he
  split at he
  · obtain rfl := Option.some.inj he
    rw [Expr.runtimeCall, Expr.runtimeCalls, Expr.runtimeCallsOfAll_eq, if_pos rfl, Nat.add_comm]
    exact Nat.le_refl _
  · obtain rfl := Option.some.inj he
    rw [Expr.runtimeCalls_foldl_operation, Expr.runtimeCalls_unbox, ← List.sum_cons, ← List.map_cons]
    exact Nat.le_refl _
  · obtain rfl := Option.some.inj he
    exact Nat.le_of_eq (Expr.runtimeCalls_unbox _)
  · obtain rfl := Option.some.inj he
    split
    · exact Nat.zero_le _
    · split <;> exact Nat.le_refl _
  · obtain ⟨⟨branches, otherwise⟩, hpairs, rfl⟩ := Option.map_eq_some_iff.mp he
    rw [Expr.sum_of_pairUp? Expr.runtimeCalls hpairs]
    exact Nat.le_of_eq (Expr.runtimeCalls_caseChain ..)
  · obtain rfl := Option.some.inj he
    exact Nat.le_of_eq (Expr.runtimeCalls_coerce ..)
  · cases he

end Strategy

def Block.runtimeCalls (b : Block) : Nat := (b.statements.map fun d => d.init.runtimeCalls).sum

theorem Block.runtimeCalls_declareFinal (b : Block) (suggestion : String) (init : Expr) :
    (b.declareFinal suggestion init).2.runtimeCalls = b.runtimeCalls + init.runtimeCalls := by
  simp [runtimeCalls, statements_declareFinal]

def Node.isCall : Node → Bool
  | .call _ _ _ => true
  | _ => false

namespace LoweringContext

variable {c : LoweringContext} {items : List (Place × Node)} {s s' : LoweringState}
  {es : List Expr}

theorem runtimeCalls_fill {key : SlotKey} {lowered value : Expr}
    (hfill : c.fill key lowered s = (value, s')) :
    value.runtimeCalls + s'.block.runtimeCalls = lowered.runtimeCalls + s.block.runtimeCalls := by
  rcases (fill_cases hfill).2 with ⟨-, suggestion, rfl, hblock, -⟩ | ⟨-, rfl, hblock, -⟩
  · rw [hblock, Block.runtimeCalls_declareFinal, Expr.runtimeCalls]
    omega
  · rw [hblock]

theorem runtimeCalls_readField {inputs : List RowInput} {b b' : Block} {index : Nat} {e : Expr}
    (hrows : ∀ input ∈ inputs, input.row.runtimeCalls = 0)
    (hread : RowInput.readField inputs b index = (.ok e, b')) :
    e.runtimeCalls = 0 ∧ b'.runtimeCalls = b.runtimeCalls := by
  obtain ⟨position, input, offset, hlocate, rfl, hfield⟩ := RowInput.of_readField_ok hread
  constructor
  · unfold RowLayout.fieldOf at hfield
    split at hfield
    · obtain rfl := Except.ok.inj hfield
      exact Expr.runtimeCalls_coerce _ _
    · cases hfield
  · unfold Block.append
    cases b.holder? input.row with
    | some v => rfl
    | none =>
        change (b.declareFinal _ _).2.runtimeCalls = _
        rw [Block.runtimeCalls_declareFinal, hrows input (RowInput.mem_of_locate? hlocate),
          Nat.add_zero]

theorem Makes.runtimeCalls_le {node : Node} {args : List Expr} {e : Expr}
    (h : c.Makes node s args e s') (hrows : ∀ input ∈ c.inputs, input.row.runtimeCalls = 0) :
    e.runtimeCalls + s'.block.runtimeCalls ≤
      (args.map Expr.runtimeCalls).sum + s.block.runtimeCalls + if node.isCall then 1 else 0 := by
  cases h with
  | field hread =>
      obtain ⟨he, hblock⟩ := runtimeCalls_readField hrows hread
      dsimp only
      rw [he, hblock]
      omega
  | literal v ty =>
      rw [Expr.runtimeCalls_lowerLiteral]
      omega
  | @operation _ op strategy _ _ _ hop hstrategy hassemble =>
      have hargs := Strategy.runtimeCalls_assemble? hassemble
      suffices hown : strategy.runtimeCalls ≤ if node.isCall then 1 else 0 by omega
      cases node with
      | call op operands ty =>
          change strategy.runtimeCalls ≤ 1
          unfold Strategy.runtimeCalls
          split <;> omega
      | case branches otherwise ty =>
          obtain rfl := Option.some.inj hop
          rw [OperatorTable.strategy?_case] at hstrategy
          obtain rfl := Option.some.inj hstrategy
          exact Nat.zero_le _
      | inputRef | localRef | literal | dynamicParam => cases hop

/-- The calls in the bodies that the references with slots lead to. -/
def bodyCalls (c : LoweringContext) (s : LoweringState) : Nat :=
  (s.referenceIndexes.flatMap c.program.nodesOf).countP Node.isCall

/-- **What a walk emits is paid for once.** If what is asked for again emits nothing, then a walk
emits at most the calls in its items and in the bodies that it goes through. -/
theorem Walks.runtimeCalls_le (h : c.Walks items s es s')
    (hrows : ∀ input ∈ c.inputs, input.row.runtimeCalls = 0)
    (hused : ∀ key, s.Filled key → 0 < s.useCount key)
    (hagain : ∀ index e, 1 < s'.useCount (.reference index) →
      s'.value? (.reference index) = some e → e.runtimeCalls = 0) :
    (es.map Expr.runtimeCalls).sum + s'.block.runtimeCalls + c.bodyCalls s ≤
      s.block.runtimeCalls + (items.flatMap fun item => item.2.nodes).countP Node.isCall +
        c.bodyCalls s' := by
  induction h with
  | nil => simp
  | @cons place node rest s s₁ s₂ e es head tail ihhead ihtail =>
      have hfirst := ihhead hused fun index e huses hvalue =>
        hagain index e (Nat.lt_of_lt_of_le huses (tail.useCount_le _)) (tail.value?_kept hvalue)
      have hrest := ihtail (head.useCount_pos hused) hagain
      rw [List.flatMap_singleton, List.map_singleton, List.sum_singleton] at hfirst
      rw [List.map_cons, List.sum_cons, List.flatMap_cons, List.countP_append]
      omega
  | @again place index ty s slot hslot =>
      have hzero : slot.value.runtimeCalls = 0 := by
        refine hagain index _ ?_ ?_
        · rw [LoweringState.useCount_touch hslot, if_pos rfl]
          exact Nat.succ_lt_succ (hused _ (LoweringState.filled_of_slot? hslot))
        · rw [LoweringState.value?_touch, LoweringState.value?_of_slot? hslot]
      have hbodies : c.bodyCalls (s.touch (.reference index)) = c.bodyCalls s := by
        rw [bodyCalls, LoweringState.referenceIndexes_touch, bodyCalls]
      have hblock : (s.touch (.reference index)).block = s.block := rfl
      rw [hbodies, hblock, List.map_singleton, List.sum_singleton, hzero]
      omega
  | @first place index ty body s s₁ s' e value hbody hwalk hnew hfill ih =>
      have hpaid := ih hused fun other e huses hvalue => by
        refine hagain other e ?_ (value?_fill_of_filled hfill hnew hvalue)
        rw [useCount_fill hfill hnew]
        exact Nat.lt_add_right _ huses
      have hbodies : c.bodyCalls s' = body.nodes.countP Node.isCall + c.bodyCalls s₁ := by
        rw [bodyCalls, referenceIndexes_fill hfill, List.flatMap_append, List.countP_append]
        change ([index].flatMap _).countP _ + _ = _
        rw [List.flatMap_singleton, Program.nodesOf_eq hbody]
        rfl
      have hfilled := runtimeCalls_fill hfill
      rw [List.flatMap_singleton, List.map_singleton, List.sum_singleton] at hpaid
      rw [List.map_singleton, List.sum_singleton, hbodies]
      dsimp only at hpaid
      omega
  | @node place node s s₁ s₂ s' args e value hwalk hmade hnew hfill ih =>
      have hpaid := ih hused fun other e huses hvalue => by
        refine hagain other e ?_
          (value?_fill_of_filled hfill hnew ((hmade.value?_eq _).trans hvalue))
        rw [useCount_fill hfill hnew, hmade.useCount_eq]
        exact Nat.lt_add_right _ huses
      have hbodies : c.bodyCalls s' = c.bodyCalls s₁ := by
        rw [bodyCalls, hmade.referenceIndexes_eq hfill, bodyCalls]
      have hnode : ([(place, node)].flatMap fun item => item.2.nodes).countP Node.isCall =
          (node.children.flatMap Node.nodes).countP Node.isCall + if node.isCall then 1 else 0 := by
        rw [List.flatMap_singleton, Node.nodes_eq, List.countP_cons]
      have hown := hmade.runtimeCalls_le hrows
      have hfilled := runtimeCalls_fill hfill
      rw [place.flatMap_childItems] at hpaid
      rw [hnode, hbodies, List.map_singleton, List.sum_singleton]
      omega

end LoweringContext

namespace PassRequest

variable {r : PassRequest} {block : Block} {shared : List Nat} {es : List Expr} {s : LoweringState}

theorem Ends.runtimeCalls_le (h : r.Ends block shared es s)
    (hrows : ∀ input ∈ r.context.inputs, input.row.runtimeCalls = 0)
    (hnamed : ∀ index last, r.context.program.StandsFor index last →
      1 < r.context.program.occurrences (r.items.map Prod.snd) index →
      r.context.names shared (.node (.root (.expr last))) = true) :
    (es.map Expr.runtimeCalls).sum + s.block.runtimeCalls ≤ block.runtimeCalls +
      (r.context.program.reachedNodes (r.items.map Prod.snd)).countP Node.isCall := by
  have hpaid := h.walks.runtimeCalls_le hrows (fun _ hfilled => by cases hfilled) (by
    intro index e huses hvalue
    rw [h.useCount_eq] at huses
    have hreached := Program.mem_reached_of_occurrences r.lt_of_mem_references (Nat.zero_lt_of_lt huses)
    obtain ⟨last, hstands⟩ := Program.exists_standsFor (Program.lt_of_mem_reached hreached)
    obtain ⟨d, -, rfl⟩ := h.exists_target (h.value?_of_standsFor hstands hvalue)
      (hnamed index last hstands huses)
    rfl)
  have hitems : (r.items.flatMap fun item => item.2.nodes).countP Node.isCall = 0 := by
    refine List.countP_eq_zero.mpr fun node hnode => ?_
    obtain ⟨item, hitem, hnode⟩ := List.mem_flatMap.mp hnode
    obtain ⟨index, ty, houtput, -⟩ := exists_localRef_of_mem_items hitem
    rw [houtput, Node.nodes_localRef, List.mem_singleton] at hnode
    rw [hnode]
    exact Bool.false_ne_true
  have hbodies : r.context.bodyCalls s =
      (r.context.program.reachedNodes (r.items.map Prod.snd)).countP Node.isCall :=
    (h.perm_referenceIndexes.flatMap_right _).countP_eq _
  rw [hitems, hbodies] at hpaid
  exact hpaid

end PassRequest

namespace PlainContext

/-- **No call is emitted twice.** Suppose that under the policy by usage, what an expression that is
referred to more than once stands for is itself referred to more than once. Then the declarations
that a pass adds and its results together call runtime functions at most as often as there are calls
in the expressions that the projections lead to, each expression counted once. -/
theorem calls_are_emitted_once (c : PlainContext) (policy : NamingPolicy) (stem : String)
    (block after : Block) (es : List Expr)
    (hnamed : policy = .shared → ∀ usage index last, Usage.ofProjects? c.program = some usage →
      c.program.StandsFor index last → 1 < usage.count index → 1 < usage.count last)
    (hrun : (c.naming policy stem).lowerProjects block = (.ok es, after)) :
    ((after.statements.drop block.length).map fun d => d.init.runtimeCalls).sum +
        (es.map Expr.runtimeCalls).sum ≤
      (c.program.reachedNodes c.program.projects).countP Node.isCall := by
  have hrun' : (c.request policy stem .projects).run block = (.ok es, after) := hrun
  obtain ⟨shared, s, h, rfl⟩ := PassRequest.ends_of_run_ok (fun hvacuous => by cases hvacuous.1) hrun'
  have hcalls := h.runtimeCalls_le
    (fun input hinput => by rw [List.mem_singleton.mp hinput]; rfl) (by
    intro index last hstands huses
    cases policy with
    | all => rfl
    | shared =>
        obtain ⟨usage, husage, hshared, hcount⟩ := h.exists_usage rfl
        rw [map_snd_items_projects] at husage
        have hlast := hnamed rfl usage index last husage hstands (hcount index ▸ huses)
        exact decide_eq_true ((hshared last).mpr hlast))
  obtain ⟨added, hadded⟩ := h.lowers.grows.statements_grow
  have hsplit : s.block.runtimeCalls = block.runtimeCalls +
      ((s.block.statements.drop block.length).map fun d => d.init.runtimeCalls).sum := by
    rw [Block.runtimeCalls, ← hadded, Block.length, List.drop_left, List.map_append,
      List.sum_append, Block.runtimeCalls]
  rw [map_snd_items_projects] at hcalls
  change _ ≤ _ + (c.program.reachedNodes c.program.projects).countP Node.isCall at hcalls
  omega

/-- `UPPER` of a literal, and an expression that only refers to it. -/
def aliasParts (projects : List Node) : ProgramParts where
  inputRowType := []
  exprs := [.call .upper [.literal (.string "a") (.notNull .varchar)] (.notNull .varchar),
    .localRef 0 (.notNull .varchar)]
  projects := projects
  condition := none

/-- Projects the alias twice. -/
def aliasProgram : Program where
  toProgramParts := aliasParts [.localRef 1 (.notNull .varchar), .localRef 1 (.notNull .varchar)]
  faultless := by decide

/-- Projects the call as well. -/
def projectedAliasProgram : Program where
  toProgramParts := aliasParts [.localRef 0 (.notNull .varchar), .localRef 1 (.notNull .varchar),
    .localRef 1 (.notNull .varchar)]
  faultless := by decide

def stringContext (program : Program) : PlainContext where
  program := program
  adapter := .standard
  row := ⟨"row", .objectArray⟩
  layout := .ofRowType program.inputRowType .standard
  table := .standard

/-- Where the call behind the alias is projected as well, it is named, and emitted once. -/
theorem projected_alias_is_emitted_once :
    ∃ after, ((stringContext projectedAliasProgram).naming .shared "v").lowerProjects .empty =
        (.ok (List.replicate 3 (.var ⟨"v1", .string⟩)), after) ∧
      (after.statements.map fun d => d.init.runtimeCalls).sum ≤ 1 := by
  have hrun : ((stringContext projectedAliasProgram).naming .shared "v").lowerProjects .empty =
      (.ok (List.replicate 3 (.var ⟨"v1", .string⟩)),
        (((stringContext projectedAliasProgram).naming .shared "v").lowerProjects .empty).2) :=
    Prod.ext (by rfl) rfl
  refine ⟨_, hrun, calls_are_emitted_once _ .shared "v" .empty _ _ ?_ hrun⟩
  rintro - usage index last husage hstands hcount
  have hcounts : Usage.ofProjects? projectedAliasProgram = some ⟨[2, 2], [true, true]⟩ := by decide
  obtain rfl := Option.some.inj (hcounts.symm.trans husage)
  cases hstands with
  | self => exact hcount
  | @through index other last ty hbody h =>
      -- Only the second expression is a reference, and what it refers to stands for itself.
      match index, hbody with
      | 1, hbody =>
          obtain ⟨rfl, -⟩ := Node.localRef.inj (Option.some.inj hbody)
          cases h with
          | self => decide
          | through hbody' => cases hbody'

/-- **An alias is emitted at each use.** The call behind it is referred to once, so that it is not
named, and the alias is never named. -/
theorem alias_is_emitted_twice :
    ∃ after e, ((stringContext aliasProgram).naming .shared "v").lowerProjects .empty =
        (.ok [e, e], after) ∧
      e = .runtimeCall "upper" [.constant (.string "a") .string] .string ∧
      (aliasProgram.reachedNodes aliasProgram.projects).countP Node.isCall = 1 ∧
      ([e, e].map Expr.runtimeCalls).sum = 2 :=
  ⟨_, _, Prod.ext (by rfl) rfl, rfl, by decide, by decide⟩

end PlainContext

end RowCode
