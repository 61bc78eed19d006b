import RowCode.Proofs.Lockstep
import RowCode.Proofs.NativeOperators
import RowCode.Proofs.PlainTrees
import RowCode.Proofs.Support
import RowCode.Proofs.Typing

/-!
# Lowering with host operators

Where logic and comparisons are typed as booleans that are not null, a pass with the native table
does what one with the standard table does, up to rewriting: it declares the same variables in the
same order, each with the rewritten expression, and returns the rewritten results.
-/

namespace RowCode

/-! ### Blocks -/

def Declaration.native (d : Declaration) : Declaration := { d with init := d.init.native }

namespace Block

/-- What was declared since the block was `base` is declared with rewritten expressions, and under
the same names. -/
structure Rewritten (base b b' : Block) : Prop where
  names : b'.names = b.names
  added : ∃ added : List Declaration, b.statements = base.statements ++ added ∧
    b'.statements = base.statements ++ added.map Declaration.native ∧
      ∀ d ∈ added, d.init.native.ty = d.init.ty

variable {base b b' : Block}

theorem rewritten_self (b : Block) : Rewritten b b b :=
  ⟨rfl, [], (List.append_nil _).symm, (List.append_nil _).symm, List.forall_mem_nil _⟩

namespace Rewritten

theorem declareFinal (h : Rewritten base b b') (suggestion : String) {e : Expr}
    (hty : e.native.ty = e.ty) :
    (b'.declareFinal suggestion e.native).1 = (b.declareFinal suggestion e).1 ∧
      Rewritten base (b.declareFinal suggestion e).2 (b'.declareFinal suggestion e.native).2 := by
  obtain ⟨added, hstatements, hstatements', htypes⟩ := h.added
  have htarget : (b'.declareFinal suggestion e.native).1 = (b.declareFinal suggestion e).1 := by
    rw [Block.declareFinal, Block.declareFinal, h.names, hty]
  refine ⟨htarget, ?_, added ++ [⟨(b.declareFinal suggestion e).1, e, true⟩], ?_, ?_, ?_⟩
  · rw [names_declareFinal, names_declareFinal, htarget, h.names]
  · rw [statements_declareFinal, hstatements, List.append_assoc]
  · rw [statements_declareFinal, hstatements', htarget, List.map_append, List.append_assoc]
    rfl
  · intro d hd
    rcases List.mem_append.mp hd with hold | hlast
    · exact htypes d hold
    · rw [List.mem_singleton.mp hlast]
      exact hty

theorem holder?_var (h : Rewritten base b b') (v : Variable) :
    b'.holder? (.var v) = b.holder? (.var v) := by
  obtain ⟨added, hstatements, hstatements', -⟩ := h.added
  rw [holder?, holder?, hstatements, hstatements', List.find?_append, List.find?_append,
    List.find?_map, Option.map_or, Option.map_or, Option.map_map]
  have hholds : ((fun d : Declaration => d.isFinal && d.init.agrees (.var v)) ∘ Declaration.native) =
      fun d => d.isFinal && d.init.agrees (.var v) := by
    funext d
    rw [Function.comp_apply, Declaration.native, Expr.agrees_native_var]
  rw [hholds]
  rfl

theorem append_var (h : Rewritten base b b') (suggestion : String) (v : Variable) :
    (b'.append suggestion (.var v)).1 = (b.append suggestion (.var v)).1 ∧
      Rewritten base (b.append suggestion (.var v)).2 (b'.append suggestion (.var v)).2 := by
  unfold append
  rw [h.holder?_var]
  cases b.holder? (.var v) with
  | some holder => exact ⟨rfl, h⟩
  | none =>
      have hty : (Expr.var v).native.ty = (Expr.var v).ty := rfl
      exact h.declareFinal suggestion hty

end Rewritten

end Block

theorem Program.exists_body_of_has {p : Program} {index : Nat} {ty : LogicalType}
    (h : p.Has (.localRef index ty)) : ∃ body, p.exprs[index]? = some body := by
  obtain ⟨root, hroot, hnested⟩ := List.mem_flatMap.mp (mem_of_has h)
  refine ⟨_, List.getElem?_eq_getElem ?_⟩
  rcases List.mem_append.mp hroot with hexpr | houtput
  · obtain ⟨k, hk⟩ := List.getElem?_of_mem hexpr
    have hindex : index < k :=
      Node.lt_of_localRef_fault? (Node.fault?_of_mem_nodes (fault?_of_expr hk) hnested)
    exact Nat.lt_trans hindex (List.getElem?_eq_some_iff.mp hk).1
  · exact lt_of_mem_references_output houtput index (Node.mem_references.mpr ⟨ty, hnested⟩)

/-! ### Slots -/

theorem LoweringContext.names_congr (c : LoweringContext) {shared shared' : List Nat}
    (h : ∀ index, index ∈ shared' ↔ index ∈ shared) (key : SlotKey) :
    c.names shared' key = c.names shared key := by
  unfold names
  simp only [h]

def Slot.native (slot : Slot) : Slot := { slot with lowered := slot.lowered.native }

theorem Slot.value_native (slot : Slot) : slot.native.value = slot.value.native := by
  unfold value native
  cases slot.holder <;> rfl

namespace PlainContext

/-- The same context with another table. -/
def withTable (c : PlainContext) (table : OperatorTable) : PlainContext := { c with table }

/-- What a node becomes with the standard and with the native table: an expression of the type of its
plain tree, and that expression rewritten, of the same type. -/
structure BecomesNative (c : PlainContext) (node : Node) (e e' : Expr) : Prop where
  rewritten : e' = e.native
  ty_eq : e.native.ty = e.ty
  -- What is asked of an operand of NOT is said of its tree, which naming does not change.
  tree : ∃ t, (c.withTable .standard).tree node = .ok t ∧ t.ty = e.ty

/-- States of the two passes. The slots are the same up to rewriting, and what they hold is what their
nodes become. -/
structure Alongside (c : PlainContext) (base : Block) (s t : LoweringState) : Prop where
  shared : ∀ index, index ∈ t.shared ↔ index ∈ s.shared
  block : Block.Rewritten base s.block t.block
  slots : t.slots = s.slots.map fun entry => (entry.1, entry.2.native)
  values : ∀ key e, s.value? key = some e → ∀ node, c.program.slotNode? key = some node →
    c.BecomesNative node e e.native

namespace Alongside

variable {c : PlainContext} {base : Block} {s t : LoweringState} {key : SlotKey} {node : Node}

theorem slot?_eq (h : c.Alongside base s t) (key : SlotKey) :
    t.slot? key = (s.slot? key).map Slot.native :=
  LoweringState.slot?_of_slots_map (g := id) h.slots fun _ _ => id

theorem touch (h : c.Alongside base s t) (key : SlotKey) :
    c.Alongside base (s.touch key) (t.touch key) where
  shared := h.shared
  block := h.block
  slots := LoweringState.slots_touch_of_map (g := id) h.slots (fun _ _ => id) fun _ => rfl
  values other e hvalue := by
    rw [LoweringState.value?_touch] at hvalue
    exact h.values other e hvalue

theorem values_cons (h : c.Alongside base s t) (hnode : c.program.slotNode? key = some node)
    {slot : Slot} (hslot : c.BecomesNative node slot.value slot.value.native) {s' : LoweringState}
    (hslots : s'.slots = (key, slot) :: s.slots) : ∀ other e, s'.value? other = some e →
      ∀ node', c.program.slotNode? other = some node' → c.BecomesNative node' e e.native := by
  intro other e hvalue node' hnode'
  rw [LoweringState.value?, LoweringState.slot?_of_slots_eq hslots] at hvalue
  by_cases hkey : other = key
  · rw [if_pos hkey] at hvalue
    rw [hkey, hnode] at hnode'
    rw [← Option.some.inj hvalue, ← Option.some.inj hnode']
    exact hslot
  · rw [if_neg hkey] at hvalue
    exact h.values other e hvalue node' hnode'

theorem fill (h : c.Alongside base s t) (hnode : c.program.slotNode? key = some node) {e : Expr}
    (he : c.BecomesNative node e e.native) (d : LoweringContext) :
    c.BecomesNative node (d.fill key e s).1 (d.fill key e.native t).1 ∧
      c.Alongside base (d.fill key e s).2 (d.fill key e.native t).2 := by
  have hlength : t.slots.length = s.slots.length := by rw [h.slots, List.length_map]
  unfold LoweringContext.fill
  rw [d.names_congr h.shared, hlength]
  generalize d.stem ++ toString s.slots.length = suggestion
  split
  · obtain ⟨htarget, hblock⟩ := h.block.declareFinal suggestion he.ty_eq
    have hvar : c.BecomesNative node (.var (s.block.declareFinal suggestion e).1)
        (.var (t.block.declareFinal suggestion e.native).1) := by
      rw [htarget]
      exact ⟨rfl, rfl, he.tree⟩
    have hslot : c.BecomesNative node
        (Slot.value ⟨some (s.block.declareFinal suggestion e).1, e, 1⟩)
        (Slot.value ⟨some (s.block.declareFinal suggestion e).1, e, 1⟩).native :=
      ⟨rfl, rfl, he.tree⟩
    refine ⟨hvar, h.shared, hblock, ?_, h.values_cons hnode hslot rfl⟩
    dsimp only
    rw [h.slots, htarget]
    rfl
  · have hslot : c.BecomesNative node (Slot.value ⟨none, e, 1⟩)
        (Slot.value ⟨none, e, 1⟩).native := he
    refine ⟨he, h.shared, h.block, ?_, h.values_cons hnode hslot rfl⟩
    rw [h.slots]
    rfl

theorem lockstep_withSlot {policy : NamingPolicy} {stem : String} {x y : Lowering Expr}
    (hnode : c.program.slotNode? key = some node)
    (hxy : Lockstep (c.Alongside base) Eq (c.BecomesNative node) x y) :
    Lockstep (c.Alongside base) Eq (c.BecomesNative node)
      (((c.withTable .standard).naming policy stem).withSlot key x)
      (((c.withTable .native).naming policy stem).withSlot key y) := by
  refine hxy.withSlot (fun s t h => ?_) (fun s t h => h.touch key) fun s t e e' h he => ?_
  · rw [h.slot?_eq]
    cases hslot : s.slot? key with
    | none => exact .none
    | some slot =>
        refine .some ?_
        rw [Slot.value_native]
        exact h.values key slot.value (LoweringState.value?_of_slot? hslot) node hnode
  · obtain rfl := he.rewritten
    exact h.fill hnode he _

end Alongside

/-! ### Operations -/

variable (c : PlainContext)

/-- Whether a node that calls logic or a comparison is of a type and has operands for which the host
has an operator that does the same. -/
def SuitsHost : Node → Prop
  | .call op operands ty =>
    match op with
    | .and | .or | .lessThan | .lessThanOrEqual | .greaterThan | .greaterThanOrEqual | .equals
    | .notEquals => ty = .notNull .boolean ∧ 2 ≤ operands.length
    | .not => ty = .notNull .boolean ∧ ∃ operand, operands = [operand] ∧
        ∀ e, (c.withTable .standard).tree operand = .ok e → e.ty = .boolean ∨ e.ty = .boxed .boolean
    | _ => True
  | _ => True

variable {c} {node : Node} {op : Operator}

theorem SuitsHost.of_fold (h : c.SuitsHost node) (hop : node.operator? = some op) {hostOp : BinaryOp}
    (hfold : OperatorTable.nativeStrategy? op = some (.fold hostOp)) :
    node.ty = .notNull .boolean ∧ 2 ≤ node.children.length := by
  cases node with
  | call op' operands ty =>
      obtain rfl : op' = op := Option.some.inj hop
      cases op' <;> cases hfold <;> exact h
  | case branches otherwise ty =>
      obtain rfl : Operator.case = op := Option.some.inj hop
      cases hfold
  | inputRef | localRef | literal | dynamicParam => cases hop

theorem SuitsHost.of_not (h : c.SuitsHost node) (hop : node.operator? = some .not) :
    node.ty = .notNull .boolean ∧ ∃ operand, node.children = [operand] ∧
      ∀ e, (c.withTable .standard).tree operand = .ok e →
        e.ty = .boolean ∨ e.ty = .boxed .boolean := by
  cases node with
  | call op' operands ty =>
      obtain rfl : op' = .not := Option.some.inj hop
      exact h
  | case | inputRef | localRef | literal | dynamicParam => cases hop

namespace BecomesNative

variable {nodes : List Node} {es es' : List Expr}

theorem of_results (h : Results c.BecomesNative nodes es es') :
    es' = es.map Expr.native ∧ (∀ e ∈ es, e.native.ty = e.ty) ∧
      ∃ ts, List.Forall₂ (fun node t => (c.withTable .standard).tree node = .ok t) nodes ts ∧
        ts.length = es.length := by
  induction h with
  | nil => exact ⟨rfl, List.forall_mem_nil _, [], .nil, rfl⟩
  | cons head _ ih =>
      obtain ⟨rfl, hty, t, htree, -⟩ := head
      obtain ⟨rfl, htypes, ts, htrees, hlength⟩ := ih
      refine ⟨rfl, List.forall_mem_cons.mpr ⟨hty, htypes⟩, t :: ts, .cons htree htrees, ?_⟩
      rw [List.length_cons, List.length_cons, hlength]

/-- An operation whose operands have plain trees has one, of the type that it is assembled with. -/
theorem exists_tree (hop : node.operator? = some op) {strategy : Strategy}
    (hstrategy : OperatorTable.standard.strategy? op = some strategy)
    (hes : Results c.BecomesNative node.children es es') {e : Expr}
    (he : strategy.assemble? (c.adapter node.ty) es = some e) :
    ∃ t, (c.withTable .standard).tree node = .ok t ∧ t.ty = e.ty := by
  obtain ⟨-, -, ts, htrees, hlength⟩ := of_results hes
  have hassembles : (strategy.assemble? (c.adapter node.ty) ts).isSome := by
    rw [Strategy.isSome_assemble?, hlength, ← Strategy.isSome_assemble? _ (c.adapter node.ty), he]
    rfl
  obtain ⟨t, ht⟩ := Option.isSome_iff_exists.mp hassembles
  refine ⟨t, ?_, OperatorTable.ty_eq_of_standard hstrategy he ht⟩
  rw [tree_of_operator? hop hstrategy, mapM_of_forall₂ htrees]
  change (c.withTable .standard).assemble strategy node ts = .ok t
  unfold assemble
  rw [show strategy.assemble? ((c.withTable .standard).adapter node.ty) ts = some t from ht]

end BecomesNative

/-- Two strategies for a node refuse the same numbers of operands. From operands that are the same up
to rewriting, they assemble expressions that are. -/
def AssembleAlike (c : PlainContext) (node : Node) (strategy strategy' : Strategy) : Prop :=
  strategy.refuses node.children.length = strategy'.refuses node.children.length ∧
    ∀ es es', Results c.BecomesNative node.children es es' → Option.Rel (c.BecomesNative node)
      (strategy.assemble? (c.adapter node.ty) es) (strategy'.assemble? (c.adapter node.ty) es')

theorem assembleAlike_self {strategy : Strategy} (hop : node.operator? = some op)
    (hmethod : OperatorTable.predicateMethod? op = none)
    (hstrategy : OperatorTable.standard.strategy? op = some strategy) :
    c.AssembleAlike node strategy strategy := by
  refine ⟨rfl, fun es es' hes => ?_⟩
  obtain ⟨rfl, htypes, -⟩ := BecomesNative.of_results hes
  have hassemble := OperatorTable.assemble?_native hmethod hstrategy (c.adapter node.ty) htypes
  cases he : strategy.assemble? (c.adapter node.ty) es with
  | none =>
      rw [hassemble, he]
      exact .none
  | some e =>
      rw [he, Option.map_some] at hassemble
      rw [hassemble]
      exact .some ⟨rfl, OperatorTable.ty_eq_of_standard hstrategy he hassemble,
        BecomesNative.exists_tree hop hstrategy hes he⟩

section Predicates

variable {method : String} (hadapter : c.adapter (.notNull .boolean) = .boolean)
  (hsuits : c.SuitsHost node)

include hadapter hsuits

theorem assembleAlike_fold {hostOp : BinaryOp} (hop : node.operator? = some op)
    (hstrategy : OperatorTable.standard.strategy? op = some (.runtimeCall method))
    (hfold : OperatorTable.nativeStrategy? op = some (.fold hostOp))
    (hfolded : Expr.foldedOperator? method = some hostOp) (hboolean : hostOp.isBoolean = true) :
    c.AssembleAlike node (.runtimeCall method) (.fold hostOp) := by
  obtain ⟨hty, hlength⟩ := hsuits.of_fold hop hfold
  refine ⟨rfl, fun es es' hes => ?_⟩
  have htree := BecomesNative.exists_tree hop hstrategy hes rfl
  obtain ⟨rfl, -, ts, htrees, hcount⟩ := BecomesNative.of_results hes
  have hes : 2 ≤ es.length := by rwa [← hcount, ← htrees.length_eq]
  have hnative := OperatorTable.assemble?_fold hfolded (c.adapter node.ty) hes
  rw [hnative]
  refine .some ⟨rfl, ?_, htree⟩
  rw [Strategy.ty_assemble? hnative hboolean, hty, hadapter]
  rfl

theorem assembleAlike_not (hop : node.operator? = some .not) :
    c.AssembleAlike node (.runtimeCall "not") (.unary .not) := by
  obtain ⟨hty, operand, hoperand, hboolean⟩ := hsuits.of_not hop
  have hstrategy : OperatorTable.standard.strategy? .not = some (.runtimeCall "not") := rfl
  refine ⟨rfl, fun es es' hes => ?_⟩
  have htree := BecomesNative.exists_tree hop hstrategy hes rfl
  rw [hoperand] at hes
  cases hes with
  | @cons _ _ e _ _ _ head tail =>
      cases tail
      obtain ⟨rfl, harg, t, ht, htyped⟩ := head
      have hunbox : e.native.unbox.ty = .boolean := by
        obtain ⟨nullable, hscalar⟩ : ∃ nullable, t.ty = TypeAdapter.scalar .boolean nullable := by
          rcases hboolean t ht with hbare | hbox
          · exact ⟨false, hbare⟩
          · exact ⟨true, hbox⟩
        exact Expr.ty_unbox_of_boolean (harg.trans (htyped.symm.trans hscalar))
      have hnative := OperatorTable.assemble?_not e (c.adapter node.ty)
      obtain ⟨_, hsingle, hnot⟩ := Strategy.ty_assemble? hnative
      obtain rfl := List.singleton_inj.mp hsingle
      rw [hnative]
      refine .some ⟨rfl, ?_, htree⟩
      rw [hnot, hunbox, hty, hadapter]
      rfl

/-- The two tables know the same operators, and assemble them alike. -/
theorem strategies_assemble_alike (hop : node.operator? = some op) :
    Option.Rel (c.AssembleAlike node) (OperatorTable.standard.strategy? op)
      (OperatorTable.native.strategy? op) := by
  cases hmethod : OperatorTable.predicateMethod? op with
  | none =>
      have hsame : OperatorTable.native.strategy? op = OperatorTable.standard.strategy? op := by
        rw [OperatorTable.strategy?, OperatorTable.strategy?, hmethod,
          OperatorTable.nativeStrategy?_eq_none hmethod, Option.map_none]
      rw [hsame]
      cases hstrategy : OperatorTable.standard.strategy? op with
      | none => exact .none
      | some strategy => exact .some (assembleAlike_self hop hmethod hstrategy)
  | some method =>
      have hstrategy : OperatorTable.standard.strategy? op = some (.runtimeCall method) := by
        rw [OperatorTable.strategy?, hmethod, Option.map_some, Option.some_or]
      rcases OperatorTable.of_predicateMethod? hmethod with
        ⟨hostOp, hfold, hfolded, hboolean⟩ | ⟨rfl, rfl, hunary⟩
      · rw [hstrategy, OperatorTable.strategy?, hfold, Option.some_or]
        exact .some (assembleAlike_fold hadapter hsuits hop hstrategy hfold hfolded hboolean)
      · rw [hstrategy, OperatorTable.strategy?, hunary, Option.some_or]
        exact .some (assembleAlike_not hadapter hsuits hop)

end Predicates

/-! ### Whole passes -/

theorem becomesNative_localRef {index : Nat} {ty : LogicalType} {body : Node}
    (hbody : c.program.exprs[index]? = some body) :
    c.BecomesNative body = c.BecomesNative (.localRef index ty) := by
  have htree : (c.withTable .standard).tree (.localRef index ty) =
      (c.withTable .standard).tree body := tree_localRef hbody
  funext e e'
  refine propext ⟨fun h => ⟨h.rewritten, h.ty_eq, ?_⟩, fun h => ⟨h.rewritten, h.ty_eq, ?_⟩⟩
  · rw [htree]
    exact h.tree
  · rw [← htree]
    exact h.tree

variable {policy : NamingPolicy} {stem : String} {base : Block}

theorem lockstep_field {index : Nat} (ty : LogicalType) :
    Lockstep (c.Alongside base) Eq (c.BecomesNative (.inputRef index ty))
      ((Getter.rows [⟨.var c.row, c.layout⟩]).read index)
      ((Getter.rows [⟨.var c.row, c.layout⟩]).read index) := by
  intro s t h
  unfold Getter.read Getter.rows RowInput.readField
  simp only [List.isEmpty_cons, Bool.false_eq_true, if_false, RowInput.locate?]
  by_cases hindex : index < c.layout.fieldCount
  · obtain ⟨hholder, hblock⟩ := h.block.append_var (RowInput.rowName 0) c.row
    simp only [if_pos hindex]
    refine ⟨?_, h.shared, hblock, h.slots, h.values⟩
    rw [hholder]
    generalize (s.block.append (RowInput.rowName 0) (.var c.row)).1 = holder
    obtain ⟨host, hhost⟩ : ∃ host, c.layout.fieldTypes[index]? = some host :=
      ⟨_, List.getElem?_eq_getElem hindex⟩
    have hread : ∀ v : Variable, c.layout.fieldOf (.var v) index =
        .ok (((Expr.var v).elementAt index).coerce host) := fun v => by
      rw [RowLayout.fieldOf, hhost]
    have hnative : (((Expr.var holder).elementAt index).coerce host).native =
        ((Expr.var holder).elementAt index).coerce host := by
      have hrow : (Expr.var holder).native.ty = (Expr.var holder).ty := rfl
      have hfield : c.layout.fieldOf (.var holder) index =
          (c.layout.fieldOf (.var holder) index).map Expr.native :=
        Expr.keepsShape_native.fieldOf hrow index
      rw [hread holder] at hfield
      exact (Except.ok.inj hfield).symm
    rw [hread]
    refine .ok ⟨hnative.symm, by rw [hnative], _, hread c.row, ?_⟩
    rw [Expr.ty_coerce, Expr.ty_coerce]
  · simp only [if_neg hindex]
    exact ⟨.error rfl, h⟩

/-- A node at its place in the program, which is the same in both passes. -/
def SameNode (c : PlainContext) (place : Place) (node : Node) (place' : Place) (node' : Node) :
    Prop :=
  place' = place ∧ node' = node ∧ c.program.nodeAt? place = some node

theorem SameNode.forall₂_self {items : List (Place × Node)}
    (hitems : ∀ item ∈ items, c.program.nodeAt? item.1 = some item.2) :
    List.Forall₂ (fun item item' => c.SameNode item.1 item.2 item'.1 item'.2) items items :=
  List.forall₂_same.mpr fun item hitem => ⟨rfl, rfl, hitems item hitem⟩

/-- **The step.** From states that are the same up to rewriting, the two passes lower a node to
expressions that are the same up to rewriting. -/
theorem native_simulation (c : PlainContext) (policy : NamingPolicy) (stem : String) (base : Block)
    (hadapter : c.adapter (.notNull .boolean) = .boolean)
    (hsuits : ∀ node, c.program.Has node → c.SuitsHost node) :
    Simulation (.rows [⟨.var c.row, c.layout⟩]) ((c.withTable .standard).naming policy stem)
      ((c.withTable .native).naming policy stem) (c.Alongside base) Eq c.SameNode
      c.BecomesNative where
  slot {place place' node node' x y} hpair hxy := by
    obtain ⟨rfl, rfl, hnode⟩ := hpair
    cases hreference : node'.reference? with
    | none =>
        rw [Node.slotKey_of_reference? hreference]
        exact Alongside.lockstep_withSlot hnode hxy
    | some index =>
        cases node' with
        | localRef index ty =>
            obtain ⟨body, hbody⟩ := Program.exists_body_of_has ⟨_, hnode⟩
            rw [← becomesNative_localRef hbody] at hxy ⊢
            exact Alongside.lockstep_withSlot hbody hxy
        | inputRef | literal | call | case | dynamicParam => cases hreference
  reference {place place' index ty node' body} hpair hbody := by
    obtain ⟨rfl, rfl, -⟩ := hpair
    exact ⟨index, ty, body, rfl, hbody, ⟨rfl, rfl, hbody⟩, becomesNative_localRef hbody⟩
  operation {place place' node node' op} hpair hop := by
    obtain ⟨rfl, rfl, hnode⟩ := hpair
    have hchildren := SameNode.forall₂_self (Program.nodeAt?_of_mem_children hnode)
    refine ⟨hop, hchildren, fun args args' hargs => ?_⟩
    exact .operation rfl rfl (strategies_assemble_alike hadapter (hsuits _ ⟨_, hnode⟩) hop) hargs
  leaf {place place' node node'} hpair hop hreference := by
    obtain ⟨rfl, rfl, -⟩ := hpair
    refine ⟨hop, hreference, ?_⟩
    cases node' with
    | inputRef index ty => exact lockstep_field ty
    | literal value ty =>
        have hnative := Expr.keepsShape_native.lowerLiteral c.adapter value ty
        exact .pure ⟨hnative.symm, congrArg Expr.ty hnative, _, rfl, rfl⟩
    | dynamicParam index ty => exact .throw rfl
    | localRef => cases hreference
    | call | case => cases hop

theorem suitsHost_of_has (hcalls : ∀ expr ∈ c.program.exprs, ∀ node ∈ expr.nodes, c.SuitsHost node)
    (h : c.program.Has node) : c.SuitsHost node := by
  obtain ⟨root, hroot, hnested⟩ := List.mem_flatMap.mp (Program.mem_of_has h)
  rcases List.mem_append.mp hroot with hexpr | houtput
  · exact hcalls root hexpr node hnested
  · obtain ⟨index, ty, rfl, -⟩ := Program.of_mem_outputs houtput
    rw [Node.nodes_localRef, List.mem_singleton] at hnested
    rw [hnested]
    trivial

/-- **Host operators only rewrite.** Let every call of AND, OR and the six comparisons be of type
BOOLEAN, not null, with two or more operands, and every call of NOT be of that type with one operand,
that lowers to a boolean or its box; the adapter represents the type by `boolean`, as the standard one
does. Then, from any block and with either policy, a pass over the projections with the native table
fails as one with the standard table does, or both succeed. What the native one declares and returns
is then what the standard one does, with the same names and types, rewritten: calls of the runtime
functions of logic and comparison have become host operators, and nothing else has changed. -/
theorem native_operators_only_rewrite (c : PlainContext) (policy : NamingPolicy) (stem : String)
    (block : Block) (hadapter : c.adapter (.notNull .boolean) = .boolean)
    (hcalls : ∀ expr ∈ c.program.exprs, ∀ node ∈ expr.nodes, c.SuitsHost node) :
    (((c.withTable .native).naming policy stem).lowerProjects block).1 =
        (((c.withTable .standard).naming policy stem).lowerProjects block).1.map
          (List.map Expr.native) ∧
      (∀ es after,
        ((c.withTable .standard).naming policy stem).lowerProjects block = (.ok es, after) →
          ∀ e ∈ es, e.native.ty = e.ty) ∧
      Block.Rewritten block (((c.withTable .standard).naming policy stem).lowerProjects block).2
        (((c.withTable .native).naming policy stem).lowerProjects block).2 := by
  have hsimulation := native_simulation c policy stem block hadapter fun _ => suitsHost_of_has hcalls
  have hstart : ∀ shared shared' : List Nat,
      (∀ index, index ∈ shared ↔
        policy = .shared ∧ 1 < c.program.occurrences c.program.projects index) →
      (∀ index, index ∈ shared' ↔
        policy = .shared ∧ 1 < c.program.occurrences c.program.projects index) →
      c.Alongside block ⟨block, [], shared⟩ ⟨block, [], shared'⟩ := by
    intro shared shared' hshared hshared'
    refine ⟨fun index => ?_, Block.rewritten_self block, rfl, fun _ _ hnone => by cases hnone⟩
    rw [hshared, hshared']
  have hrows : ∀ table, (Getter.rows [⟨.var c.row, c.layout⟩]).lowerProjects
      ((c.withTable table).naming policy stem) block =
        ((c.withTable table).naming policy stem).lowerProjects block := fun _ => rfl
  have hprojects :
      ∀ item ∈ LoweringContext.placed .project c.program.projects,
        c.program.nodeAt? item.1 = some item.2 :=
    LoweringContext.nodeAt?_of_mem_projects (c := (c.withTable .standard).naming policy stem)
  rcases hsimulation.lowerProjects (SameNode.forall₂_self hprojects) hstart with
    ⟨es, es', s, t, hstandard, hnative, hes, h⟩ | ⟨e, e', s, t, hstandard, hnative, rfl, -⟩
  · obtain ⟨rfl, htypes, -⟩ := BecomesNative.of_results hes
    rw [hrows] at hstandard hnative
    rw [hstandard, hnative]
    refine ⟨rfl, fun es after hrun => ?_, h.block⟩
    cases hrun
    exact htypes
  · rw [hrows] at hstandard hnative
    have hrolledBack := LoweringContext.lowerProjects_eq_of_error hstandard
    have hrolledBack' := LoweringContext.lowerProjects_eq_of_error hnative
    rw [hstandard, hnative, hrolledBack, hrolledBack']
    refine ⟨rfl, fun es after hrun => ?_, Block.rewritten_self block⟩
    cases hrun

end PlainContext

/-- Projects `NOT($0 = 3)`. -/
def exceptThree : Program where
  inputRowType := [.notNull .integer]
  exprs := [.inputRef 0 (.notNull .integer),
    .literal (.int32 3) (.notNull .integer),
    .call .equals [.localRef 0 (.notNull .integer), .localRef 1 (.notNull .integer)]
      (.notNull .boolean),
    .call .not [.localRef 2 (.notNull .boolean)] (.notNull .boolean)]
  projects := [.localRef 3 (.notNull .boolean)]
  condition := none
  faultless := by decide

def exceptThreeContext : PlainContext where
  program := exceptThree
  adapter := .standard
  row := ⟨"row", .objectArray⟩
  layout := ⟨[.int]⟩
  table := .standard

namespace PlainContext

theorem suitsHost_exceptThree :
    ∀ expr ∈ exceptThree.exprs, ∀ node ∈ expr.nodes, exceptThreeContext.SuitsHost node := by
  have hequality : ∀ e, (exceptThreeContext.withTable .standard).tree
      (.localRef 2 (.notNull .boolean)) = .ok e → e.ty = .boolean ∨ e.ty = .boxed .boolean := by
    rintro e ⟨⟩
    exact Or.inl rfl
  simpa [exceptThree, Node.nodes, Node.nodesOfAll, SuitsHost] using hequality

/-- The negation is rewritten, and with it the comparison. -/
theorem exception_uses_host_operators :
    (((exceptThreeContext.withTable .native).naming .shared "v").lowerProjects .empty).1 =
      .ok [.unary .not (.equal (((Expr.var ⟨"current0", .objectArray⟩).elementAt 0).coerce .int)
        (.constant (.int32 3) .int)) .boolean] := by
  have hstandard :
      (((exceptThreeContext.withTable .standard).naming .shared "v").lowerProjects .empty).1 =
        .ok [.runtimeCall "not" [.runtimeCall "eq"
          [((Expr.var ⟨"current0", .objectArray⟩).elementAt 0).coerce .int,
            .constant (.int32 3) .int] .boolean] .boolean] := by rfl
  obtain ⟨hnative, -⟩ := native_operators_only_rewrite exceptThreeContext .shared "v" .empty rfl
    suitsHost_exceptThree
  rw [hnative, hstandard]
  rfl

end PlainContext

end RowCode
