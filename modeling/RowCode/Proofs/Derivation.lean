import RowCode.Proofs.Atomicity
import RowCode.Proofs.FieldNumbering

/-!
# What lowering did

A run of lowering that succeeds is a derivation: each node it met was either known from its slot, or
was lowered by the rule for its kind and then filled its slot. Properties of successful passes are
inductions over derivations, with one case per rule, and never look at the monad again.
-/

namespace RowCode

namespace Program

def rootOf? (p : Program) : Origin → Option Node
  | .expr index => p.exprs[index]?
  | .project index => p.projects[index]?
  | .condition => p.condition
  | .extra _ => none

/-- The node reached along a path, the innermost position of which comes first. -/
def nodeBelow? (root : Option Node) : List Nat → Option Node
  | [] => root
  | position :: path => (nodeBelow? root path).bind fun node => node.children[position]?

def nodeAt? (p : Program) (place : Place) : Option Node :=
  nodeBelow? (p.rootOf? place.origin) place.path

def Has (p : Program) (node : Node) : Prop := ∃ place, p.nodeAt? place = some node

def slotNode? (p : Program) : SlotKey → Option Node
  | .reference index => p.exprs[index]?
  | .node place => p.nodeAt? place

theorem nodeAt?_child {p : Program} {place : Place} {node : Node} (hnode : p.nodeAt? place = some node)
    (position : Nat) : p.nodeAt? (place.child position) = node.children[position]? := by
  unfold nodeAt? at hnode
  rw [nodeAt?, Place.child, nodeBelow?, hnode, Option.bind_some]

theorem nodeAt?_of_mem_children {p : Program} {place : Place} {node : Node}
    (hnode : p.nodeAt? place = some node) :
    ∀ item ∈ place.childItems 0 node.children, p.nodeAt? item.1 = some item.2 := by
  intro item hitem
  obtain ⟨k, hchild, hplace⟩ := Place.mem_childItems.mp hitem
  rw [hplace, Nat.zero_add, nodeAt?_child hnode, hchild]

end Program

/-! ### Fields and slots -/

namespace RowInput

theorem mem_of_locate? {inputs : List RowInput} {position index : Nat}
    {found : Nat × RowInput × Nat} (hlocate : locate? position inputs index = some found) :
    found.2.1 ∈ inputs := by
  obtain ⟨_, _, hfield⟩ := locate?_eq_some_iff.mp hlocate
  exact hfield.mem

/-- **What reading a field does.** The row that holds the field is bound to a variable, of which the
field is then read. -/
theorem of_readField_ok {inputs : List RowInput} {b b' : Block} {index : Nat} {e : Expr}
    (hread : readField inputs b index = (.ok e, b')) :
    ∃ position input offset, locate? 0 inputs index = some (position, input, offset) ∧
      b' = (b.append (rowName position) input.row).2 ∧
      input.layout.fieldOf (.var (b.append (rowName position) input.row).1) offset = .ok e := by
  unfold readField at hread
  split at hread
  · simp at hread
  · cases hlocate : locate? 0 inputs index with
    | none => simp [hlocate] at hread
    | some found =>
        obtain ⟨position, input, offset⟩ := found
        simp only [hlocate] at hread
        obtain ⟨hfield, rfl⟩ := Prod.mk.inj hread
        exact ⟨position, input, offset, rfl, rfl, hfield⟩

theorem readField_grows {inputs : List RowInput} {b b' : Block} {index : Nat} {e : Expr}
    (hread : readField inputs b index = (.ok e, b')) : b.Grows b' := by
  obtain ⟨position, input, offset, -, rfl, -⟩ := of_readField_ok hread
  exact b.grows_append _ _

end RowInput

namespace LoweringState

def Filled (s : LoweringState) (key : SlotKey) : Prop := key ∈ s.slots.map Prod.fst

theorem mem_of_slot? {s : LoweringState} {key : SlotKey} {slot : Slot}
    (hslot : s.slot? key = some slot) : (key, slot) ∈ s.slots := by
  obtain ⟨before, after, hsplit, -⟩ := List.lookup_eq_some_iff.mp hslot
  rw [hsplit]
  exact List.mem_append_right _ List.mem_cons_self

theorem filled_of_slot? {s : LoweringState} {key : SlotKey} {slot : Slot}
    (hslot : s.slot? key = some slot) : s.Filled key :=
  List.mem_map_of_mem (mem_of_slot? hslot)

theorem keys_touch (s : LoweringState) (key : SlotKey) :
    (s.touch key).slots.map Prod.fst = s.slots.map Prod.fst := by
  rw [touch, List.map_map]
  refine List.map_congr_left fun entry _ => ?_
  obtain ⟨k, slot⟩ := entry
  by_cases hkey : k = key <;> simp [hkey]

theorem filled_touch (s : LoweringState) (key other : SlotKey) :
    (s.touch key).Filled other ↔ s.Filled other := by
  rw [Filled, keys_touch, Filled]

theorem mem_slots_touch {s : LoweringState} {key other : SlotKey} {slot : Slot}
    (hmem : (other, slot) ∈ (s.touch key).slots) :
    ∃ old, (other, old) ∈ s.slots ∧ slot.holder = old.holder ∧ slot.lowered = old.lowered := by
  obtain ⟨⟨k, old⟩, hold, heq⟩ := List.mem_map.mp hmem
  by_cases hkey : k = key
  · simp only [if_pos hkey, Prod.mk.injEq] at heq
    obtain ⟨rfl, rfl⟩ := heq
    exact ⟨old, hold, rfl, rfl⟩
  · simp only [if_neg hkey, Prod.mk.injEq] at heq
    obtain ⟨rfl, rfl⟩ := heq
    exact ⟨old, hold, rfl, rfl⟩

end LoweringState

namespace LoweringContext

variable {c : LoweringContext}

/-- **What filling a slot does.** The slot comes first among the slots; if its node is named, a
variable is declared for what the node became, and otherwise the block stays as it is. -/
theorem fill_cases {key : SlotKey} {lowered value : Expr} {s s' : LoweringState}
    (hfill : c.fill key lowered s = (value, s')) :
    s'.shared = s.shared ∧
      ((c.names s.shared key = true ∧ ∃ suggestion,
        value = .var (s.block.declareFinal suggestion lowered).1 ∧
        s'.block = (s.block.declareFinal suggestion lowered).2 ∧
        s'.slots = (key, ⟨some (s.block.declareFinal suggestion lowered).1, lowered, 1⟩)
          :: s.slots) ∨
      (c.names s.shared key = false ∧ value = lowered ∧ s'.block = s.block ∧
        s'.slots = (key, ⟨none, lowered, 1⟩) :: s.slots)) := by
  unfold fill at hfill
  cases hnames : c.names s.shared key with
  | true =>
      rw [hnames, if_pos rfl] at hfill
      obtain ⟨rfl, rfl⟩ := Prod.mk.inj hfill
      exact ⟨rfl, Or.inl ⟨rfl, _, rfl, rfl, rfl⟩⟩
  | false =>
      rw [hnames, if_neg Bool.false_ne_true] at hfill
      obtain ⟨rfl, rfl⟩ := Prod.mk.inj hfill
      exact ⟨rfl, Or.inr ⟨rfl, rfl, rfl, rfl⟩⟩

theorem fill_slot {key : SlotKey} {lowered value : Expr} {s s' : LoweringState}
    (hfill : c.fill key lowered s = (value, s')) :
    ∃ slot : Slot, s'.slots = (key, slot) :: s.slots ∧ slot.value = value := by
  rcases (fill_cases hfill).2 with ⟨-, _, rfl, -, hslots⟩ | ⟨-, rfl, -, hslots⟩
  · exact ⟨_, hslots, rfl⟩
  · exact ⟨_, hslots, rfl⟩

theorem fill_grows {key : SlotKey} {lowered value : Expr} {s s' : LoweringState}
    (hfill : c.fill key lowered s = (value, s')) : s.block.Grows s'.block := by
  rcases (fill_cases hfill).2 with ⟨-, suggestion, -, hblock, -⟩ | ⟨-, -, hblock, -⟩
  · rw [hblock]
    exact s.block.grows_declareFinal suggestion lowered
  · rw [hblock]
    exact .refl

/-! ### Derivations -/

/-- The nodes of the items, which stand at their places, became the expressions, in order. -/
inductive Lowers (c : LoweringContext) :
    List (Place × Node) → LoweringState → List Expr → LoweringState → Prop where
  | nil (s : LoweringState) : Lowers c [] s [] s
  | cons {place : Place} {node : Node} {rest : List (Place × Node)} {s s₁ s₂ : LoweringState}
      {e : Expr} {es : List Expr} (head : Lowers c [(place, node)] s [e] s₁)
      (tail : Lowers c rest s₁ es s₂) : Lowers c ((place, node) :: rest) s (e :: es) s₂
  | known {place : Place} {node : Node} {s : LoweringState} {slot : Slot}
      (hslot : s.slot? (node.slotKey place) = some slot) :
      Lowers c [(place, node)] s [slot.value] (s.touch (node.slotKey place))
  | field {place : Place} {index : Nat} {ty : LogicalType} {s s' : LoweringState} {block : Block}
      {e value : Expr} (hslot : s.slot? (.node place) = none)
      (hread : RowInput.readField c.inputs s.block index = (.ok e, block))
      (hfill : c.fill (.node place) e { s with block } = (value, s')) :
      Lowers c [(place, .inputRef index ty)] s [value] s'
  | literal {place : Place} {v : Value} {ty : LogicalType} {s s' : LoweringState} {value : Expr}
      (hslot : s.slot? (.node place) = none)
      (hfill : c.fill (.node place) (lowerLiteral c.adapter v ty) s = (value, s')) :
      Lowers c [(place, .literal v ty)] s [value] s'
  | reference {place : Place} {index : Nat} {ty : LogicalType} {body : Node}
      {s s₁ s' : LoweringState} {e value : Expr} (hslot : s.slot? (.reference index) = none)
      (hbody : c.program.exprs[index]? = some body)
      (hlower : Lowers c [(.root (.expr index), body)] s [e] s₁)
      (hfill : c.fill (.reference index) e s₁ = (value, s')) :
      Lowers c [(place, .localRef index ty)] s [value] s'
  | operation {place : Place} {node : Node} {op : Operator} {strategy : Strategy}
      {s s₁ s' : LoweringState} {args : List Expr} {e value : Expr}
      (hslot : s.slot? (.node place) = none) (hop : node.operator? = some op)
      (hstrategy : c.table.strategy? op = some strategy)
      (hchildren : Lowers c (place.childItems 0 node.children) s args s₁)
      (hassemble : strategy.assemble? (c.adapter node.ty) args = some e)
      (hfill : c.fill (.node place) e s₁ = (value, s')) :
      Lowers c [(place, node)] s [value] s'

/-! ### Runs are derivations -/

theorem of_withSlot_ok {key : SlotKey} {lower : Lowering Expr} {s s' : LoweringState} {e : Expr}
    (hrun : c.withSlot key lower s = (.ok e, s')) :
    (∃ slot, s.slot? key = some slot ∧ e = slot.value ∧ s' = s.touch key) ∨
      s.slot? key = none ∧ ∃ lowered s₁, lower s = (.ok lowered, s₁) ∧
        c.fill key lowered s₁ = (e, s') := by
  unfold withSlot at hrun
  cases hslot : s.slot? key with
  | some slot =>
      rw [hslot] at hrun
      obtain ⟨hvalue, rfl⟩ := Prod.mk.inj hrun
      exact Or.inl ⟨slot, rfl, (Except.ok.inj hvalue).symm, rfl⟩
  | none =>
      rw [hslot] at hrun
      rcases hlower : lower s with ⟨result, s₁⟩
      simp only [hlower] at hrun
      cases result with
      | error error => cases (Prod.mk.inj hrun).1
      | ok lowered =>
          obtain ⟨hvalue, rfl⟩ := Prod.mk.inj hrun
          exact Or.inr ⟨rfl, lowered, s₁, rfl, by rw [← Except.ok.inj hvalue]⟩

theorem of_assemble_ok {strategy : Strategy} {node : Node} {args : List Expr} {e : Expr}
    {s s' : LoweringState} (hrun : c.assemble strategy node args s = (.ok e, s')) :
    strategy.assemble? (c.adapter node.ty) args = some e ∧ s' = s := by
  unfold assemble at hrun
  cases hassemble : strategy.assemble? (c.adapter node.ty) args with
  | none => exact absurd (by rwa [hassemble] at hrun) Lowering.throw_ne_ok
  | some lowered =>
      rw [hassemble] at hrun
      obtain ⟨rfl, rfl⟩ := Lowering.of_pure_ok hrun
      exact ⟨rfl, rfl⟩

theorem of_operation_ok {op : Operator} {node : Node} {args : Lowering (List Expr)} {e : Expr}
    {s s' : LoweringState} (hrun : Getter.operation c op node args s = (.ok e, s')) :
    ∃ strategy es, c.table.strategy? op = some strategy ∧ args s = (.ok es, s') ∧
      strategy.assemble? (c.adapter node.ty) es = some e := by
  unfold Getter.operation at hrun
  cases hstrategy : c.table.strategy? op with
  | none => exact absurd (by rwa [hstrategy] at hrun) Lowering.throw_ne_ok
  | some strategy =>
      rw [hstrategy] at hrun
      by_cases hrefused : strategy.refuses node.children.length
      · simp only [hrefused, if_true] at hrun
        exact absurd hrun Lowering.throw_ne_ok
      · simp only [hrefused, Bool.false_eq_true, if_false] at hrun
        obtain ⟨es, s₁, hargs, hrest⟩ := Lowering.of_bind_ok hrun
        obtain ⟨hassemble, rfl⟩ := of_assemble_ok hrest
        exact ⟨strategy, es, rfl, hargs, hassemble⟩

theorem lowers_of_items {items : List (Place × Node)}
    (hitems : ∀ item ∈ items, ∀ s e s', c.lower item.1 item.2 s = (.ok e, s') →
      c.Lowers [item] s [e] s')
    {s s' : LoweringState} {es : List Expr} (hrun : c.lowerEach items s = (.ok es, s')) :
    c.Lowers items s es s' := by
  rw [lowerEach] at hrun
  induction items generalizing s es with
  | nil =>
      obtain ⟨rfl, rfl⟩ := Lowering.of_pure_ok hrun
      exact .nil s'
  | cons item rest ih =>
      obtain ⟨hitem, hrest⟩ := List.forall_mem_cons.mp hitems
      obtain ⟨e, es, s₁, rfl, hfirst, hothers⟩ := Getter.of_lowerEach_cons_ok _ c hrun
      exact .cons (hitem _ _ _ hfirst) (ih hrest hothers)

theorem lowers_of_leaf {place : Place} {node : Node} (hop : node.operator? = none)
    (hreference : node.reference? = none) {s s₁ s' : LoweringState} {lowered value : Expr}
    (hslot : s.slot? (.node place) = none)
    (hleaf : (Getter.rows c.inputs).leaf c node s = (.ok lowered, s₁))
    (hfill : c.fill (.node place) lowered s₁ = (value, s')) : c.Lowers [(place, node)] s [value] s' := by
  cases node with
  | inputRef index ty =>
      rw [Getter.leaf, Getter.read] at hleaf
      rcases hfield : RowInput.readField c.inputs s.block index with ⟨result, block⟩
      simp only [Getter.rows, hfield] at hleaf
      obtain ⟨rfl, rfl⟩ := Prod.mk.inj hleaf
      exact .field hslot hfield hfill
  | literal v ty =>
      obtain ⟨rfl, rfl⟩ := Lowering.of_pure_ok hleaf
      exact .literal hslot hfill
  | dynamicParam index ty => exact absurd hleaf Lowering.throw_ne_ok
  | localRef => cases hreference
  | call | case => cases hop

/-- **Every successful run is a derivation.** -/
theorem lowers_of_lower {place : Place} {node : Node} {s s' : LoweringState} {e : Expr}
    (hrun : c.lower place node s = (.ok e, s')) : c.Lowers [(place, node)] s [e] s' := by
  rw [lower] at hrun
  induction node using c.program.node_induction generalizing place s e s' with
  | dangling index ty hnone =>
      rw [Getter.lower_dangling _ c place ty hnone] at hrun
      exact absurd hrun Lowering.throw_ne_ok
  | reference index ty body hbody ih =>
      rw [Getter.lower_localRef _ c place ty hbody] at hrun
      rcases of_withSlot_ok hrun with ⟨slot, hslot, rfl, rfl⟩ | ⟨hslot, lowered, s₁, hrun, hfill⟩
      · exact .known hslot
      · exact .reference hslot hbody (ih hrun) hfill
  | other node hreference ih =>
      cases hop : node.operator? with
      | some op =>
          rw [Getter.lower_of_operator? _ c place hop] at hrun
          rcases of_withSlot_ok hrun with ⟨slot, hslot, rfl, rfl⟩ | ⟨hslot, lowered, s₁, hrun, hfill⟩
          · rw [← Node.slotKey_of_operator? hop place] at hslot ⊢
            exact .known hslot
          · obtain ⟨strategy, args, hstrategy, hargs, hassemble⟩ := of_operation_ok hrun
            refine .operation hslot hop hstrategy (lowers_of_items ?_ hargs) hassemble hfill
            exact fun item hitem s e s' => ih item.2 (Place.mem_of_mem_childItems hitem)
      | none =>
          rw [Getter.lower_leaf _ c place hop hreference] at hrun
          rcases of_withSlot_ok hrun with ⟨slot, hslot, rfl, rfl⟩ | ⟨hslot, lowered, s₁, hrun, hfill⟩
          · rw [← Node.slotKey_of_reference? hreference] at hslot ⊢
            exact .known hslot
          · exact lowers_of_leaf hop hreference hslot hrun hfill

theorem lowers_of_lowerEach {roots : List (Place × Node)} {s s' : LoweringState} {es : List Expr}
    (hrun : c.lowerEach roots s = (.ok es, s')) : c.Lowers roots s es s' :=
  lowers_of_items (fun _ _ _ _ _ => lowers_of_lower) hrun

theorem of_run_ok {α : Type} {pass : Lowering α} {block after : Block} {a : α}
    (hrun : run block pass = (.ok a, after)) :
    ∃ s, pass (.start block) = (.ok a, s) ∧ s.block = after := by
  unfold run at hrun
  rcases hresult : pass (.start block) with ⟨result, s⟩
  rw [hresult] at hrun
  cases result with
  | error e => cases (Prod.mk.inj hrun).1
  | ok value =>
      obtain ⟨hvalue, hblock⟩ := Prod.mk.inj hrun
      exact ⟨s, by rw [Except.ok.inj hvalue], hblock⟩

/-- The expressions that a pass over the roots treats as shared. -/
def Shares (c : LoweringContext) (roots : List Node) (shared : List Nat) : Prop :=
  match c.policy with
  | .all => shared = []
  | .shared => ∃ usage, Usage.ofRoots? c.program roots = some usage ∧ shared = usage.shared

theorem of_analyze_ok {roots : List Node} {block : Block} {s : LoweringState}
    (hrun : c.analyze roots (.start block) = (.ok (), s)) :
    ∃ shared, c.Shares roots shared ∧ s = ⟨block, [], shared⟩ := by
  unfold analyze at hrun
  unfold Shares
  cases hpolicy : c.policy with
  | all =>
      rw [hpolicy] at hrun
      exact ⟨[], rfl, (Prod.mk.inj hrun).2.symm⟩
  | shared =>
      cases husage : Usage.ofRoots? c.program roots with
      | none =>
          simp only [hpolicy, husage] at hrun
          cases (Prod.mk.inj hrun).1
      | some usage =>
          simp only [hpolicy, husage] at hrun
          exact ⟨usage.shared, ⟨usage, rfl, rfl⟩, (Prod.mk.inj hrun).2.symm⟩

theorem lowers_of_lowerProjects {block after : Block} {es : List Expr}
    (hrun : c.lowerProjects block = (.ok es, after)) :
    ∃ shared s, c.Shares c.program.projects shared ∧
      c.Lowers (placed .project c.program.projects) ⟨block, [], shared⟩ es s ∧ s.block = after := by
  obtain ⟨s, hpass, hblock⟩ := of_run_ok hrun
  obtain ⟨⟨⟩, s₁, hanalyze, hlower⟩ := Lowering.of_bind_ok hpass
  obtain ⟨shared, hshared, rfl⟩ := of_analyze_ok hanalyze
  refine ⟨shared, s, ?_, lowers_of_lowerEach hlower, hblock⟩
  simpa [placed, Function.comp_def] using hshared

theorem lowers_of_lowerCondition {block after : Block} {e : Expr} {condition : Node}
    (hcondition : c.program.condition = some condition)
    (hrun : c.lowerCondition block = (.ok e, after)) :
    ∃ shared s, c.Shares [condition] shared ∧
      c.Lowers [(.root .condition, condition)] ⟨block, [], shared⟩ [e] s ∧ s.block = after := by
  rw [lowerCondition, Getter.lowerCondition, hcondition] at hrun
  obtain ⟨s, hpass, hblock⟩ := of_run_ok hrun
  obtain ⟨⟨⟩, s₁, hanalyze, hlower⟩ := Lowering.of_bind_ok hpass
  obtain ⟨shared, hshared, rfl⟩ := of_analyze_ok hanalyze
  exact ⟨shared, s, hshared, lowers_of_lower hlower, hblock⟩

@[simp]
theorem map_snd_placed (origin : Nat → Origin) (nodes : List Node) :
    (placed origin nodes).map Prod.snd = nodes := by
  simp [placed, Function.comp_def]

theorem nodeAt?_of_mem_projects :
    ∀ item ∈ placed .project c.program.projects, c.program.nodeAt? item.1 = some item.2 := by
  intro item hitem
  obtain ⟨⟨node, index⟩, hmem, rfl⟩ := List.mem_map.mp hitem
  exact (List.mem_zipIdx_iff_getElem?.mp hmem)

theorem Lowers.grows {items : List (Place × Node)} {s s' : LoweringState} {es : List Expr}
    (h : c.Lowers items s es s') : s.block.Grows s'.block := by
  induction h with
  | nil => exact .refl
  | cons _ _ ihhead ihtail => exact ihhead.trans ihtail
  | known => exact .refl
  | field _ hread hfill => exact (RowInput.readField_grows hread).trans (fill_grows hfill)
  | literal _ hfill => exact fill_grows hfill
  | reference _ _ _ hfill ih => exact ih.trans (fill_grows hfill)
  | operation _ _ _ _ _ hfill ih => exact ih.trans (fill_grows hfill)

end LoweringContext

end RowCode
