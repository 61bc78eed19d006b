import RowCode.Proofs.Reachability

/-!
# Lowering as a walk

A derivation may find any node in its slot. In a pass this happens to references only: a place is
come by from the node around it, a body from the reference that fills its slot, and references lead
backward. So a pass walks through each place at most once, and when it fills a slot, nothing that it
did below the node has filled it already.
-/

namespace RowCode

namespace Place

/-- The other place is this one or lies within it. -/
def Holds (outer inner : Place) : Prop := outer.origin = inner.origin ∧ outer.path <:+ inner.path

theorem holds_self (place : Place) : place.Holds place := ⟨rfl, List.suffix_rfl⟩

variable {place inner : Place} {position position' : Nat} {nodes : List Node}

theorem Holds.of_child (h : (place.child position).Holds inner) : place.Holds inner :=
  ⟨h.1, (List.suffix_cons position place.path).trans h.2⟩

theorem not_holds_child (place : Place) (position : Nat) : ¬ (place.child position).Holds place := by
  intro h
  have hlength := h.2.length_le
  simp only [child, List.length_cons] at hlength
  omega

theorem position_unique (h : (place.child position).Holds inner)
    (h' : (place.child position').Holds inner) : position = position' := by
  have hlength : (position :: place.path).length = (position' :: place.path).length := rfl
  have hsuffix := List.suffix_of_suffix_length_le h.2 h'.2 (Nat.le_of_eq hlength)
  exact List.head_eq_of_cons_eq (hsuffix.eq_of_length hlength)

/-- Two nodes that stand apart: no place lies within both. -/
def Apart (item item' : Place × Node) : Prop := ∀ place, item.1.Holds place → ¬ item'.1.Holds place

theorem pairwise_apart_childItems (place : Place) (position : Nat) (nodes : List Node) :
    (place.childItems position nodes).Pairwise Apart := by
  induction nodes generalizing position with
  | nil => exact .nil
  | cons node rest ih =>
      refine .cons (fun item hitem inner hfirst hother => ?_) (ih _)
      obtain ⟨k, -, hplace⟩ := mem_childItems.mp hitem
      rw [hplace] at hother
      have hsame := position_unique hfirst hother
      omega

end Place

namespace LoweringContext

/-- How a node becomes an expression once its operands have. -/
inductive Makes (c : LoweringContext) :
    Node → LoweringState → List Expr → Expr → LoweringState → Prop where
  | field {index : Nat} {ty : LogicalType} {s : LoweringState} {block : Block} {e : Expr}
      (hread : RowInput.readField c.inputs s.block index = (.ok e, block)) :
      Makes c (.inputRef index ty) s [] e { s with block }
  | literal (v : Value) (ty : LogicalType) (s : LoweringState) :
      Makes c (.literal v ty) s [] (lowerLiteral c.adapter v ty) s
  | operation {node : Node} {op : Operator} {strategy : Strategy} {args : List Expr} {e : Expr}
      (s : LoweringState) (hop : node.operator? = some op)
      (hstrategy : c.table.strategy? op = some strategy)
      (hassemble : strategy.assemble? (c.adapter node.ty) args = some e) : Makes c node s args e s

/-- A derivation that finds only references in their slots. -/
inductive Walks (c : LoweringContext) :
    List (Place × Node) → LoweringState → List Expr → LoweringState → Prop where
  | nil (s : LoweringState) : Walks c [] s [] s
  | cons {place : Place} {node : Node} {rest : List (Place × Node)} {s s₁ s₂ : LoweringState}
      {e : Expr} {es : List Expr} (head : Walks c [(place, node)] s [e] s₁)
      (tail : Walks c rest s₁ es s₂) : Walks c ((place, node) :: rest) s (e :: es) s₂
  | again {place : Place} {index : Nat} {ty : LogicalType} {s : LoweringState} {slot : Slot}
      (hslot : s.slot? (.reference index) = some slot) :
      Walks c [(place, .localRef index ty)] s [slot.value] (s.touch (.reference index))
  | first {place : Place} {index : Nat} {ty : LogicalType} {body : Node} {s s₁ s' : LoweringState}
      {e value : Expr} (hbody : c.program.exprs[index]? = some body)
      (hwalk : Walks c [(.root (.expr index), body)] s [e] s₁)
      (hnew : ¬ s₁.Filled (.reference index))
      (hfill : c.fill (.reference index) e s₁ = (value, s')) :
      Walks c [(place, .localRef index ty)] s [value] s'
  | node {place : Place} {node : Node} {s s₁ s₂ s' : LoweringState} {args : List Expr}
      {e value : Expr} (hwalk : Walks c (place.childItems 0 node.children) s args s₁)
      (hmade : c.Makes node s₁ args e s₂) (hnew : ¬ s₂.Filled (.node place))
      (hfill : c.fill (.node place) e s₂ = (value, s')) : Walks c [(place, node)] s [value] s'

variable {c : LoweringContext} {items : List (Place × Node)} {s s' : LoweringState} {es : List Expr}

theorem Makes.slots_eq {node : Node} {args : List Expr} {e : Expr} (h : c.Makes node s args e s') :
    s'.slots = s.slots := by
  cases h <;> rfl

theorem Makes.shared_eq {node : Node} {args : List Expr} {e : Expr} (h : c.Makes node s args e s') :
    s'.shared = s.shared := by
  cases h <;> rfl

theorem Makes.reference?_eq {node : Node} {args : List Expr} {e : Expr}
    (h : c.Makes node s args e s') : node.reference? = none := by
  cases h with
  | field | literal => rfl
  | operation _ hop => exact Node.reference?_of_operator? hop

theorem not_filled_of_slot? {key : SlotKey} (hslot : s.slot? key = none) : ¬ s.Filled key := by
  intro hfilled
  obtain ⟨⟨_, slot⟩, hmem, rfl⟩ := List.mem_map.mp hfilled
  exact absurd (List.lookup_eq_none_iff.mp hslot _ hmem) (by simp)

theorem filled_fill {key : SlotKey} {lowered value : Expr}
    (hfill : c.fill key lowered s = (value, s')) (other : SlotKey) :
    s'.Filled other ↔ other = key ∨ s.Filled other := by
  obtain ⟨slot, hslots, -⟩ := fill_slot hfill
  rw [LoweringState.Filled, hslots, List.map_cons, List.mem_cons, LoweringState.Filled]

theorem Walks.filled_mono (h : c.Walks items s es s') (key : SlotKey) (hkey : s.Filled key) :
    s'.Filled key := by
  induction h with
  | nil => exact hkey
  | cons _ _ ihhead ihtail => exact ihtail (ihhead hkey)
  | again => exact (LoweringState.filled_touch _ _ _).mpr hkey
  | first _ _ _ hfill ih => exact (filled_fill hfill key).mpr (Or.inr (ih hkey))
  | node _ hmade _ hfill ih =>
      refine (filled_fill hfill key).mpr (Or.inr ?_)
      rw [LoweringState.Filled, hmade.slots_eq]
      exact ih hkey

/-! ### Where a walk goes -/

/-- Below the bound, the body of an expression whose reference was not met is untouched. -/
def Settled (bound : Nat) (s : LoweringState) : Prop :=
  ∀ index < bound, ¬ s.Filled (.reference index) →
    ∀ place : Place, place.origin = .expr index → ¬ s.Filled (.node place)

/-- The slots that a walk through the items may fill. -/
def Territory (bound : Nat) (items : List (Place × Node)) : SlotKey → Prop
  | .reference index => index < bound
  | .node place => (∃ item ∈ items, item.1.Holds place) ∨ ∃ index < bound, place.origin = .expr index

/-- The items lie ahead: they refer to what is below the bound, and lie outside it, apart from each
other and untouched. -/
structure Ahead (bound : Nat) (items : List (Place × Node)) (s : LoweringState) : Prop where
  untouched : ∀ item ∈ items, ∀ place, item.1.Holds place → ¬ s.Filled (.node place)
  apart : items.Pairwise Place.Apart
  outside : ∀ item ∈ items, ∀ index < bound, item.1.origin ≠ .expr index
  backward : ∀ item ∈ items, ∀ index ∈ item.2.references, index < bound
  settled : Settled bound s

variable {bound : Nat} {place : Place} {node : Node}

theorem Ahead.children (h : Ahead bound [(place, node)] s) (hnode : node.reference? = none) :
    Ahead bound (place.childItems 0 node.children) s := by
  have hself : (place, node) ∈ [(place, node)] := List.mem_singleton_self _
  refine ⟨?_, place.pairwise_apart_childItems _ _, ?_, ?_, h.settled⟩
  · intro item hitem inner hinner
    obtain ⟨k, -, hplace⟩ := Place.mem_childItems.mp hitem
    rw [hplace] at hinner
    exact h.untouched _ hself inner hinner.of_child
  · intro item hitem
    obtain ⟨k, -, hplace⟩ := Place.mem_childItems.mp hitem
    rw [hplace]
    exact h.outside _ hself
  · intro item hitem index hindex
    refine h.backward _ hself index ?_
    rw [Node.references_of_reference?_none hnode]
    exact List.mem_flatMap.mpr ⟨item.2, Place.mem_of_mem_childItems hitem, hindex⟩

theorem Ahead.body {index : Nat} {ty : LogicalType} {body : Node}
    (h : Ahead bound [(place, .localRef index ty)] s) (hunmet : ¬ s.Filled (.reference index))
    (hbody : c.program.exprs[index]? = some body) : Ahead index [(.root (.expr index), body)] s := by
  have hindex : index < bound :=
    h.backward _ (List.mem_singleton_self _) index (Node.mem_references_localRef _ _)
  refine ⟨?_, List.pairwise_singleton _ _, ?_, ?_, fun k hk => h.settled k (Nat.lt_trans hk hindex)⟩
  · intro item hitem inner hinner
    rw [List.mem_singleton.mp hitem] at hinner
    exact h.settled index hindex hunmet inner hinner.1.symm
  · intro item hitem k hk hsame
    rw [List.mem_singleton.mp hitem] at hsame
    exact Nat.ne_of_gt hk (Origin.expr.inj hsame)
  · intro item hitem k hk
    rw [List.mem_singleton.mp hitem] at hk
    exact Node.lt_of_mem_references (Program.fault?_of_expr hbody) hk

/-- What a walk leaves behind. -/
structure Passed (bound : Nat) (items : List (Place × Node)) (s s' : LoweringState) : Prop where
  settled : Settled bound s'
  within : ∀ key, s'.Filled key → s.Filled key ∨ Territory bound items key

theorem Territory.mono {items' : List (Place × Node)} {key : SlotKey}
    (h : Territory bound items key) (hitems : items ⊆ items') : Territory bound items' key := by
  cases key with
  | reference index => exact h
  | node inner => exact h.imp_left fun ⟨item, hitem, hholds⟩ => ⟨item, hitems hitem, hholds⟩

theorem Ahead.head {rest : List (Place × Node)} (h : Ahead bound ((place, node) :: rest) s) :
    Ahead bound [(place, node)] s where
  untouched := List.forall_mem_singleton.mpr (h.untouched _ List.mem_cons_self)
  apart := List.pairwise_singleton _ _
  outside := List.forall_mem_singleton.mpr (h.outside _ List.mem_cons_self)
  backward := List.forall_mem_singleton.mpr (h.backward _ List.mem_cons_self)
  settled := h.settled

/-- Past the first item, the others still lie ahead. -/
theorem Ahead.tail {rest : List (Place × Node)} (h : Ahead bound ((place, node) :: rest) s)
    (hpassed : Passed bound [(place, node)] s s') : Ahead bound rest s' where
  untouched item hitem inner hinner hfilled := by
    rcases hpassed.within _ hfilled with hold | ⟨first, hfirst, hholds⟩ | ⟨index, hindex, horigin⟩
    · exact h.untouched item (List.mem_cons_of_mem _ hitem) inner hinner hold
    · rw [List.mem_singleton.mp hfirst] at hholds
      exact (List.pairwise_cons.mp h.apart).1 item hitem inner hholds hinner
    · exact h.outside item (List.mem_cons_of_mem _ hitem) index hindex (hinner.1.trans horigin)
  apart := (List.pairwise_cons.mp h.apart).2
  outside item hitem := h.outside item (List.mem_cons_of_mem _ hitem)
  backward item hitem := h.backward item (List.mem_cons_of_mem _ hitem)
  settled := hpassed.settled

theorem Passed.fill_node (h : Ahead bound [(place, node)] s)
    (hpassed : Passed bound (place.childItems 0 node.children) s s') {e value : Expr}
    {s'' : LoweringState} (hfill : c.fill (.node place) e s' = (value, s'')) :
    ¬ s'.Filled (.node place) ∧ Passed bound [(place, node)] s s'' := by
  have hself : (place, node) ∈ [(place, node)] := List.mem_singleton_self _
  have hoff : ∀ index < bound, place.origin ≠ .expr index := h.outside _ hself
  refine ⟨fun hfilled => ?_, fun index hindex hunmet inner horigin hfilled => ?_,
    fun key hfilled => ?_⟩
  · rcases hpassed.within _ hfilled with hold | ⟨item, hitem, hholds⟩ | ⟨index, hindex, horigin⟩
    · exact h.untouched _ hself place place.holds_self hold
    · obtain ⟨k, -, hplace⟩ := Place.mem_childItems.mp hitem
      rw [hplace] at hholds
      exact place.not_holds_child _ hholds
    · exact hoff index hindex horigin
  · have hunmet' : ¬ s'.Filled (.reference index) := fun hmet =>
      hunmet ((filled_fill hfill _).mpr (Or.inr hmet))
    rcases (filled_fill hfill _).mp hfilled with hsame | hold
    · rw [SlotKey.node.inj hsame] at horigin
      exact hoff index hindex horigin
    · exact hpassed.settled index hindex hunmet' inner horigin hold
  · rcases (filled_fill hfill _).mp hfilled with rfl | hold
    · exact Or.inr (Or.inl ⟨_, hself, place.holds_self⟩)
    · refine (hpassed.within key hold).imp_right fun hwithin => ?_
      cases key with
      | reference index => exact hwithin
      | node inner =>
          refine hwithin.imp_left fun ⟨item, hitem, hholds⟩ => ⟨_, hself, ?_⟩
          obtain ⟨k, -, hplace⟩ := Place.mem_childItems.mp hitem
          rw [hplace] at hholds
          exact hholds.of_child

theorem Passed.fill_reference {index : Nat} {ty : LogicalType} {body : Node}
    (h : Ahead bound [(place, .localRef index ty)] s) (hmono : ∀ key, s.Filled key → s'.Filled key)
    (hunmet : ¬ s.Filled (.reference index))
    (hpassed : Passed index [(.root (.expr index), body)] s s') {e value : Expr}
    {s'' : LoweringState} (hfill : c.fill (.reference index) e s' = (value, s'')) :
    ¬ s'.Filled (.reference index) ∧ Passed bound [(place, .localRef index ty)] s s'' := by
  have hindex : index < bound :=
    h.backward _ (List.mem_singleton_self _) index (Node.mem_references_localRef _ _)
  refine ⟨fun hfilled => ?_, fun k hk hunmet' inner horigin hfilled => ?_, fun key hfilled => ?_⟩
  · exact (hpassed.within _ hfilled).elim hunmet (Nat.lt_irrefl index)
  · have hunmet₁ : ¬ s'.Filled (.reference k) := fun hmet =>
      hunmet' ((filled_fill hfill _).mpr (Or.inr hmet))
    have hne : k ≠ index := by
      rintro rfl
      exact hunmet' ((filled_fill hfill _).mpr (Or.inl rfl))
    have hfilled₁ : s'.Filled (.node inner) :=
      ((filled_fill hfill _).mp hfilled).resolve_left SlotKey.noConfusion
    rcases Nat.lt_or_gt_of_ne hne with hlt | hgt
    · exact hpassed.settled k hlt hunmet₁ inner horigin hfilled₁
    -- Between the index and the bound the walk through the body fills nothing.
    · rcases hpassed.within _ hfilled₁ with hold | ⟨item, hitem, hholds⟩ | ⟨j, hj, horigin'⟩
      · exact h.settled k hk (fun hmet => hunmet₁ (hmono _ hmet)) inner horigin hold
      · rw [List.mem_singleton.mp hitem] at hholds
        exact hne (Origin.expr.inj (horigin.symm.trans hholds.1.symm))
      · obtain rfl := Origin.expr.inj (horigin.symm.trans horigin')
        omega
  · rcases (filled_fill hfill _).mp hfilled with rfl | hold
    · exact Or.inr hindex
    · refine (hpassed.within key hold).imp_right fun hwithin => ?_
      cases key with
      | reference k => exact Nat.lt_trans hwithin hindex
      | node inner =>
          rcases hwithin with ⟨item, hitem, hholds⟩ | ⟨j, hj, horigin⟩
          · rw [List.mem_singleton.mp hitem] at hholds
            exact Or.inr ⟨index, hindex, hholds.1.symm⟩
          · exact Or.inr ⟨j, Nat.lt_trans hj hindex, horigin⟩

theorem Passed.append {rest : List (Place × Node)} {s'' : LoweringState}
    (h : Passed bound [(place, node)] s s') (h' : Passed bound rest s' s'') :
    Passed bound ((place, node) :: rest) s s'' where
  settled := h'.settled
  within key hfilled := by
    rcases h'.within key hfilled with hold | hrest
    · exact (h.within key hold).imp_right fun hfirst => hfirst.mono (by simp)
    · exact Or.inr (hrest.mono (List.subset_cons_self _ _))

theorem Passed.of_filled_iff (h : Settled bound s) (hsame : ∀ key, s'.Filled key ↔ s.Filled key) :
    Passed bound items s s' where
  settled index hindex hunmet inner horigin hfilled :=
    h index hindex (fun hmet => hunmet ((hsame _).mpr hmet)) inner horigin ((hsame _).mp hfilled)
  within key hfilled := Or.inl ((hsame key).mp hfilled)

/-- **Derivations are walks.** Where the items lie ahead, only references are found in their slots. -/
theorem Lowers.walks (h : c.Lowers items s es s') (hahead : Ahead bound items s) :
    c.Walks items s es s' ∧ Passed bound items s s' := by
  -- The bound falls to the index where the derivation goes on in the body of a reference.
  induction h generalizing bound with
  | nil s => exact ⟨.nil s, .of_filled_iff hahead.settled fun _ => Iff.rfl⟩
  | cons head tail ihhead ihtail =>
      obtain ⟨hwalk, hpassed⟩ := ihhead hahead.head
      obtain ⟨hwalk', hpassed'⟩ := ihtail (hahead.tail hpassed)
      exact ⟨.cons hwalk hwalk', hpassed.append hpassed'⟩
  | @known place node s slot hslot =>
      have hfilled := LoweringState.filled_of_slot? hslot
      cases node with
      | localRef index ty =>
          exact ⟨.again hslot, .of_filled_iff hahead.settled (s.filled_touch _)⟩
      | inputRef | literal | call | case | dynamicParam =>
          exact absurd hfilled
            (hahead.untouched _ (List.mem_singleton_self _) place place.holds_self)
  | @field place index ty s s' block e value hslot hread hfill =>
      have hpassed : Passed bound (place.childItems 0 (Node.inputRef index ty).children) s
          { s with block } := .of_filled_iff hahead.settled fun _ => Iff.rfl
      obtain ⟨hnew, hpassed'⟩ := hpassed.fill_node hahead hfill
      exact ⟨.node (.nil s) (.field hread) hnew hfill, hpassed'⟩
  | @literal place v ty s s' value hslot hfill =>
      have hpassed : Passed bound (place.childItems 0 (Node.literal v ty).children) s s :=
        .of_filled_iff hahead.settled fun _ => Iff.rfl
      obtain ⟨hnew, hpassed'⟩ := hpassed.fill_node hahead hfill
      exact ⟨.node (.nil s) (.literal v ty s) hnew hfill, hpassed'⟩
  | @reference place index ty body s s₁ s' e value hslot hbody hlower hfill ih =>
      have hunmet := not_filled_of_slot? hslot
      obtain ⟨hwalk, hpassed⟩ := ih (hahead.body hunmet hbody)
      obtain ⟨hnew, hpassed'⟩ := Passed.fill_reference hahead hwalk.filled_mono hunmet hpassed hfill
      exact ⟨.first hbody hwalk hnew hfill, hpassed'⟩
  | @operation place node op strategy s s₁ s' args e value hslot hop hstrategy _ hassemble hfill ih =>
      obtain ⟨hwalk, hpassed⟩ := ih (hahead.children (Node.reference?_of_operator? hop))
      obtain ⟨hnew, hpassed'⟩ := hpassed.fill_node hahead hfill
      exact ⟨.node hwalk (.operation s₁ hop hstrategy hassemble) hnew hfill, hpassed'⟩

theorem nodup_keys_fill {key : SlotKey} {lowered value : Expr}
    (hfill : c.fill key lowered s = (value, s')) (hnew : ¬ s.Filled key)
    (hkeys : (s.slots.map Prod.fst).Nodup) : (s'.slots.map Prod.fst).Nodup := by
  obtain ⟨slot, hslots, -⟩ := fill_slot hfill
  rw [hslots, List.map_cons]
  exact List.nodup_cons.mpr ⟨hnew, hkeys⟩

/-- **A slot is filled once.** -/
theorem Walks.nodup_keys (h : c.Walks items s es s') (hkeys : (s.slots.map Prod.fst).Nodup) :
    (s'.slots.map Prod.fst).Nodup := by
  induction h with
  | nil => exact hkeys
  | cons _ _ ihhead ihtail => exact ihtail (ihhead hkeys)
  | @again _ _ _ s =>
      rw [s.keys_touch]
      exact hkeys
  | first _ _ hnew hfill ih => exact nodup_keys_fill hfill hnew (ih hkeys)
  | node _ hmade hnew hfill ih => exact nodup_keys_fill hfill hnew (hmade.slots_eq ▸ ih hkeys)

/-! ### Passes as walks -/

theorem pairwise_apart_placed {origin : Nat → Origin} (horigin : Function.Injective origin)
    (nodes : List Node) : (placed origin nodes).Pairwise Place.Apart := by
  have hindexes : (nodes.zipIdx.map Prod.snd).Nodup := by
    rw [List.zipIdx_map_snd]
    exact List.nodup_range'
  refine List.pairwise_map.mpr ((List.pairwise_map.mp hindexes).imp ?_)
  intro item item' hne inner hholds hholds'
  exact hne (horigin (hholds.1.trans hholds'.1.symm))

end LoweringContext

namespace PassRequest

variable {r : PassRequest} {block after : Block} {es : List Expr}

theorem of_mem_items {item : Place × Node} (hitem : item ∈ r.items) :
    item.2 ∈ r.context.program.outputs ∧ (∀ index, item.1.origin ≠ .expr index) ∧ item.1.path = [] := by
  unfold items at hitem
  unfold ProgramParts.outputs
  cases houtputs : r.outputs with
  | projects =>
      rw [houtputs] at hitem
      obtain ⟨⟨node, index⟩, hmem, rfl⟩ := List.mem_map.mp hitem
      exact ⟨List.mem_append_left _ (List.fst_mem_of_mem_zipIdx hmem), fun _ => Origin.noConfusion, rfl⟩
  | condition =>
      rw [houtputs] at hitem
      obtain ⟨node, hnode, rfl⟩ := List.mem_map.mp hitem
      exact ⟨List.mem_append_right _ hnode, fun _ => Origin.noConfusion, rfl⟩

theorem exists_localRef_of_mem_items {item : Place × Node} (hitem : item ∈ r.items) :
    ∃ index ty, item.2 = .localRef index ty ∧ index < r.context.program.exprs.length :=
  Program.of_mem_outputs (of_mem_items hitem).1

theorem pairwise_apart_items (r : PassRequest) : r.items.Pairwise Place.Apart := by
  unfold items
  cases r.outputs with
  | projects => exact LoweringContext.pairwise_apart_placed (fun _ _ => Origin.project.inj) _
  | condition => cases r.context.program.condition <;> simp

theorem ahead_items (r : PassRequest) (block : Block) (shared : List Nat) :
    LoweringContext.Ahead r.context.program.exprs.length r.items ⟨block, [], shared⟩ where
  untouched _ _ _ _ hfilled := by cases hfilled
  apart := r.pairwise_apart_items
  outside item hitem index _ := (of_mem_items hitem).2.1 index
  backward item hitem index hindex := by
    obtain ⟨k, ty, hnode, hlt⟩ := exists_localRef_of_mem_items hitem
    rw [hnode, Node.references_localRef] at hindex
    exact List.mem_singleton.mp hindex ▸ hlt
  settled _ _ _ _ _ hfilled := by cases hfilled

/-- The outputs are references, so all else that a pass comes by is in the bodies that they lead to. -/
theorem mem_reachedNodes_of_reaches {place : Place} {node : Node}
    (h : r.context.program.Reaches r.items place node) (hnode : node.reference? = none) :
    node ∈ r.context.program.reachedNodes (r.items.map Prod.snd) := by
  refine h.mem_reachedNodes.resolve_left ?_
  rintro ⟨item, hitem, hnested⟩
  obtain ⟨index, ty, houtput, -⟩ := exists_localRef_of_mem_items hitem
  rw [houtput, Node.nodes_localRef] at hnested
  rw [List.mem_singleton.mp hnested] at hnode
  cases hnode

/-- What a pass that succeeded did, from the block to the state in which it ended. -/
structure Ends (r : PassRequest) (block : Block) (shared : List Nat) (es : List Expr)
    (s : LoweringState) : Prop where
  shares : r.context.Shares (r.items.map Prod.snd) shared
  lowers : r.context.Lowers r.items ⟨block, [], shared⟩ es s
  walks : r.context.Walks r.items ⟨block, [], shared⟩ es s
  nodup_keys : (s.slots.map Prod.fst).Nodup
  covers : r.context.Covers r.items block shared s
  filled_iff : ∀ key, s.Filled key ↔
    ∃ place node, r.context.program.Reaches r.items place node ∧ node.slotKey place = key

/-- **Passes are walks.** They end with a slot for each node that they come by, and no other. -/
theorem ends_of_lowerAll {s : LoweringState}
    (hrun : r.context.lowerAll r.items (.start block) = (.ok es, s)) :
    ∃ shared, r.Ends block shared es s := by
  obtain ⟨⟨⟩, s₁, hanalyze, hlower⟩ := LoweringContext.Lowering.of_bind_ok hrun
  obtain ⟨shared, hshares, rfl⟩ := LoweringContext.of_analyze_ok hanalyze
  have hlowers := LoweringContext.lowers_of_lowerEach hlower
  obtain ⟨hcovers, -, hfilled⟩ := hlowers.covers nodeAt?_of_mem_items
    (fun item hitem => .root hitem) (LoweringContext.covers_start _ _ block shared)
  obtain ⟨hwalks, -⟩ := hlowers.walks (r.ahead_items block shared)
  refine ⟨shared, hshares, hlowers, hwalks, hwalks.nodup_keys List.nodup_nil, hcovers,
    fun key => ⟨hcovers.reached key, ?_⟩⟩
  rintro ⟨place, node, hreaches, rfl⟩
  exact hcovers.filled_of_reaches nodeAt?_of_mem_items hfilled hreaches

theorem lowerAll_of_run_ok (hlowers : ¬ r.Vacuous) (hrun : r.run block = (.ok es, after)) :
    ∃ s, r.context.lowerAll r.items (.start block) = (.ok es, s) ∧ s.block = after := by
  unfold run at hrun
  unfold Vacuous at hlowers
  unfold items
  cases houtputs : r.outputs with
  | projects =>
      rw [houtputs] at hrun
      exact LoweringContext.of_run_ok hrun
  | condition =>
      rw [houtputs] at hrun hlowers
      rcases hlower : r.context.lowerCondition block with ⟨result, block'⟩
      rw [hlower] at hrun
      obtain ⟨hresult, rfl⟩ := Prod.mk.inj hrun
      cases result with
      | error e => cases hresult
      | ok e =>
          obtain rfl : [e] = es := Except.ok.inj hresult
          cases hcondition : r.context.program.condition with
          | none => exact absurd ⟨rfl, hcondition⟩ hlowers
          | some condition =>
              rw [LoweringContext.lowerCondition, Getter.lowerCondition, hcondition] at hlower
              obtain ⟨s, hpass, hblock⟩ := LoweringContext.of_run_ok hlower
              obtain ⟨⟨⟩, s₁, hanalyze, hnode⟩ := LoweringContext.Lowering.of_bind_ok hpass
              refine ⟨s, ?_, hblock⟩
              change (r.context.analyze [condition] >>= fun _ =>
                r.context.lowerEach [(.root .condition, condition)]) _ = _
              rw [Lowering.bind_apply, hanalyze]
              exact Getter.lowerEach_singleton_ok _ _ hnode

theorem ends_of_run_ok (hlowers : ¬ r.Vacuous) (hrun : r.run block = (.ok es, after)) :
    ∃ shared s, r.Ends block shared es s ∧ s.block = after := by
  obtain ⟨s, hlowerAll, hblock⟩ := lowerAll_of_run_ok hlowers hrun
  obtain ⟨shared, hends⟩ := ends_of_lowerAll hlowerAll
  exact ⟨shared, s, hends, hblock⟩

end PassRequest

end RowCode
