import RowCode.Proofs.LoweringSteps

/-!
# How often slots are asked for

Usage is found before a list of nodes is lowered, by a sweep of its own that knows nothing of slots and
strategies. Lowering, with any getter, asks for slots along the way. Where it succeeds the two agree:
each reference is asked for as often as usage counted it, and each other node of the bodies that the
roots lead to exactly once. For lowering meets such a node only from the node around it, or from the
reference that fills its slot with the body.
-/

namespace RowCode

namespace LoweringState

/-- Slots of nodes that are no references were asked for once. -/
def Once (s : LoweringState) : Prop := ∀ place, s.Filled (.node place) → s.useCount (.node place) = 1

theorem useCount_of_not_filled {s : LoweringState} {key : SlotKey} (hempty : ¬ s.Filled key) :
    s.useCount key = 0 := by
  rw [useCount, slot?_of_not_filled hempty]

end LoweringState

namespace LoweringContext

variable {c : LoweringContext} {bound : Nat} {place : Place} {node : Node}
  {items rest : List (Place × Node)} {s s' s'' : LoweringState}

/-- What lowering the items did to the slots: it asked for each reference that the items hold, and for
those in the bodies that it went through, once, and found no other node in its slot. -/
structure Tally (c : LoweringContext) (bound : Nat) (items : List (Place × Node))
    (s s' : LoweringState) : Prop where
  passed : Passed bound items s s'
  kept : ∀ key, s.Filled key → s'.Filled key
  references : ∀ index, s'.useCount (.reference index) + (c.bodyReferences s).count index =
    s.useCount (.reference index) + (items.flatMap fun item => item.2.references).count index +
      (c.bodyReferences s').count index
  once : s.Once → s'.Once

theorem tally_nil (hsettled : Settled bound s) : Tally c bound [] s s where
  passed := .of_filled_iff hsettled fun _ => Iff.rfl
  kept _ := id
  references _ := rfl
  once := id

theorem Tally.cons (h : Tally c bound [(place, node)] s s') (h' : Tally c bound rest s' s'') :
    Tally c bound ((place, node) :: rest) s s'' where
  passed := h.passed.append h'.passed
  kept key hfilled := h'.kept key (h.kept key hfilled)
  references index := by
    have hfirst := h.references index
    have hsecond := h'.references index
    rw [List.flatMap_singleton] at hfirst
    rw [List.flatMap_cons, List.count_append]
    omega
  once hs := h'.once (h.once hs)

theorem tally_again {index : Nat} {ty : LogicalType} {slot : Slot}
    (hslot : s.slot? (.reference index) = some slot) (hsettled : Settled bound s) :
    Tally c bound [(place, .localRef index ty)] s (s.touch (.reference index)) where
  passed := .of_filled_iff hsettled (s.filled_touch _)
  kept key := (s.filled_touch _ key).mpr
  references other := by
    rw [LoweringState.useCount_touch hslot, SlotKey.ite_reference_eq, bodyReferences, bodyReferences,
      LoweringState.referenceIndexes_touch, List.flatMap_singleton, Node.references_localRef]
  once hs inner hfilled := by
    rw [LoweringState.useCount_touch hslot, if_neg SlotKey.noConfusion]
    exact hs inner ((s.filled_touch _ _).mp hfilled)

theorem Tally.fill_node (h : Tally c bound (place.childItems 0 node.children) s s')
    (hnode : node.reference? = none) (hahead : Ahead bound [(place, node)] s) {e value : Expr}
    (hfill : c.fill (.node place) e s' = (value, s'')) : Tally c bound [(place, node)] s s'' := by
  obtain ⟨hnew, hpassed⟩ := h.passed.fill_node hahead hfill
  refine ⟨hpassed, fun key hfilled => (filled_fill hfill key).mpr (Or.inr (h.kept key hfilled)), ?_, ?_⟩
  · intro index
    have hbelow := h.references index
    have hbodies : c.bodyReferences s'' = c.bodyReferences s' := by
      rw [bodyReferences, referenceIndexes_fill hfill, bodyReferences]
      rfl
    rw [place.flatMap_childItems, ← Node.references_of_reference?_none hnode] at hbelow
    rw [useCount_fill hfill hnew, hbodies, List.flatMap_singleton, if_neg SlotKey.noConfusion]
    exact hbelow
  · intro hs inner hfilled
    rw [useCount_fill hfill hnew]
    by_cases hself : inner = place
    · rw [hself, LoweringState.useCount_of_not_filled hnew, if_pos rfl]
    · have hother : SlotKey.node inner ≠ .node place := fun hkey => hself (SlotKey.node.inj hkey)
      rw [if_neg hother]
      exact h.once hs inner (((filled_fill hfill _).mp hfilled).resolve_left hother)

theorem Tally.fill_reference {index : Nat} {ty : LogicalType} {body : Node}
    (hbody : c.program.exprs[index]? = some body) (h : Tally c index [(.root (.expr index), body)] s s')
    (hahead : Ahead bound [(place, .localRef index ty)] s) (hunmet : ¬ s.Filled (.reference index))
    {e value : Expr} (hfill : c.fill (.reference index) e s' = (value, s'')) :
    Tally c bound [(place, .localRef index ty)] s s'' := by
  obtain ⟨hnew, hpassed⟩ := Passed.fill_reference hahead h.kept hunmet h.passed hfill
  refine ⟨hpassed, fun key hfilled => (filled_fill hfill key).mpr (Or.inr (h.kept key hfilled)), ?_, ?_⟩
  · intro other
    have hbelow := h.references other
    have hbodies : c.bodyReferences s'' = c.program.referencesOf index ++ c.bodyReferences s' := by
      rw [bodyReferences, referenceIndexes_fill hfill]
      rfl
    rw [List.flatMap_singleton] at hbelow ⊢
    rw [useCount_fill hfill hnew, SlotKey.ite_reference_eq, hbodies, List.count_append,
      Program.referencesOf_eq hbody, Node.references_localRef]
    dsimp only at hbelow
    omega
  · intro hs inner hfilled
    rw [useCount_fill hfill hnew, if_neg SlotKey.noConfusion]
    exact h.once hs inner (((filled_fill hfill _).mp hfilled).resolve_left SlotKey.noConfusion)

end LoweringContext

namespace Getter

open LoweringContext

variable {g : Getter} {c : LoweringContext} {items : List (Place × Node)} {s s' : LoweringState}

/-! ### Runs that succeed -/

/-- Where a node was lowered, what lies below it was, and then no slot was touched. -/
theorem of_inside_ok {place : Place} {node : Node} (hnode : c.program.Resolves node) {e : Expr}
    (hrun : g.inside c place node s = (.ok e, s')) :
    ∃ es s₁, g.lowerEach c (c.program.itemsBelow place node) s = (.ok es, s₁) ∧
      s' = { s₁ with block := s'.block } := by
  cases hop : node.operator? with
  | some op =>
      rw [g.inside_of_operator? c place hop] at hrun
      obtain ⟨-, es, -, hargs, -⟩ := of_operation_ok hrun
      rw [Program.itemsBelow_of_reference?_none (Node.reference?_of_operator? hop)]
      exact ⟨es, s', hargs, rfl⟩
  | none =>
      cases hreference : node.reference? with
      | some index =>
          obtain ⟨ty, body, rfl, hbody⟩ := hnode.of_reference? hreference
          rw [g.inside_localRef c place ty hbody] at hrun
          rw [Program.itemsBelow_localRef hbody]
          exact ⟨[e], s', g.lowerEach_singleton_ok c hrun, rfl⟩
      | none =>
          rw [g.inside_leaf c place hop hreference] at hrun
          rw [Program.itemsBelow_of_reference?_none hreference]
          cases node with
          | inputRef index ty => exact ⟨[], s, rfl, ((Prod.mk.inj hrun).2).symm ▸ rfl⟩
          | literal value ty =>
              obtain ⟨-, rfl⟩ := Lowering.of_pure_ok hrun
              exact ⟨[], s', rfl, rfl⟩
          | dynamicParam index ty => exact absurd hrun Lowering.throw_ne_ok
          | localRef => cases hreference
          | call | case => cases hop

/-! ### Counting -/

theorem tally_lowerEach {bound : Nat} {es : List Expr}
    (hitems : ∀ item ∈ items, ∀ (bound : Nat) (s s' : LoweringState) (e : Expr),
      Ahead bound [item] s → g.lower c item.1 item.2 s = (.ok e, s') → Tally c bound [item] s s')
    (hahead : Ahead bound items s) (hrun : g.lowerEach c items s = (.ok es, s')) :
    Tally c bound items s s' := by
  induction items generalizing s es with
  | nil =>
      obtain ⟨-, rfl⟩ := Lowering.of_pure_ok hrun
      exact tally_nil hahead.settled
  | cons item rest ih =>
      obtain ⟨hitem, hrest⟩ := List.forall_mem_cons.mp hitems
      obtain ⟨e, es', s₁, rfl, hfirst, hrun⟩ := g.of_lowerEach_cons_ok c hrun
      have htally := hitem bound s s₁ e hahead.head hfirst
      exact htally.cons (ih hrest (hahead.tail htally.passed) hrun)

theorem tally_lower {place : Place} {node : Node} (hnode : c.program.Resolves node) :
    ∀ (bound : Nat) (s s' : LoweringState) (e : Expr), Ahead bound [(place, node)] s →
      g.lower c place node s = (.ok e, s') → Tally c bound [(place, node)] s s' := by
  -- The bound falls to the index where lowering goes on in the body of a reference.
  refine c.program.item_induction (P := fun place node =>
    ∀ (bound : Nat) (s s' : LoweringState) (e : Expr), Ahead bound [(place, node)] s →
      g.lower c place node s = (.ok e, s') → Tally c bound [(place, node)] s s') ?_ place node hnode
  intro place node hnode ih bound s s' e hahead hrun
  rw [g.lower_eq_withSlot c place hnode] at hrun
  cases hreference : node.reference? with
  | some index =>
      obtain ⟨ty, body, rfl, hbody⟩ := hnode.of_reference? hreference
      rcases of_withSlot_ok hrun with ⟨slot, hslot, -, rfl⟩ | ⟨hslot, lowered, s₁, hinside, hfill⟩
      · exact tally_again hslot hahead.settled
      · have hunmet := not_filled_of_slot? hslot
        rw [g.inside_localRef c place ty hbody] at hinside
        rw [Program.itemsBelow_localRef hbody] at ih
        have hbelow := ih _ (List.mem_singleton_self _) index s s₁ lowered
          (hahead.body hunmet hbody) hinside
        exact hbelow.fill_reference hbody hahead hunmet hfill
  | none =>
      rw [Node.slotKey_of_reference? hreference] at hrun
      rw [Program.itemsBelow_of_reference?_none hreference] at ih
      rcases of_withSlot_ok hrun with ⟨slot, hslot, -, -⟩ | ⟨-, lowered, s₁, hinside, hfill⟩
      · have huntouched := hahead.untouched _ (List.mem_singleton_self _) place place.holds_self
        exact absurd (LoweringState.filled_of_slot? hslot) huntouched
      · obtain ⟨es, s₂, hchildren, hsame⟩ := of_inside_ok hnode hinside
        rw [Program.itemsBelow_of_reference?_none hreference] at hchildren
        have hbelow : Tally c bound (place.childItems 0 node.children) s s₂ :=
          tally_lowerEach ih (hahead.children hreference) hchildren
        have hmoved : Tally c bound (place.childItems 0 node.children) s { s₂ with block := s₁.block } :=
          ⟨⟨hbelow.passed.settled, hbelow.passed.within⟩, hbelow.kept, hbelow.references, hbelow.once⟩
        rw [hsame] at hfill
        exact hmoved.fill_node hreference hahead hfill

/-! ### Which slots are filled -/

/-- Where a slot is filled, so are those of what its node leads to. -/
def Closed (c : LoweringContext) (s : LoweringState) : Prop :=
  ∀ place node, c.program.Stands [] place node → s.Filled (node.slotKey place) →
    ∀ item ∈ c.program.itemsBelow place node, s.Filled (item.2.slotKey item.1)

theorem itemsBelow_of_slotKey_eq {p : Program} {place place' : Place} {node node' : Node}
    (hstands : p.Stands [] place node) (hstands' : p.Stands [] place' node')
    (hkey : node'.slotKey place' = node.slotKey place) :
    p.itemsBelow place' node' = p.itemsBelow place node := by
  cases hnode : node.reference? with
  | none =>
      rw [Node.slotKey_of_reference? hnode] at hkey
      obtain ⟨hnode', rfl⟩ := Node.of_slotKey_eq_node hkey
      rw [Option.some.inj ((hstands' hnode').symm.trans (hstands hnode))]
  | some index =>
      obtain ⟨ty, rfl⟩ := Node.exists_of_reference? hnode
      obtain ⟨ty', rfl⟩ := Node.of_slotKey_eq_reference hkey
      rfl

theorem filled_of_lowerEach_ok {extras : List Node} {es : List Expr}
    (hitems : ∀ item ∈ items, c.program.Resolves item.2 ∧ c.program.Stands extras item.1 item.2)
    (hrun : g.lowerEach c items s = (.ok es, s')) :
    ∀ item ∈ items, s'.Filled (item.2.slotKey item.1) := by
  induction items generalizing s es with
  | nil => simp
  | cons item rest ih =>
      obtain ⟨hitem, hrest⟩ := List.forall_mem_cons.mp hitems
      obtain ⟨e, es', s₁, rfl, hfirst, hrun⟩ := g.of_lowerEach_cons_ok c hrun
      refine List.forall_mem_cons.mpr ⟨?_, ih hrest hrun⟩
      obtain ⟨slot, hslot, -⟩ := exists_slot_of_lower_ok hitem.1 hfirst
      have hsteps := steps_lowerEach (g := g) hrest s₁
      rw [hrun] at hsteps
      exact hsteps.filled (LoweringState.filled_of_slot? hslot)

theorem closed_lower {place : Place} {node : Node} (hnode : c.program.Resolves node)
    (hstands : c.program.Stands [] place node) :
    (g.lower c place node).Within fun s s' => Closed c s → Closed c s' := by
  refine within_lower (T := c.program.Stands [])
    (fun _ _ hstands _ => hstands.of_mem_itemsBelow) ?_ hnode hstands
  intro place node hstands hnode hitems
  refine within_withSlot (fun _ _ _ h h' hs => h' (h hs)) ?_ ?_ ?_
  · intro s _
    exact within_inside (fun _ hs => hs) (fun _ _ _ h h' hs => h' (h hs)) hnode (fun _ _ _ hs => hs)
      hitems
  · intro s _ hs place' node' hstands' hfilled item hitem
    rw [s.filled_touch] at hfilled ⊢
    exact hs place' node' hstands' hfilled item hitem
  · intro s lowered s' _ hinside hs place' node' hstands' hfilled item hitem
    refine (filled_fill (Prod.eta _).symm _).mpr (Or.inr ?_)
    rcases (filled_fill (Prod.eta _).symm _).mp hfilled with hkey | hold
    · obtain ⟨es, s₁, hbelow, hsame⟩ := of_inside_ok hnode hinside
      have hall : ∀ item ∈ c.program.itemsBelow place node, s₁.Filled (item.2.slotKey item.1) :=
        filled_of_lowerEach_ok (fun item hitem =>
          ⟨hnode.of_mem_itemsBelow hitem, hstands.of_mem_itemsBelow hitem⟩) hbelow
      rw [itemsBelow_of_slotKey_eq hstands hstands' hkey] at hitem
      rw [hsame]
      exact hall item hitem
    · exact hs place' node' hstands' hold item hitem

theorem Closed.filled_nested (h : Closed c s) {place : Place} {node part : Node}
    (hstands : c.program.Stands [] place node) (hfilled : s.Filled (node.slotKey place))
    (hpart : part ∈ node.nodes) : ∃ place', s.Filled (part.slotKey place') := by
  induction node using Node.children_induction generalizing place with
  | step node ih =>
      rcases Node.mem_nodes.mp hpart with rfl | ⟨child, hchild, hnested⟩
      · exact ⟨place, hfilled⟩
      · obtain ⟨k, hk⟩ := List.mem_iff_getElem?.mp hchild
        have hitem : (place.child (0 + k), child) ∈ c.program.itemsBelow place node := by
          rw [Program.itemsBelow_of_reference?_none (Node.reference?_of_mem_children hchild)]
          exact Place.mem_childItems.mpr ⟨k, hk, rfl⟩
        exact ih child hchild (hstands.of_mem_itemsBelow hitem) (h _ _ hstands hfilled _ hitem) hnested

theorem Closed.filled_body (h : Closed c s) {index : Nat} (hmet : s.Filled (.reference index))
    {body : Node} (hbody : c.program.exprs[index]? = some body) :
    s.Filled (body.slotKey (.root (.expr index))) := by
  refine h (.root .condition) (.localRef index body.ty) (fun hnone => by cases hnone) hmet
    (.root (.expr index), body) ?_
  rw [Program.itemsBelow_localRef hbody]
  exact List.mem_singleton_self _

/-- Every place of a body is filled where the reference to it is. -/
theorem Closed.filled_place (h : Closed c s) {index : Nat} (hmet : s.Filled (.reference index))
    {place : Place} {node : Node} (horigin : place.origin = .expr index)
    (hnode : c.program.nodeAt? place = some node) : s.Filled (node.slotKey place) := by
  obtain ⟨origin, path⟩ := place
  obtain rfl : origin = .expr index := horigin
  induction path generalizing node with
  | nil => exact h.filled_body hmet hnode
  | cons position path ih =>
      obtain ⟨parent, hparent, hchild⟩ := Option.bind_eq_some_iff.mp hnode
      have hinner := Node.reference?_of_mem_children (List.mem_of_getElem? hchild)
      refine h ⟨.expr index, path⟩ parent (fun _ => ?_) (ih hparent)
        (⟨.expr index, position :: path⟩, node) ?_
      · rw [Program.nodeWith?_nil]
        exact hparent
      · rw [Program.itemsBelow_of_reference?_none hinner]
        refine Place.mem_childItems.mpr ⟨position, hchild, ?_⟩
        rw [Nat.zero_add]
        rfl

/-- The node is in the body of an expression that the roots lead to, or refers to one. -/
def Visited (p : Program) (roots : List Node) (place : Place) (node : Node) : Prop :=
  (∀ index ∈ node.references, index ∈ p.reached roots) ∧
    (node.reference? = none →
      p.nodeAt? place = some node ∧ ∃ index ∈ p.reached roots, place.origin = .expr index)

theorem Visited.of_mem_itemsBelow {p : Program} {roots : List Node} {place : Place} {node : Node}
    (h : Visited p roots place node) {item : Place × Node} (hitem : item ∈ p.itemsBelow place node) :
    Visited p roots item.1 item.2 := by
  rcases Program.of_mem_itemsBelow hitem with ⟨index, ty, body, rfl, hbody, rfl⟩ | ⟨hnode, hchild⟩
  · have hreached := h.1 index (Node.mem_references_localRef index ty)
    refine ⟨fun other hother => ?_, fun _ => ⟨hbody, index, hreached, rfl⟩⟩
    exact Program.reached_closed hreached (Program.referencesOf_eq hbody ▸ hother)
  · obtain ⟨hplace, index, hindex, horigin⟩ := h.2 hnode
    refine ⟨fun other hother => h.1 other (Program.mem_references_of_mem_childItems hchild hother),
      fun _ => ⟨Program.nodeAt?_of_mem_children hplace item hchild, index, hindex, ?_⟩⟩
    obtain ⟨k, -, heq⟩ := Place.mem_childItems.mp hchild
    rw [heq]
    exact horigin

/-! ### Lists of references -/

section Roots

variable {roots : List (Place × Node)}

/-- The roots are references to expressions of the program. -/
def AllRefer (p : Program) (roots : List (Place × Node)) : Prop :=
  ∀ item ∈ roots, ∃ index ty, item.2 = .localRef index ty ∧ index < p.exprs.length

theorem AllRefer.resolves (h : AllRefer c.program roots) {item : Place × Node} (hitem : item ∈ roots) :
    c.program.Resolves item.2 := by
  obtain ⟨index, ty, hnode, hindex⟩ := h item hitem
  rw [Program.Resolves, hnode, Node.references_localRef]
  exact List.forall_mem_singleton.mpr hindex

theorem AllRefer.stands (h : AllRefer c.program roots) {item : Place × Node} (hitem : item ∈ roots) :
    c.program.Stands [] item.1 item.2 := by
  obtain ⟨index, ty, hnode, -⟩ := h item hitem
  rw [Program.Stands, hnode]
  intro hnone
  cases hnone

/-- Where references stand makes no difference. -/
theorem lowerEach_eq_of_map_snd (h : AllRefer c.program roots)
    (hsame : items.map Prod.snd = roots.map Prod.snd) :
    g.lowerEach c items = g.lowerEach c roots := by
  induction roots generalizing items with
  | nil => rw [List.map_eq_nil_iff.mp hsame]
  | cons root rest ih =>
      obtain ⟨item, items, rfl, hnode, hrest⟩ := List.map_eq_cons_iff.mp hsame
      obtain ⟨hroot, hothers⟩ := List.forall_mem_cons.mp h
      obtain ⟨index, ty, hreference, hindex⟩ := hroot
      obtain ⟨place, node⟩ := item
      obtain ⟨place', node'⟩ := root
      obtain rfl : node' = .localRef index ty := hreference
      obtain rfl : node = .localRef index ty := hnode
      have hbody := List.getElem?_eq_getElem hindex
      rw [lowerEach, lowerEach, ih hothers hrest, g.lower_localRef c place ty hbody,
        g.lower_localRef c place' ty hbody]

theorem ahead_placed (h : AllRefer c.program roots) (block : Block) (shared : List Nat) :
    Ahead c.program.exprs.length (placed .extra (roots.map Prod.snd)) ⟨block, [], shared⟩ where
  untouched _ _ _ _ hfilled := by cases hfilled
  apart := pairwise_apart_placed (fun _ _ => Origin.extra.inj) _
  outside item hitem index _ := by
    obtain ⟨_, -, rfl⟩ := List.mem_map.mp hitem
    exact Origin.noConfusion
  backward item hitem index hindex := by
    obtain ⟨root, hroot, hnode⟩ := List.mem_map.mp (mem_of_mem_placed hitem)
    exact h.resolves hroot index (hnode ▸ hindex)
  settled _ _ _ _ _ hfilled := by cases hfilled

theorem shared_lowerEach (h : AllRefer c.program roots) :
    (g.lowerEach c roots).Within fun s s' => s'.shared = s.shared := by
  have htrans : ∀ s s' s'' : LoweringState, s'.shared = s.shared → s''.shared = s'.shared →
      s''.shared = s.shared := fun _ _ _ h h' => h'.trans h
  refine within_lowerEach (R := fun s s' => s'.shared = s.shared) (fun _ => rfl) htrans
    fun root hroot => ?_
  refine within_lower (T := fun _ _ => True) (fun _ _ _ _ _ => trivial) ?_ (h.resolves hroot) trivial
  intro place node _ hnode hitems
  refine within_withSlot htrans (fun s _ => ?_) (fun _ _ => rfl) ?_
  · exact within_inside (R := fun s s' => s'.shared = s.shared) (fun _ => rfl) htrans hnode
      (fun _ _ _ => rfl) hitems
  · exact fun s lowered s' _ _ => (fill_cases (Prod.eta _).symm).1

section Run

variable {block : Block} {shared : List Nat} {es : List Expr} (h : AllRefer c.program roots)
  (hrun : g.lowerEach c roots ⟨block, [], shared⟩ = (.ok es, s))

include h hrun

theorem tally_roots : Tally c c.program.exprs.length (placed .extra (roots.map Prod.snd))
    ⟨block, [], shared⟩ s := by
  rw [← lowerEach_eq_of_map_snd h (map_snd_placed .extra _)] at hrun
  refine tally_lowerEach (fun item hitem => ?_) (ahead_placed h block shared) hrun
  obtain ⟨root, hroot, hnode⟩ := List.mem_map.mp (mem_of_mem_placed hitem)
  exact tally_lower (hnode ▸ h.resolves hroot)

theorem nodup_keys_roots : (s.slots.map Prod.fst).Nodup := by
  have hsteps : (g.lowerEach c roots).Within (g.Steps c []) :=
    steps_lowerEach fun item hitem => ⟨h.resolves hitem, h.stands hitem⟩
  have hlast := hsteps ⟨block, [], shared⟩
  rw [hrun] at hlast
  exact hlast.nodup_keys List.nodup_nil

theorem closed_roots : Closed c s := by
  have hwithin : (g.lowerEach c roots).Within fun s s' => Closed c s → Closed c s' :=
    within_lowerEach (fun _ hs => hs) (fun _ _ _ h h' hs => h' (h hs)) fun item hitem =>
      closed_lower (h.resolves hitem) (h.stands hitem)
  have hlast := hwithin ⟨block, [], shared⟩
  rw [hrun] at hlast
  exact hlast fun _ _ _ hnone => by cases hnone

theorem visited_roots {key : SlotKey} (hfilled : s.Filled key) : ∃ place node,
    Visited c.program (roots.map Prod.snd) place node ∧ node.slotKey place = key := by
  have hwithin : (g.lowerEach c roots).Within
      (FillsOnly (Visited c.program (roots.map Prod.snd))) := by
    refine within_lowerEach .refl (fun _ _ _ h h' => h.trans h') fun item hitem => ?_
    refine fillsOnly_lower (fun _ _ hvisited _ => hvisited.of_mem_itemsBelow) (h.resolves hitem) ?_
    refine ⟨fun index hindex => ?_, fun hnone => ?_⟩
    · exact Program.mem_reached_of_root (List.mem_map_of_mem hitem) hindex
        (h.resolves hitem index hindex)
    · obtain ⟨index, ty, hnode, -⟩ := h item hitem
      rw [hnode] at hnone
      cases hnone
  have hlast := hwithin ⟨block, [], shared⟩ key
  rw [hrun] at hlast
  exact (hlast hfilled).resolve_left fun hnone => by cases hnone

/-- The references that have slots are those to what the roots lead to. -/
theorem filled_reference_iff (index : Nat) :
    s.Filled (.reference index) ↔ index ∈ c.program.reached (roots.map Prod.snd) := by
  have hclosed := closed_roots h hrun
  constructor
  · intro hfilled
    obtain ⟨place, node, hvisited, hkey⟩ := visited_roots h hrun hfilled
    obtain ⟨ty, rfl⟩ := Node.of_slotKey_eq_reference hkey
    exact hvisited.1 index (Node.mem_references_localRef index ty)
  · refine Program.reached_least (P := fun index => s.Filled (.reference index)) ?_ ?_ index
    · intro root hroot index hindex
      obtain ⟨item, hitem, rfl⟩ := List.mem_map.mp hroot
      have hfilled := filled_of_lowerEach_ok
        (fun item hitem => ⟨h.resolves hitem, h.stands hitem⟩) hrun item hitem
      obtain ⟨index', ty, hnode, -⟩ := h item hitem
      rw [hnode, Node.references_localRef] at hindex
      rw [hnode] at hfilled
      rwa [List.mem_singleton.mp hindex]
    · intro index hfilled other hother
      obtain ⟨node, hnode, -⟩ := List.mem_filterMap.mp hother
      obtain ⟨body, hbody, -⟩ := Program.exists_body_of_mem_nodesOf hnode
      obtain ⟨ty, hpart⟩ := Node.mem_references.mp (Program.referencesOf_eq hbody ▸ hother)
      have hstands : c.program.Stands [] (.root (.expr index)) body := fun _ => hbody
      obtain ⟨place, hnested⟩ :=
        hclosed.filled_nested hstands (hclosed.filled_body hfilled hbody) hpart
      exact hnested

/-- **Each reference is looked up as often as it occurs.** -/
theorem useCount_reference (index : Nat) : s.useCount (.reference index) =
    c.program.occurrences (roots.map Prod.snd) index := by
  have htally := (tally_roots h hrun).references index
  have hperm : s.referenceIndexes.Perm (c.program.reached (roots.map Prod.snd)) := by
    refine (List.perm_ext_iff_of_nodup (LoweringState.nodup_referenceIndexes (nodup_keys_roots h hrun))
      (Program.nodup_reached _ _)).mpr fun index => ?_
    rw [LoweringState.mem_referenceIndexes, filled_reference_iff h hrun]
  have hroots : ((placed .extra (roots.map Prod.snd)).flatMap fun item => item.2.references) =
      (roots.map Prod.snd).flatMap Node.references := by
    conv_rhs => rw [← map_snd_placed .extra (roots.map Prod.snd), List.flatMap_map]
  have hunused : LoweringState.useCount ⟨block, [], shared⟩ (.reference index) = 0 := rfl
  have hstart : c.bodyReferences ⟨block, [], shared⟩ = [] := rfl
  rw [hroots, hunused, hstart, List.count_nil, Nat.add_zero, Nat.zero_add] at htally
  calc
    s.useCount (.reference index) = ((roots.map Prod.snd).flatMap Node.references).count index +
        (c.bodyReferences s).count index := htally
    _ = c.program.occurrences (roots.map Prod.snd) index := by
      rw [Program.occurrences, bodyReferences, (hperm.flatMap_right _).count_eq]

/-- **Each node that is reached is looked up once.** -/
theorem useCount_node {index : Nat} (hindex : index ∈ c.program.reached (roots.map Prod.snd))
    {place : Place} {node : Node} (horigin : place.origin = .expr index)
    (hplace : c.program.nodeAt? place = some node) (hnode : node.reference? = none) :
    s.useCount (.node place) = 1 := by
  have hmet := (filled_reference_iff h hrun index).mpr hindex
  have hfilled := (closed_roots h hrun).filled_place hmet horigin hplace
  rw [Node.slotKey_of_reference? hnode] at hfilled
  exact (tally_roots h hrun).once (fun _ hnone => by cases hnone) place hfilled

theorem useCount_elsewhere {place : Place}
    (helsewhere : ∀ index ∈ c.program.reached (roots.map Prod.snd), place.origin ≠ .expr index) :
    s.useCount (.node place) = 0 := by
  refine LoweringState.useCount_of_not_filled fun hfilled => ?_
  obtain ⟨place', node, hvisited, hkey⟩ := visited_roots h hrun hfilled
  obtain ⟨hnode, rfl⟩ := Node.of_slotKey_eq_node hkey
  obtain ⟨-, index, hindex, horigin⟩ := hvisited.2 hnode
  exact helsewhere index hindex horigin

end Run

/-- **Usage is what happens.** Let the roots be references to expressions of the program, and let
lowering them, with whatever getter, succeed in a state without slots. Then usage is found for them. Each
reference was asked for as often as usage counted it; each other node of a body that the roots lead to
was asked for once, and any other node never. What is named because it is shared is what was asked for
more than once. -/
theorem lookups_match_usage (g : Getter) (c : LoweringContext) (roots : List (Place × Node))
    (block : Block) (es : List Expr) (s : LoweringState) (hroots : AllRefer c.program roots)
    (hrun : g.lowerAll c roots (.start block) = (.ok es, s)) :
    ∃ usage, Usage.ofRoots? c.program (roots.map Prod.snd) = some usage ∧
      (∀ index, s.useCount (.reference index) = usage.count index) ∧
      (∀ index ∈ c.program.reached (roots.map Prod.snd), ∀ place node,
        place.origin = .expr index → c.program.nodeAt? place = some node → node.reference? = none →
          s.useCount (.node place) = 1) ∧
      (∀ place, (∀ index ∈ c.program.reached (roots.map Prod.snd), place.origin ≠ .expr index) →
        s.useCount (.node place) = 0) ∧
      (c.policy = .shared → ∀ index, index ∈ s.shared ↔ 1 < s.useCount (.reference index)) := by
  obtain ⟨⟨⟩, s₁, hanalyze, hlower⟩ := Lowering.of_bind_ok hrun
  obtain ⟨shared, hshares, rfl⟩ := of_analyze_ok hanalyze
  have hresolves : ∀ root ∈ roots.map Prod.snd, ∀ index ∈ root.references,
      index < c.program.exprs.length := by
    intro root hroot
    obtain ⟨item, hitem, rfl⟩ := List.mem_map.mp hroot
    exact hroots.resolves hitem
  obtain ⟨usage, husage, hcount⟩ := Usage.exists_ofRoots? hresolves
  have hreferences : ∀ index, s.useCount (.reference index) = usage.count index := by
    intro index
    rw [useCount_reference hroots hlower, hcount]
  refine ⟨usage, husage, hreferences, ?_, ?_, ?_⟩
  · intro index hindex place node horigin hplace hnode
    exact useCount_node hroots hlower hindex horigin hplace hnode
  · intro place helsewhere
    exact useCount_elsewhere hroots hlower helsewhere
  · intro hpolicy index
    have hshared := shared_lowerEach (g := g) hroots ⟨block, [], shared⟩
    rw [hlower] at hshared
    simp only [LoweringContext.Shares, hpolicy, husage, Option.some.injEq, exists_eq_left'] at hshares
    rw [hshared, hshares, hreferences]
    exact usage.mem_shared index

/-- Projects the square of the sum of a field and one. -/
def squareProgram : Program where
  inputRowType := [.notNull .integer]
  exprs := [.inputRef 0 (.notNull .integer), .literal (.int32 1) (.notNull .integer),
    .call .plus [.localRef 0 (.notNull .integer), .localRef 1 (.notNull .integer)]
      (.notNull .integer),
    .call .multiply [.localRef 2 (.notNull .integer), .localRef 2 (.notNull .integer)]
      (.notNull .integer)]
  projects := [.localRef 3 (.notNull .integer)]
  condition := none
  faultless := by decide

def squareContext : LoweringContext where
  program := squareProgram
  adapter := .standard
  inputs := [⟨.var ⟨"row", .objectArray⟩, ⟨[.int]⟩⟩]
  policy := .shared
  stem := "v"
  table := .standard

theorem square_asks_for_sum_twice :
    ∃ es s, (rows squareContext.inputs).lowerAll squareContext
        (placed .project squareProgram.projects) (.start .empty) = (.ok es, s) ∧
      s.useCount (.reference 2) = 2 ∧ s.useCount (.node (.root (.expr 2))) = 1 ∧
      ∃ usage, Usage.ofRoots? squareProgram squareProgram.projects = some usage ∧
        s.useCount (.reference 2) = usage.count 2 := by
  have hroots : AllRefer squareProgram (placed .project squareProgram.projects) := by
    intro item hitem
    obtain rfl := List.mem_singleton.mp hitem
    exact ⟨3, _, rfl, by decide⟩
  obtain ⟨es, hok⟩ : ∃ es, ((rows squareContext.inputs).lowerAll squareContext
      (placed .project squareProgram.projects) (.start .empty)).1 = .ok es := ⟨_, rfl⟩
  obtain ⟨usage, husage, hreferences, hnodes, -, -⟩ :=
    lookups_match_usage _ squareContext _ .empty es _ hroots (Prod.ext hok rfl)
  refine ⟨es, _, Prod.ext hok rfl, by rfl, ?_, usage, husage, hreferences 2⟩
  exact hnodes 2 (by decide) _ _ rfl rfl rfl

end Roots

end Getter

end RowCode
