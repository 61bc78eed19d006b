import RowCode.Proofs.Getters
import RowCode.Proofs.Lookups

/-!
# Lowering in steps

Whatever a translation does to its state, also one that fails half way, it does in small steps: it
notes what is shared, it uses a filled slot again, it reads a field, it fills a slot that is empty. That
the slot is still empty when the node has been lowered is a matter of where lowering goes: down into
the node and back to earlier expressions, and so never to the node itself.
-/

namespace RowCode

namespace Program

variable (p : Program)

/-- The nodes that lowering a node leads to next, with their places. -/
def itemsBelow (place : Place) (node : Node) : List (Place × Node) :=
  match node.reference? with
  | some index => (p.exprs[index]?).toList.map fun body => (.root (.expr index), body)
  | none => place.childItems 0 node.children

variable {p} {place : Place} {node : Node} {item : Place × Node}

theorem itemsBelow_localRef {index : Nat} {body : Node} (hbody : p.exprs[index]? = some body)
    (place : Place) (ty : LogicalType) :
    p.itemsBelow place (.localRef index ty) = [(.root (.expr index), body)] := by
  rw [itemsBelow, Node.reference?]
  simp only [hbody, Option.toList_some, List.map_cons, List.map_nil]

theorem itemsBelow_of_reference?_none (hnode : node.reference? = none) (place : Place) :
    p.itemsBelow place node = place.childItems 0 node.children := by
  rw [itemsBelow, hnode]

theorem of_mem_itemsBelow (hitem : item ∈ p.itemsBelow place node) :
    (∃ index ty body, node = .localRef index ty ∧ p.exprs[index]? = some body ∧
        item = (.root (.expr index), body)) ∨
      node.reference? = none ∧ item ∈ place.childItems 0 node.children := by
  unfold itemsBelow at hitem
  cases hnode : node.reference? with
  | none =>
      rw [hnode] at hitem
      exact Or.inr ⟨rfl, hitem⟩
  | some index =>
      rw [hnode] at hitem
      obtain ⟨ty, rfl⟩ := Node.exists_of_reference? hnode
      obtain ⟨body, hbody, rfl⟩ := List.mem_map.mp hitem
      exact Or.inl ⟨index, ty, body, rfl, Option.mem_toList.mp hbody, rfl⟩

theorem mem_references_of_mem_childItems (hitem : item ∈ place.childItems 0 node.children)
    {index : Nat} (hindex : index ∈ item.2.references) : index ∈ node.references :=
  Node.mem_references_of_mem_children (Place.mem_of_mem_childItems hitem) hindex

theorem Resolves.of_reference? (h : p.Resolves node) {index : Nat}
    (hreference : node.reference? = some index) :
    ∃ ty body, node = .localRef index ty ∧ p.exprs[index]? = some body := by
  obtain ⟨ty, rfl⟩ := Node.exists_of_reference? hreference
  exact ⟨ty, _, rfl, List.getElem?_eq_getElem (h index (Node.mem_references_localRef index ty))⟩

theorem Resolves.of_mem_itemsBelow (h : p.Resolves node) (hitem : item ∈ p.itemsBelow place node) :
    p.Resolves item.2 := by
  rcases Program.of_mem_itemsBelow hitem with ⟨index, ty, body, rfl, hbody, rfl⟩ | ⟨-, hchild⟩
  · exact resolves_body hbody
  · exact fun index hindex => h index (mem_references_of_mem_childItems hchild hindex)

/-- What holds of a node at a place whenever it holds of what lies below holds of every node that
refers to the program. -/
theorem item_induction (p : Program) {P : Place → Node → Prop}
    (step : ∀ place node, p.Resolves node →
      (∀ item ∈ p.itemsBelow place node, P item.1 item.2) → P place node)
    (place : Place) (node : Node) (hnode : p.Resolves node) : P place node := by
  have hall : p.Resolves node → ∀ place, P place node := by
    refine p.resolving_induction (P := fun node => p.Resolves node → ∀ place, P place node) ?_ ?_ node
      hnode
    · intro index ty body hbody ih hresolves place
      refine step place _ hresolves fun item hitem => ?_
      rw [itemsBelow_localRef hbody, List.mem_singleton] at hitem
      rw [hitem]
      exact ih (resolves_body hbody) _
    · intro node hreference ih hresolves place
      refine step place node hresolves fun item hitem => ?_
      have hchild := hitem
      rw [itemsBelow_of_reference?_none hreference] at hchild
      exact ih item.2 (Place.mem_of_mem_childItems hchild) (hresolves.of_mem_itemsBelow hitem) _
  exact hall hnode place

/-- The node at a place of the program, or of the nodes given beside it. -/
def nodeWith? (p : Program) (extras : List Node) (place : Place) : Option Node :=
  nodeBelow? (match place.origin with
    | .extra index => extras[index]?
    | origin => p.rootOf? origin) place.path

theorem nodeWith?_nil (p : Program) (place : Place) : p.nodeWith? [] place = p.nodeAt? place := by
  obtain ⟨origin, path⟩ := place
  cases origin <;> rfl

theorem nodeWith?_child {extras : List Node} (hnode : p.nodeWith? extras place = some node)
    (position : Nat) : p.nodeWith? extras (place.child position) = node.children[position]? := by
  unfold nodeWith? at hnode
  rw [nodeWith?, Place.child, nodeBelow?, hnode, Option.bind_some]

theorem references_of_nodeBelow? {root : Option Node} {path : List Nat}
    (hnode : nodeBelow? root path = some node) :
    ∃ outer, root = some outer ∧ node.references ⊆ outer.references := by
  induction path generalizing node with
  | nil => exact ⟨node, hnode, List.Subset.refl _⟩
  | cons position path ih =>
      obtain ⟨parent, hparent, hchild⟩ := Option.bind_eq_some_iff.mp hnode
      obtain ⟨outer, houter, hsubset⟩ := ih hparent
      refine ⟨outer, houter, fun index hindex => hsubset ?_⟩
      exact Node.mem_references_of_mem_children (List.mem_of_getElem? hchild) hindex

/-- References lead backward, also from inside an expression. -/
theorem lt_of_nodeWith? {extras : List Node} (hnode : p.nodeWith? extras place = some node)
    {index outer : Nat} (hindex : index ∈ node.references) (horigin : place.origin = .expr outer) :
    index < outer := by
  obtain ⟨origin, path⟩ := place
  obtain rfl : origin = .expr outer := horigin
  obtain ⟨body, hbody, hsubset⟩ := references_of_nodeBelow? hnode
  exact Node.lt_of_mem_references (fault?_of_expr hbody) (hsubset hindex)

/-- The node is the one at the place. That of a reference makes no difference. -/
def Stands (p : Program) (extras : List Node) (place : Place) (node : Node) : Prop :=
  node.reference? = none → p.nodeWith? extras place = some node

theorem stands_childItems {extras : List Node} (hnode : p.nodeWith? extras place = some node)
    (hitem : item ∈ place.childItems 0 node.children) : p.nodeWith? extras item.1 = some item.2 := by
  obtain ⟨k, hchild, hplace⟩ := Place.mem_childItems.mp hitem
  rw [hplace, Nat.zero_add, nodeWith?_child hnode, hchild]

theorem Stands.of_mem_itemsBelow {extras : List Node} (h : p.Stands extras place node)
    (hitem : item ∈ p.itemsBelow place node) : p.Stands extras item.1 item.2 := by
  intro _
  rcases Program.of_mem_itemsBelow hitem with ⟨index, ty, body, rfl, hbody, rfl⟩ | ⟨hnode, hchild⟩
  · exact hbody
  · exact stands_childItems (h hnode) hchild

/-- The node stands elsewhere than the one with the key, and does not lead to it. -/
def Avoids : SlotKey → Place → Node → Prop
  | .reference outer, _, node => ∀ index ∈ node.references, index < outer
  | .node outer, place, node =>
    (place.origin = outer.origin → ∃ position, (outer.child position).Holds place) ∧
      ∀ index ∈ node.references, ∀ origin, outer.origin = .expr origin → index < origin

theorem Avoids.slotKey_ne {key : SlotKey} (h : Avoids key place node) : node.slotKey place ≠ key := by
  rintro rfl
  cases node with
  | localRef index ty => exact Nat.lt_irrefl index (h index (Node.mem_references_localRef index ty))
  | inputRef | literal | call | case | dynamicParam =>
      obtain ⟨position, hholds⟩ := h.1 rfl
      exact place.not_holds_child position hholds

theorem Avoids.of_mem_itemsBelow {key : SlotKey} (h : Avoids key place node)
    (hitem : item ∈ p.itemsBelow place node) : Avoids key item.1 item.2 := by
  rcases Program.of_mem_itemsBelow hitem with ⟨index, ty, body, rfl, hbody, rfl⟩ | ⟨-, hchild⟩
  · have hself := Node.mem_references_localRef index ty
    have hearlier : ∀ other ∈ body.references, other < index := fun other hother =>
      Node.lt_of_mem_references (fault?_of_expr hbody) hother
    cases key with
    | reference outer => exact fun other hother => Nat.lt_trans (hearlier other hother) (h index hself)
    | node outer =>
        refine ⟨fun horigin => ?_, fun other hother origin houter => ?_⟩
        · exact absurd (h.2 index hself index horigin.symm) (Nat.lt_irrefl index)
        · exact Nat.lt_trans (hearlier other hother) (h.2 index hself origin houter)
  · obtain ⟨k, -, hplace⟩ := Place.mem_childItems.mp hchild
    cases key with
    | reference outer =>
        exact fun index hindex => h index (mem_references_of_mem_childItems hchild hindex)
    | node outer =>
        refine ⟨fun horigin => ?_, fun index hindex =>
          h.2 index (mem_references_of_mem_childItems hchild hindex)⟩
        rw [hplace] at horigin ⊢
        obtain ⟨position, hsame, hsuffix⟩ := h.1 horigin
        exact ⟨position, hsame, hsuffix.trans (List.suffix_cons _ _)⟩

theorem Stands.avoids_below {extras : List Node} (h : p.Stands extras place node)
    (hitem : item ∈ p.itemsBelow place node) : Avoids (node.slotKey place) item.1 item.2 := by
  rcases Program.of_mem_itemsBelow hitem with ⟨index, ty, body, rfl, hbody, rfl⟩ | ⟨hnode, hchild⟩
  · exact fun other hother => Node.lt_of_mem_references (fault?_of_expr hbody) hother
  · obtain ⟨k, -, hplace⟩ := Place.mem_childItems.mp hchild
    rw [Node.slotKey_of_reference? hnode]
    refine ⟨fun _ => ⟨0 + k, ?_⟩, fun index hindex outer horigin => ?_⟩
    · rw [hplace]
      exact Place.holds_self _
    · exact lt_of_nodeWith? (h hnode) (mem_references_of_mem_childItems hchild hindex) horigin

end Program

namespace Getter

variable (g : Getter) (c : LoweringContext)

/-- How a node is lowered where no slot holds it yet. -/
def inside (place : Place) (node : Node) : Lowering Expr :=
  match node.operator?, node.reference? with
  | some op, _ => operation c op node (g.lowerEach c (place.childItems 0 node.children))
  | none, some index =>
    match c.program.exprs[index]? with
    | some body => g.lower c (.root (.expr index)) body
    | none => throw (LoweringContext.unsupported node)
  | none, none => g.leaf c node

theorem inside_of_operator? (place : Place) {node : Node} {op : Operator}
    (hop : node.operator? = some op) : g.inside c place node =
      operation c op node (g.lowerEach c (place.childItems 0 node.children)) := by
  rw [inside, hop]

theorem inside_localRef (place : Place) {index : Nat} {body : Node} (ty : LogicalType)
    (hbody : c.program.exprs[index]? = some body) :
    g.inside c place (.localRef index ty) = g.lower c (.root (.expr index)) body := by
  rw [inside]
  simp only [Node.operator?, Node.reference?, hbody]

theorem inside_leaf (place : Place) {node : Node} (hop : node.operator? = none)
    (hreference : node.reference? = none) : g.inside c place node = g.leaf c node := by
  rw [inside, hop, hreference]

/-- **Every node goes through its slot.** -/
theorem lower_eq_withSlot (place : Place) {node : Node} (hnode : c.program.Resolves node) :
    g.lower c place node = c.withSlot (node.slotKey place) (g.inside c place node) := by
  cases hop : node.operator? with
  | some op =>
      rw [g.lower_of_operator? c place hop, Node.slotKey_of_operator? hop,
        g.inside_of_operator? c place hop]
  | none =>
      cases hreference : node.reference? with
      | none =>
          rw [g.lower_leaf c place hop hreference, Node.slotKey_of_reference? hreference,
            g.inside_leaf c place hop hreference]
      | some index =>
          obtain ⟨ty, body, rfl, hbody⟩ := hnode.of_reference? hreference
          rw [g.lower_localRef c place ty hbody, g.inside_localRef c place ty hbody, Node.slotKey]

section Within

variable {g c} {R : LoweringState → LoweringState → Prop} (hrefl : ∀ s, R s s)
  (htrans : ∀ s s' s'', R s s' → R s' s'' → R s s'')

include hrefl htrans

theorem within_inside {place : Place} {node : Node} (hnode : c.program.Resolves node)
    {s : LoweringState} (hread : ∀ index ty, node = .inputRef index ty → R s (g.read index s).2)
    (hbelow : ∀ item ∈ c.program.itemsBelow place node, (g.lower c item.1 item.2).Within R) :
    R s (g.inside c place node s).2 := by
  cases hop : node.operator? with
  | some op =>
      rw [Program.itemsBelow_of_reference?_none (Node.reference?_of_operator? hop)] at hbelow
      rw [g.inside_of_operator? c place hop]
      exact within_operation hrefl htrans op node (within_lowerEach hrefl htrans hbelow) s
  | none =>
      cases hreference : node.reference? with
      | some index =>
          obtain ⟨ty, body, rfl, hbody⟩ := hnode.of_reference? hreference
          rw [Program.itemsBelow_localRef hbody] at hbelow
          rw [g.inside_localRef c place ty hbody]
          exact hbelow _ (List.mem_singleton_self _) s
      | none =>
          rw [g.inside_leaf c place hop hreference]
          cases node with
          | inputRef index ty => exact hread index ty rfl
          | literal | localRef | call | case | dynamicParam => exact hrefl s

end Within

end Getter

namespace LoweringContext

theorem within_withSlot {c : LoweringContext} {R : LoweringState → LoweringState → Prop}
    (htrans : ∀ s s' s'', R s s' → R s' s'' → R s s'') {key : SlotKey} {inner : Lowering Expr}
    (hinner : ∀ s, ¬ s.Filled key → R s (inner s).2) (htouch : ∀ s, s.Filled key → R s (s.touch key))
    (hfill : ∀ s lowered s', ¬ s.Filled key → inner s = (.ok lowered, s') →
      R s' (c.fill key lowered s').2) : (c.withSlot key inner).Within R := by
  intro s
  unfold withSlot
  cases hslot : s.slot? key with
  | some slot => exact htouch s (LoweringState.filled_of_slot? hslot)
  | none =>
      have hempty := not_filled_of_slot? hslot
      have hfirst := hinner s hempty
      rcases hresult : inner s with ⟨result, s'⟩
      rw [hresult] at hfirst
      cases result with
      | error e => simpa only [hresult] using hfirst
      | ok lowered =>
          simpa only [hresult] using htrans _ _ _ hfirst (hfill s lowered s' hempty hresult)

end LoweringContext

namespace Getter

variable {g : Getter} {c : LoweringContext} {T : Place → Node → Prop}

/-- A relation contains what is done with a node if it contains what is done with the slot of each
node that lowering leads to, once it contains what is done below that one. -/
theorem within_lower {R : LoweringState → LoweringState → Prop}
    (hbelow : ∀ place node, T place node → ∀ item ∈ c.program.itemsBelow place node,
      T item.1 item.2)
    (hslot : ∀ place node, T place node → c.program.Resolves node →
      (∀ item ∈ c.program.itemsBelow place node, (g.lower c item.1 item.2).Within R) →
      (c.withSlot (node.slotKey place) (g.inside c place node)).Within R)
    {place : Place} {node : Node} (hnode : c.program.Resolves node) (hT : T place node) :
    (g.lower c place node).Within R := by
  have hall : T place node → (g.lower c place node).Within R := by
    refine c.program.item_induction (P := fun place node => T place node →
      (g.lower c place node).Within R) ?_ place node hnode
    intro place node hresolves ih hT
    rw [g.lower_eq_withSlot c place hresolves]
    exact hslot place node hT hresolves fun item hitem => ih item hitem (hbelow place node hT item hitem)
  exact hall hT

section Slots

variable {place : Place} {node : Node} {s s' : LoweringState} {e : Expr}
  (hnode : c.program.Resolves node)

include hnode

theorem exists_slot_of_lower_ok (hrun : g.lower c place node s = (.ok e, s')) :
    ∃ slot, s'.slot? (node.slotKey place) = some slot ∧ slot.value = e := by
  rw [g.lower_eq_withSlot c place hnode] at hrun
  rcases LoweringContext.of_withSlot_ok hrun with ⟨slot, hslot, rfl, rfl⟩ | ⟨-, lowered, s₁, -, hfill⟩
  · refine ⟨_, by rw [LoweringState.slot?_touch, hslot, Option.map_some], ?_⟩
    simp [Slot.value]
  · obtain ⟨slot, hslots, hvalue⟩ := LoweringContext.fill_slot hfill
    exact ⟨slot, by rw [LoweringState.slot?_of_slots_eq hslots, if_pos rfl], hvalue⟩

theorem lower_of_slot? {slot : Slot} (hslot : s.slot? (node.slotKey place) = some slot) :
    g.lower c place node s = (.ok slot.value, s.touch (node.slotKey place)) := by
  rw [g.lower_eq_withSlot c place hnode, LoweringContext.withSlot, hslot]

end Slots

/-- The slots filled meanwhile are those of nodes of a kind. -/
def FillsOnly (T : Place → Node → Prop) (s s' : LoweringState) : Prop :=
  ∀ key, s'.Filled key → s.Filled key ∨ ∃ place node, T place node ∧ node.slotKey place = key

theorem FillsOnly.refl (s : LoweringState) : FillsOnly T s s := fun _ => Or.inl

theorem FillsOnly.trans {s s' s'' : LoweringState} (h : FillsOnly T s s') (h' : FillsOnly T s' s'') :
    FillsOnly T s s'' := fun key hfilled => (h' key hfilled).elim (h key) Or.inr

theorem fillsOnly_inside {place : Place} {node : Node} (hnode : c.program.Resolves node)
    (s : LoweringState)
    (hbelow : ∀ item ∈ c.program.itemsBelow place node,
      (g.lower c item.1 item.2).Within (FillsOnly T)) :
    FillsOnly T s (g.inside c place node s).2 :=
  within_inside .refl (fun _ _ _ h h' => h.trans h') hnode (fun _ _ _ _ => Or.inl) hbelow

/-- **Where lowering goes.** Lowering a node fills slots of nodes that it leads to only. -/
theorem fillsOnly_lower (hbelow : ∀ place node, T place node →
      ∀ item ∈ c.program.itemsBelow place node, T item.1 item.2)
    {place : Place} {node : Node} (hnode : c.program.Resolves node) (hT : T place node) :
    (g.lower c place node).Within (FillsOnly T) := by
  refine within_lower hbelow ?_ hnode hT
  intro place node hT hnode hitems
  refine LoweringContext.within_withSlot (fun _ _ _ h h' => h.trans h') ?_ ?_ ?_
  · exact fun s _ => fillsOnly_inside hnode s hitems
  · exact fun s _ key hfilled => Or.inl ((s.filled_touch _ key).mp hfilled)
  · intro s lowered s' _ _ key hfilled
    rcases (LoweringContext.filled_fill (Prod.eta _).symm key).mp hfilled with rfl | hold
    · exact Or.inr ⟨place, node, hT, rfl⟩
    · exact Or.inl hold

/-- **A node does not lead to itself.** -/
theorem not_filled_inside (g : Getter) {extras : List Node} {place : Place} {node : Node}
    (hnode : c.program.Resolves node) (hstands : c.program.Stands extras place node)
    {s : LoweringState} (hnew : ¬ s.Filled (node.slotKey place)) :
    ¬ (g.inside c place node s).2.Filled (node.slotKey place) := by
  have hinside : FillsOnly (Program.Avoids (node.slotKey place)) s (g.inside c place node s).2 := by
    refine fillsOnly_inside hnode s fun item hitem => ?_
    exact fillsOnly_lower (fun _ _ havoids _ => havoids.of_mem_itemsBelow)
      (hnode.of_mem_itemsBelow hitem) (hstands.avoids_below hitem)
  intro hfilled
  rcases hinside _ hfilled with hold | ⟨place', node', havoids, hkey⟩
  · exact hnew hold
  · exact havoids.slotKey_ne hkey

/-! ### Steps -/

/-- What a translation does to its state at a time. A field is read for a node that has no slot yet. -/
inductive Step (g : Getter) (c : LoweringContext) (extras : List Node) :
    LoweringState → LoweringState → Prop where
  | share (indexes : List Nat) (s : LoweringState) : Step g c extras s (s.share indexes)
  | reuse {key : SlotKey} {s : LoweringState} (hfilled : s.Filled key) :
      Step g c extras s (s.touch key)
  | read {place : Place} {index : Nat} {ty : LogicalType} {s : LoweringState}
      (hnode : c.program.nodeWith? extras place = some (.inputRef index ty))
      (hempty : ¬ s.Filled (.node place)) : Step g c extras s (g.read index s).2
  | fill {key : SlotKey} {s : LoweringState} (hempty : ¬ s.Filled key) (lowered : Expr) :
      Step g c extras s (c.fill key lowered s).2

/-- The states in which a translation may be, from one on. -/
def Steps (g : Getter) (c : LoweringContext) (extras : List Node) :
    LoweringState → LoweringState → Prop :=
  Relation.ReflTransGen (g.Step c extras)

variable {extras : List Node} {s s' : LoweringState}

theorem Step.filled (hstep : g.Step c extras s s') {key : SlotKey} (hfilled : s.Filled key) :
    s'.Filled key := by
  cases hstep with
  | share | read => exact hfilled
  | reuse => exact (s.filled_touch _ key).mpr hfilled
  | fill => exact (LoweringContext.filled_fill (Prod.eta _).symm key).mpr (Or.inr hfilled)

theorem Steps.filled (hsteps : g.Steps c extras s s') {key : SlotKey} (hfilled : s.Filled key) :
    s'.Filled key := by
  induction hsteps with
  | refl => exact hfilled
  | tail _ hstep ih => exact hstep.filled ih

theorem Step.nodup_keys (hstep : g.Step c extras s s') (hkeys : (s.slots.map Prod.fst).Nodup) :
    (s'.slots.map Prod.fst).Nodup := by
  cases hstep with
  | share | read => exact hkeys
  | reuse =>
      rw [s.keys_touch]
      exact hkeys
  | fill hempty => exact LoweringContext.nodup_keys_fill (Prod.eta _).symm hempty hkeys

/-- **A slot is filled once.** -/
theorem Steps.nodup_keys (hsteps : g.Steps c extras s s') (hkeys : (s.slots.map Prod.fst).Nodup) :
    (s'.slots.map Prod.fst).Nodup := by
  induction hsteps with
  | refl => exact hkeys
  | tail _ hstep ih => exact hstep.nodup_keys ih

theorem steps_lower {place : Place} {node : Node} (hnode : c.program.Resolves node)
    (hstands : c.program.Stands extras place node) :
    (g.lower c place node).Within (g.Steps c extras) := by
  refine within_lower (T := c.program.Stands extras)
    (fun _ _ hstands _ => hstands.of_mem_itemsBelow) ?_ hnode hstands
  intro place node hstands hnode hitems
  refine LoweringContext.within_withSlot (fun _ _ _ => .trans) ?_ ?_ ?_
  · intro s hempty
    refine within_inside (fun _ => .refl) (fun _ _ _ => .trans) hnode ?_ hitems
    rintro index ty rfl
    exact .single (.read (hstands rfl) hempty)
  · exact fun s hfilled => .single (.reuse hfilled)
  · intro s lowered s' hempty hrun
    have hstill := not_filled_inside g hnode hstands hempty
    rw [hrun] at hstill
    exact .single (.fill hstill lowered)

theorem steps_lowerEach {items : List (Place × Node)}
    (hitems : ∀ item ∈ items, c.program.Resolves item.2 ∧ c.program.Stands extras item.1 item.2) :
    (g.lowerEach c items).Within (g.Steps c extras) :=
  within_lowerEach (fun _ => .refl) (fun _ _ _ => .trans) fun item hitem =>
    steps_lower (hitems item hitem).1 (hitems item hitem).2

theorem steps_analyze (roots : List Node) : (c.analyze roots).Within (g.Steps c extras) := by
  intro s
  unfold LoweringContext.analyze
  split
  · exact .refl
  · split
    · exact .single (.share _ s)
    · exact .refl

theorem steps_lowerAll {roots : List (Place × Node)}
    (hroots : ∀ item ∈ roots, c.program.Resolves item.2 ∧ c.program.Stands extras item.1 item.2) :
    (g.lowerAll c roots).Within (g.Steps c extras) :=
  (steps_analyze _).bind (fun _ _ _ => .trans) fun _ => steps_lowerEach hroots

end Getter

end RowCode
