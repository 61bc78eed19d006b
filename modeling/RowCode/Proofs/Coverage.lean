import RowCode.Proofs.Passes

/-!
# What a pass comes by

From a node a pass goes on to the nodes nested in it, and from a reference to what it refers to. The
nodes that can be reached in this way from the roots of a pass are the ones that get slots, no more
and no fewer. Those that are named are held by variables, and apart from the rows of the input
nothing else is declared.
-/

namespace RowCode

/-- The nodes to which lowering a node leads next, with their places. -/
inductive Program.Below (p : Program) (place : Place) : Node → Place → Node → Prop where
  | child {node child : Node} {place' : Place}
      (hmem : (place', child) ∈ place.childItems 0 node.children) : Below p place node place' child
  | body {index : Nat} {ty : LogicalType} {body : Node} (hbody : p.exprs[index]? = some body) :
      Below p place (.localRef index ty) (.root (.expr index)) body

inductive Program.Reaches (p : Program) (roots : List (Place × Node)) : Place → Node → Prop where
  | root {place : Place} {node : Node} (hmem : (place, node) ∈ roots) : Reaches p roots place node
  | step {place place' : Place} {node node' : Node} (h : Reaches p roots place node)
      (hbelow : p.Below place node place' node') : Reaches p roots place' node'

theorem Program.Reaches.nodeAt? {p : Program} {roots : List (Place × Node)} {place : Place}
    {node : Node} (h : p.Reaches roots place node)
    (hroots : ∀ item ∈ roots, p.nodeAt? item.1 = some item.2) : p.nodeAt? place = some node := by
  induction h with
  | root hmem => exact hroots _ hmem
  | step _ hbelow ih =>
      cases hbelow with
      | child hmem => exact nodeAt?_of_mem_children ih _ hmem
      | body hbody => exact hbody

theorem Program.Below.of_slotKey_eq {p : Program} {place place₁ place' : Place}
    {node node₁ node' : Node} (h : p.Below place₁ node₁ place' node')
    (hnode₁ : p.nodeAt? place₁ = some node₁) (hnode : p.nodeAt? place = some node)
    (hkey : node₁.slotKey place₁ = node.slotKey place) : p.Below place node place' node' := by
  cases h with
  | child hmem =>
      have hnested : node₁.slotKey place₁ = .node place₁ := by
        cases node₁ <;> first | rfl | cases hmem
      rw [hnested] at hkey
      cases node with
      | localRef index ty => cases hkey
      | inputRef | literal | call | case | dynamicParam =>
          obtain rfl := SlotKey.node.inj hkey
          obtain rfl := Option.some.inj (hnode₁.symm.trans hnode)
          exact .child hmem
  | body hbody =>
      cases node with
      | localRef index ty =>
          obtain rfl := SlotKey.reference.inj hkey
          exact .body hbody
      | inputRef | literal | call | case | dynamicParam => cases hkey

namespace LoweringContext

variable {c : LoweringContext} {roots items : List (Place × Node)} {start : Block}
  {shared : List Nat} {s s' : LoweringState}

/-- What the slots and the declarations say about each other in the middle of a pass. -/
structure Covers (c : LoweringContext) (roots : List (Place × Node)) (start : Block)
    (shared : List Nat) (s : LoweringState) : Prop where
  sharing : s.shared = shared
  reached : ∀ key, s.Filled key →
    ∃ place node, c.program.Reaches roots place node ∧ node.slotKey place = key
  closed : ∀ place node place' node', c.program.nodeAt? place = some node →
    s.Filled (node.slotKey place) → c.program.Below place node place' node' →
    s.Filled (node'.slotKey place')
  held : ∀ key slot, (key, slot) ∈ s.slots → c.names shared key = true →
    ∃ d ∈ s.block.statements, slot.holder = some d.target
  declared : ∀ d ∈ s.block.statements, d ∈ start.statements ∨
    (∃ input ∈ c.inputs, d.init = input.row) ∨
      ∃ key slot, (key, slot) ∈ s.slots ∧ slot.holder = some d.target ∧ c.names shared key = true

theorem covers_start (c : LoweringContext) (roots : List (Place × Node)) (start : Block)
    (shared : List Nat) : c.Covers roots start shared ⟨start, [], shared⟩ where
  sharing := rfl
  reached _ hfilled := by cases hfilled
  closed _ _ _ _ _ hfilled := by cases hfilled
  held _ _ hmem := by cases hmem
  declared d hd := Or.inl hd

theorem Covers.touch (h : c.Covers roots start shared s) (key : SlotKey) :
    c.Covers roots start shared (s.touch key) where
  sharing := h.sharing
  reached other hfilled := h.reached other ((s.filled_touch key other).mp hfilled)
  closed place node place' node' hnode hfilled hbelow :=
    (s.filled_touch key _).mpr
      (h.closed place node place' node' hnode ((s.filled_touch key _).mp hfilled) hbelow)
  held other slot hmem hnames := by
    obtain ⟨old, hold, hholder, -⟩ := LoweringState.mem_slots_touch hmem
    rw [hholder]
    exact h.held other old hold hnames
  declared d hd := by
    rcases h.declared d hd with hstart | hrow | ⟨other, slot, hmem, hholder, hnames⟩
    · exact Or.inl hstart
    · exact Or.inr (Or.inl hrow)
    · refine Or.inr (Or.inr ?_)
      have htouched := List.mem_map_of_mem (f := fun (entry : SlotKey × Slot) =>
        if entry.1 = key then (entry.1, { entry.2 with count := entry.2.count + 1 })
        else (entry.1, entry.2)) hmem
      by_cases hkey : other = key
      · rw [if_pos hkey] at htouched
        exact ⟨other, _, htouched, hholder, hnames⟩
      · rw [if_neg hkey] at htouched
        exact ⟨other, _, htouched, hholder, hnames⟩

theorem Covers.readField (h : c.Covers roots start shared s) {index : Nat} {e : Expr} {block : Block}
    (hread : RowInput.readField c.inputs s.block index = (.ok e, block)) :
    c.Covers roots start shared { s with block } := by
  obtain ⟨position, input, offset, hlocate, rfl, -⟩ := RowInput.of_readField_ok hread
  obtain ⟨added, hadded⟩ := (s.block.grows_append (RowInput.rowName position) input.row).statements_grow
  refine ⟨h.sharing, h.reached, h.closed, ?_, ?_⟩
  · intro key slot hmem hnames
    obtain ⟨d, hd, hholder⟩ := h.held key slot hmem hnames
    exact ⟨d, hadded ▸ List.mem_append_left _ hd, hholder⟩
  · intro d hd
    unfold Block.append at hd
    cases hholder : s.block.holder? input.row with
    | some v =>
        rw [hholder] at hd
        exact h.declared d hd
    | none =>
        rw [hholder] at hd
        rcases Block.mem_statements_declareFinal hd with hold | rfl
        · exact h.declared d hold
        · exact Or.inr (Or.inl ⟨input, RowInput.mem_of_locate? hlocate, rfl⟩)

theorem Covers.fill (h : c.Covers roots start shared s)
    (hroots : ∀ item ∈ roots, c.program.nodeAt? item.1 = some item.2) {place : Place} {node : Node}
    (hreaches : c.program.Reaches roots place node)
    (hbelow : ∀ place' node', c.program.Below place node place' node' →
      s.Filled (node'.slotKey place'))
    {lowered value : Expr} (hfill : c.fill (node.slotKey place) lowered s = (value, s')) :
    c.Covers roots start shared s' ∧ (∀ key, s.Filled key → s'.Filled key) ∧
      ∀ item ∈ [(place, node)], s'.Filled (item.2.slotKey item.1) := by
  obtain ⟨hsharing, hcases⟩ := fill_cases hfill
  obtain ⟨slot, hslots, -⟩ := fill_slot hfill
  obtain ⟨added, hadded⟩ := (fill_grows hfill).statements_grow
  have hfilled : ∀ key, s'.Filled key ↔ key = node.slotKey place ∨ s.Filled key := by
    intro key
    rw [LoweringState.Filled, hslots, List.map_cons, List.mem_cons, LoweringState.Filled]
  refine ⟨⟨hsharing.trans h.sharing, ?_, ?_, ?_, ?_⟩, fun key hkey => (hfilled key).mpr (Or.inr hkey),
    fun item hitem => (hfilled _).mpr (Or.inl (by rw [List.mem_singleton.mp hitem]))⟩
  · intro key hkey
    rcases (hfilled key).mp hkey with rfl | hold
    · exact ⟨place, node, hreaches, rfl⟩
    · exact h.reached key hold
  · intro place₁ node₁ place' node' hnode hkey hbelow'
    refine (hfilled _).mpr (Or.inr ?_)
    rcases (hfilled _).mp hkey with hsame | hold
    · exact hbelow place' node' (hbelow'.of_slotKey_eq hnode (hreaches.nodeAt? hroots) hsame)
    · exact h.closed place₁ node₁ place' node' hnode hold hbelow'
  · intro key slot₁ hmem hnames
    rw [hslots] at hmem
    rcases List.mem_cons.mp hmem with heq | hold
    · obtain ⟨rfl, rfl⟩ := Prod.mk.inj heq
      rcases hcases with ⟨-, suggestion, -, hblock, hentry⟩ | ⟨hunnamed, -⟩
      · rw [hentry] at hslots
        obtain ⟨-, rfl⟩ := Prod.mk.inj (List.head_eq_of_cons_eq hslots)
        rw [hblock, Block.statements_declareFinal]
        exact ⟨_, List.mem_append_right _ List.mem_cons_self, rfl⟩
      · rw [h.sharing, hnames] at hunnamed
        cases hunnamed
    · obtain ⟨d, hd, hholder⟩ := h.held key slot₁ hold hnames
      exact ⟨d, hadded ▸ List.mem_append_left _ hd, hholder⟩
  · have hkept : ∀ d ∈ s.block.statements, d ∈ start.statements ∨
        (∃ input ∈ c.inputs, d.init = input.row) ∨ ∃ key slot, (key, slot) ∈ s'.slots ∧
          slot.holder = some d.target ∧ c.names shared key = true := by
      intro d hd
      refine (h.declared d hd).imp_right (Or.imp_right ?_)
      rintro ⟨key, slot₁, hmem, hrest⟩
      exact ⟨key, slot₁, hslots ▸ List.mem_cons_of_mem _ hmem, hrest⟩
    intro d hd
    rcases hcases with ⟨hnames, suggestion, -, hblock, hentry⟩ | ⟨-, -, hblock, -⟩
    · rw [hblock] at hd
      rcases Block.mem_statements_declareFinal hd with hold | rfl
      · exact hkept d hold
      · refine Or.inr (Or.inr ⟨_, _, hentry ▸ List.mem_cons_self, rfl, ?_⟩)
        rw [← h.sharing, hnames]
    · exact hkept d (hblock ▸ hd)

/-- **A pass covers what it reaches.** -/
theorem Lowers.covers {es : List Expr} (h : c.Lowers items s es s')
    (hroots : ∀ item ∈ roots, c.program.nodeAt? item.1 = some item.2)
    (hitems : ∀ item ∈ items, c.program.Reaches roots item.1 item.2)
    (hs : c.Covers roots start shared s) :
    c.Covers roots start shared s' ∧ (∀ key, s.Filled key → s'.Filled key) ∧
      ∀ item ∈ items, s'.Filled (item.2.slotKey item.1) := by
  induction h with
  | nil => exact ⟨hs, fun _ hkey => hkey, by simp⟩
  | cons head tail ihhead ihtail =>
      obtain ⟨hitem, hrest⟩ := List.forall_mem_cons.mp hitems
      obtain ⟨hs₁, hmono₁, hhead⟩ := ihhead (List.forall_mem_singleton.mpr hitem) hs
      obtain ⟨hs₂, hmono₂, htail⟩ := ihtail hrest hs₁
      refine ⟨hs₂, fun key hkey => hmono₂ key (hmono₁ key hkey), ?_⟩
      exact List.forall_mem_cons.mpr ⟨hmono₂ _ (hhead _ List.mem_cons_self), htail⟩
  | @known place node s slot hslot =>
      refine ⟨hs.touch _, fun key hkey => (s.filled_touch _ key).mpr hkey, ?_⟩
      intro item hitem
      rw [List.mem_singleton.mp hitem, s.filled_touch]
      exact List.mem_map_of_mem (LoweringState.mem_of_slot? hslot)
  | field hslot hread hfill =>
      refine (hs.readField hread).fill hroots (hitems _ List.mem_cons_self) ?_ hfill
      intro place' node' hbelow
      cases hbelow with
      | child hmem => cases hmem
  | literal hslot hfill =>
      refine hs.fill hroots (hitems _ List.mem_cons_self) ?_ hfill
      intro place' node' hbelow
      cases hbelow with
      | child hmem => cases hmem
  | @reference place index ty body s s₁ s' e value hslot hbody hlower hfill ih =>
      have hreaches : c.program.Reaches roots place (.localRef index ty) := hitems _ List.mem_cons_self
      obtain ⟨hs₁, hmono₁, hfilled⟩ := ih
        (fun item hitem => List.mem_singleton.mp hitem ▸ hreaches.step (.body hbody)) hs
      obtain ⟨hs', hmono, hkey⟩ := hs₁.fill hroots hreaches (by
        intro place' node' hbelow
        cases hbelow with
        | child hmem => cases hmem
        | body hbody' =>
            obtain rfl := Option.some.inj (hbody.symm.trans hbody')
            exact hfilled _ List.mem_cons_self) hfill
      exact ⟨hs', fun key hfilled => hmono key (hmono₁ key hfilled), hkey⟩
  | @operation place node op strategy s s₁ s' args e value hslot hop hstrategy hlower hassemble hfill ih =>
      have hreaches : c.program.Reaches roots place node := hitems _ List.mem_cons_self
      obtain ⟨hs₁, hmono₁, hfilled⟩ := ih (fun item hitem => hreaches.step (.child hitem)) hs
      rw [← Node.slotKey_of_operator? hop place] at hfill
      obtain ⟨hs', hmono, hkey⟩ := hs₁.fill hroots hreaches (by
        intro place' node' hbelow
        cases hbelow with
        | child hmem => exact hfilled _ hmem
        | body => simp [Node.operator?] at hop) hfill
      exact ⟨hs', fun key hfilled => hmono key (hmono₁ key hfilled), hkey⟩

theorem Covers.filled_of_reaches (h : c.Covers roots start shared s)
    (hroots : ∀ item ∈ roots, c.program.nodeAt? item.1 = some item.2)
    (hfilled : ∀ item ∈ roots, s.Filled (item.2.slotKey item.1)) {place : Place} {node : Node}
    (hreaches : c.program.Reaches roots place node) : s.Filled (node.slotKey place) := by
  induction hreaches with
  | root hmem => exact hfilled _ hmem
  | step hreaches hbelow ih => exact h.closed _ _ _ _ (hreaches.nodeAt? hroots) ih hbelow

end LoweringContext

end RowCode
