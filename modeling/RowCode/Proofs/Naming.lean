import RowCode.Proofs.Lookups
import RowCode.Proofs.Transparency

/-!
# What is named

A pass records what it declares in its slots: apart from the row, each declaration belongs to the
slot of a node that the policy names, and the slots of these nodes have one declaration each. The row
is bound when the first field is read, and found again from then on.
-/

namespace RowCode

namespace Program

/-- The places that are to be named for the projections: by usage, the expressions that are referred
to more than once, and otherwise all that is reached; local references never. -/
def NamesAt (p : Program) (policy : NamingPolicy) (place : Place) : Prop :=
  match policy with
  | .shared => ∃ index body usage, place = .root (.expr index) ∧ p.exprs[index]? = some body ∧
      body.reference? = none ∧ Usage.ofProjects? p = some usage ∧ 1 < usage.count index
  | .all => ∃ index ∈ p.reached p.projects, ∃ node, place.origin = .expr index ∧
      p.nodeAt? place = some node ∧ node.reference? = none

end Program

def Node.isInputRef : Node → Bool
  | .inputRef _ _ => true
  | _ => false

/-! ### Declarations of the row -/

/-- The declaration is initialized with the row. -/
def Declaration.binds (row : Variable) (d : Declaration) : Bool := d.init.agrees (.var row)

theorem Declaration.binds_iff {row : Variable} {d : Declaration} :
    d.binds row = true ↔ d.init = .var row :=
  Expr.agrees_var_iff

namespace Block

variable {b : Block} {v : Variable}

theorem Reserves.declareFinal_ne (h : b.Reserves v.name) (suggestion : String) (init : Expr) :
    (b.declareFinal suggestion init).1 ≠ v := by
  rintro rfl
  exact b.name_declareFinal_not_mem suggestion init h.taken

theorem Reserves.append_ne (h : b.Reserves v.name) (suggestion : String) (e : Expr) :
    (b.append suggestion e).1 ≠ v := by
  unfold append
  cases hholder : b.holder? e with
  | some w =>
      obtain ⟨d, hfound, rfl⟩ := Option.map_eq_some_iff.mp hholder
      rintro rfl
      exact h.undeclared d (List.mem_of_find?_eq_some hfound) rfl
  | none => exact h.declareFinal_ne suggestion e

/-- What a block says about the row while a pass runs. -/
structure BindsRow (b : Block) (row : Variable) : Prop where
  reserved : b.Reserves row.name
  final : ∀ d ∈ b.statements, d.isFinal = true
  once : b.statements.countP (Declaration.binds row) ≤ 1

/-- The declarations but that of the row. -/
def declared (b : Block) (row : Variable) : List Declaration :=
  b.statements.filter fun d => !d.binds row

variable {row : Variable}

theorem BindsRow.declareFinal (h : b.BindsRow row) (suggestion : String) {init : Expr}
    (hinit : init ≠ .var row) :
    (b.declareFinal suggestion init).2.BindsRow row ∧
      (b.declareFinal suggestion init).2.statements.countP (Declaration.binds row) =
        b.statements.countP (Declaration.binds row) ∧
      (b.declareFinal suggestion init).2.declared row =
        b.declared row ++ [⟨(b.declareFinal suggestion init).1, init, true⟩] := by
  have hother : Declaration.binds row ⟨(b.declareFinal suggestion init).1, init, true⟩ = false :=
    Bool.eq_false_iff.mpr fun hbinds => hinit (Declaration.binds_iff.mp hbinds)
  have hcount : (b.declareFinal suggestion init).2.statements.countP (Declaration.binds row) =
      b.statements.countP (Declaration.binds row) := by
    rw [statements_declareFinal, List.countP_append, List.countP_singleton, hother]
    rfl
  refine ⟨⟨h.reserved.grows (b.grows_declareFinal _ _), fun d hd => ?_, hcount ▸ h.once⟩, hcount, ?_⟩
  · rcases mem_statements_declareFinal hd with hold | rfl
    · exact h.final d hold
    · rfl
  · rw [declared, statements_declareFinal, List.filter_append, declared]
    simp [hother]

/-- **The row is bound once.** Binding it declares a variable the first time only. -/
theorem BindsRow.append (h : b.BindsRow row) (suggestion : String) :
    (b.append suggestion (.var row)).2.BindsRow row ∧
      0 < (b.append suggestion (.var row)).2.statements.countP (Declaration.binds row) ∧
      (b.append suggestion (.var row)).2.declared row = b.declared row := by
  unfold Block.append
  cases hholder : b.holder? (.var row) with
  | some w =>
      have hholds := holds_of_holder?_eq_some (Expr.floatFree_var row) hholder
      exact ⟨h, List.countP_pos_iff.mpr ⟨_, hholds, Declaration.binds_iff.mpr rfl⟩, rfl⟩
  | none =>
      have hself : Declaration.binds row
          ⟨(b.declareFinal suggestion (.var row)).1, .var row, true⟩ = true :=
        Declaration.binds_iff.mpr rfl
      have hzero : b.statements.countP (Declaration.binds row) = 0 := by
        refine List.countP_eq_zero.mpr fun d hd hbinds => ?_
        refine List.find?_eq_none.mp (Option.map_eq_none_iff.mp hholder) d hd ?_
        exact Bool.and_eq_true_iff.mpr ⟨h.final d hd, hbinds⟩
      have hcount : (b.declareFinal suggestion (.var row)).2.statements.countP
          (Declaration.binds row) = 1 := by
        rw [statements_declareFinal, List.countP_append, hzero, List.countP_singleton, hself]
        rfl
      refine ⟨⟨h.reserved.grows (b.grows_declareFinal _ _), fun d hd => ?_, Nat.le_of_eq hcount⟩,
        hcount ▸ Nat.zero_lt_one, ?_⟩
      · rcases mem_statements_declareFinal hd with hold | rfl
        · exact h.final d hold
        · rfl
      · rw [declared, statements_declareFinal, List.filter_append, declared]
        simp [hself]

end Block

def SlotKey.place? : SlotKey → Option Place
  | .reference _ => none
  | .node place => some place

theorem SlotKey.eq_of_place? {key : SlotKey} {place : Place} (hkey : key.place? = some place) :
    key = .node place := by
  cases key with
  | reference => cases hkey
  | node => rw [Option.some.inj hkey]

theorem Expr.compositional_ne_var (v : Variable) : Compositional fun e => e ≠ .var v where
  constant _ _ := Expr.noConfusion
  call _ _ _ _ _ := Expr.noConfusion
  staticCall _ _ _ _ _ := Expr.noConfusion
  construct _ _ _ := Expr.noConfusion
  binary _ _ _ _ _ _ := Expr.noConfusion
  unary _ _ _ _ := Expr.noConfusion
  conditional _ _ _ _ := Expr.noConfusion
  cast _ _ := Expr.noConfusion
  element _ _ _ := Expr.noConfusion

namespace LoweringContext

/-- The places of the named nodes that have slots, the latest first. -/
def namedPlaces (c : LoweringContext) (s : LoweringState) : List Place :=
  ((s.slots.map Prod.fst).filter (c.names s.shared)).filterMap SlotKey.place?

variable {c : LoweringContext} {s s' : LoweringState}

theorem mem_namedPlaces {place : Place} : place ∈ c.namedPlaces s ↔
    s.Filled (.node place) ∧ c.names s.shared (.node place) = true := by
  rw [namedPlaces, List.mem_filterMap]
  constructor
  · rintro ⟨key, hkey, hplace⟩
    rw [SlotKey.eq_of_place? hplace] at hkey
    exact List.mem_filter.mp hkey
  · exact fun h => ⟨_, List.mem_filter.mpr h, rfl⟩

theorem nodup_namedPlaces (hkeys : (s.slots.map Prod.fst).Nodup) : (c.namedPlaces s).Nodup := by
  refine (hkeys.filter _).filterMap fun key key' place hplace hplace' => ?_
  rw [SlotKey.eq_of_place? hplace, SlotKey.eq_of_place? hplace']

theorem namedPlaces_of_keys_eq (hkeys : s'.slots.map Prod.fst = s.slots.map Prod.fst)
    (hshared : s'.shared = s.shared) : c.namedPlaces s' = c.namedPlaces s := by
  rw [namedPlaces, hkeys, hshared, namedPlaces]

theorem namedPlaces_fill {key : SlotKey} {lowered value : Expr}
    (hfill : c.fill key lowered s = (value, s')) :
    c.namedPlaces s' =
      if c.names s.shared key then key.place?.toList ++ c.namedPlaces s else c.namedPlaces s := by
  obtain ⟨slot, hslots, -⟩ := fill_slot hfill
  rw [namedPlaces, hslots, (fill_cases hfill).1, List.map_cons, List.filter_cons]
  by_cases hnames : c.names s.shared key = true
  · rw [if_pos hnames, if_pos hnames, List.filterMap_cons]
    cases key <;> rfl
  · rw [if_neg hnames, if_neg hnames, namedPlaces]

end LoweringContext

namespace PlainContext

variable {c : PlainContext} {policy : NamingPolicy} {stem : String} {s s' : LoweringState}
  {items : List (Place × Node)} {es : List Expr}

/-- What slots and declarations say about each other, one by one. -/
structure Records (c : PlainContext) (policy : NamingPolicy) (stem : String) (s : LoweringState) :
    Prop where
  block : s.block.BindsRow c.row
  values : ∀ key e, s.value? key = some e → e ≠ .var c.row
  read : 0 < s.block.statements.countP (Declaration.binds c.row) ↔ ∃ place index ty,
    s.Filled (.node place) ∧ c.program.nodeAt? place = some (.inputRef index ty)
  named : List.Forall₂ (fun d place => s.value? (.node place) = some (.var d.target))
    (s.block.declared c.row) ((c.naming policy stem).namedPlaces s).reverse

theorem Records.touch (h : c.Records policy stem s) (key : SlotKey) :
    c.Records policy stem (s.touch key) where
  block := h.block
  values other e hvalue := h.values other e (LoweringState.value?_touch s key other ▸ hvalue)
  read := by
    simp only [LoweringState.filled_touch]
    exact h.read
  named := by
    rw [LoweringContext.namedPlaces_of_keys_eq (s.keys_touch key) rfl]
    simp only [LoweringState.value?_touch]
    exact h.named

theorem Records.reference (h : c.Records policy stem s) {index : Nat} {e value : Expr}
    (he : e ≠ .var c.row)
    (hfill : (c.naming policy stem).fill (.reference index) e s = (value, s')) :
    c.Records policy stem s' ∧ value ≠ .var c.row := by
  obtain ⟨rfl, hblock⟩ : value = e ∧ s'.block = s.block := by
    rcases (LoweringContext.fill_cases hfill).2 with ⟨hnames, -⟩ | ⟨-, hvalue, hblock, -⟩
    · cases hnames
    · exact ⟨hvalue, hblock⟩
  have hnodes : ∀ place, s'.value? (.node place) = s.value? (.node place) := fun place => by
    rw [LoweringContext.value?_fill hfill, if_neg SlotKey.noConfusion]
  refine ⟨⟨hblock ▸ h.block, fun key e hvalue => ?_, ?_, ?_⟩, he⟩
  · rw [LoweringContext.value?_fill hfill] at hvalue
    split at hvalue
    · exact Option.some.inj hvalue ▸ he
    · exact h.values key e hvalue
  · simp only [LoweringContext.filled_fill hfill, hblock, h.read]
    simp
  · rw [LoweringContext.namedPlaces_fill hfill, hblock]
    simp only [hnodes]
    exact h.named

/-- What making an expression does to the block: at most, it binds the row. -/
theorem makes_row {node : Node} {args : List Expr} {e : Expr}
    (hmade : (c.naming policy stem).Makes node s args e s') (hblock : s.block.BindsRow c.row)
    (hargs : ∀ arg ∈ args, arg ≠ .var c.row) :
    s'.block.BindsRow c.row ∧ s'.block.declared c.row = s.block.declared c.row ∧
      (0 < s'.block.statements.countP (Declaration.binds c.row) ↔
        0 < s.block.statements.countP (Declaration.binds c.row) ∨
          ∃ index ty, node = .inputRef index ty) ∧ e ≠ .var c.row := by
  cases hmade with
  | @field index ty _ block e hread =>
      obtain ⟨position, input, offset, hlocate, rfl, hfield⟩ := RowInput.of_readField_ok hread
      obtain ⟨rfl, -⟩ := locate?_inputs hlocate
      obtain ⟨hbinds, hpos, hdeclared⟩ := hblock.append (RowInput.rowName position)
      refine ⟨hbinds, hdeclared, ⟨fun _ => Or.inr ⟨index, ty, rfl⟩, fun _ => hpos⟩, ?_⟩
      refine (Expr.compositional_ne_var c.row).fieldOf (fun hvar => ?_) hfield
      exact hblock.reserved.append_ne _ _ (Expr.var.inj hvar)
  | literal v ty =>
      refine ⟨hblock, rfl, by simp, (Expr.compositional_ne_var c.row).lowerLiteral _ _ _⟩
  | operation _ hop _ hassemble =>
      refine ⟨hblock, rfl, ?_, (Expr.compositional_ne_var c.row).assemble? hargs hassemble⟩
      cases node <;> simp_all [Node.operator?]

/-- Field references have slots if they had before, or if the slot filled now is that of one. -/
theorem filled_field_iff {place : Place} {node : Node} {args : List Expr} {e value : Expr}
    {s₁ : LoweringState} (hnode : c.program.nodeAt? place = some node)
    (hmade : (c.naming policy stem).Makes node s args e s₁)
    (hfill : (c.naming policy stem).fill (.node place) e s₁ = (value, s')) :
    (∃ place' index ty, s'.Filled (.node place') ∧
        c.program.nodeAt? place' = some (.inputRef index ty)) ↔
      (∃ place' index ty, s.Filled (.node place') ∧
        c.program.nodeAt? place' = some (.inputRef index ty)) ∨
          ∃ index ty, node = .inputRef index ty := by
  constructor
  · rintro ⟨place', index, ty, hkey, hfield⟩
    rcases (LoweringContext.filled_fill hfill _).mp hkey with hsame | hold
    · rw [SlotKey.node.inj hsame] at hfield
      exact Or.inr ⟨index, ty, Option.some.inj (hnode.symm.trans hfield)⟩
    · rw [LoweringState.Filled, hmade.slots_eq] at hold
      exact Or.inl ⟨place', index, ty, hold, hfield⟩
  · rintro (⟨place', index, ty, hkey, hfield⟩ | ⟨index, ty, rfl⟩)
    · rw [LoweringState.Filled, ← hmade.slots_eq] at hkey
      exact ⟨place', index, ty, (LoweringContext.filled_fill hfill _).mpr (Or.inr hkey), hfield⟩
    · exact ⟨place, index, ty, (LoweringContext.filled_fill hfill _).mpr (Or.inl rfl), hnode⟩

theorem Records.node (h : c.Records policy stem s) {place : Place} {node : Node} {args : List Expr}
    {e value : Expr} {s₁ : LoweringState} (hnode : c.program.nodeAt? place = some node)
    (hargs : ∀ arg ∈ args, arg ≠ .var c.row)
    (hmade : (c.naming policy stem).Makes node s args e s₁) (hnew : ¬ s₁.Filled (.node place))
    (hfill : (c.naming policy stem).fill (.node place) e s₁ = (value, s')) :
    c.Records policy stem s' ∧ value ≠ .var c.row := by
  obtain ⟨hblock, hdeclared, hread, he⟩ := makes_row hmade h.block hargs
  have hfilled := filled_field_iff hnode hmade hfill
  rw [← h.read, ← hread] at hfilled
  have hkept : List.Forall₂ (fun d place => s'.value? (.node place) = some (.var d.target))
      (s₁.block.declared c.row) ((c.naming policy stem).namedPlaces s₁).reverse := by
    rw [hdeclared, LoweringContext.namedPlaces_of_keys_eq (congrArg _ hmade.slots_eq) hmade.shared_eq]
    exact h.named.imp fun d place hvalue => LoweringContext.value?_fill_of_filled hfill hnew
      ((hmade.value?_eq _).trans hvalue)
  have hvalues : value ≠ .var c.row → ∀ key e, s'.value? key = some e → e ≠ .var c.row := by
    intro hvalue key e hslot
    rw [LoweringContext.value?_fill hfill, hmade.value?_eq] at hslot
    split at hslot
    · exact Option.some.inj hslot ▸ hvalue
    · exact h.values key e hslot
  have hplaces := LoweringContext.namedPlaces_fill hfill
  have hself : s'.value? (.node place) = some value := by
    rw [LoweringContext.value?_fill hfill, if_pos rfl]
  rcases (LoweringContext.fill_cases hfill).2 with
    ⟨hnames, suggestion, rfl, hblock', -⟩ | ⟨hnames, rfl, hblock', -⟩
  · obtain ⟨hbinds, hcount, hdeclared'⟩ := hblock.declareFinal suggestion he
    have hvalue : Expr.var (s₁.block.declareFinal suggestion e).1 ≠ .var c.row := fun hvar =>
      hblock.reserved.declareFinal_ne suggestion e (Expr.var.inj hvar)
    refine ⟨⟨hblock' ▸ hbinds, hvalues hvalue, ?_, ?_⟩, hvalue⟩
    · rw [hfilled, hblock', hcount]
    · rw [hblock', hdeclared', hplaces, if_pos hnames]
      change List.Forall₂ _ _ (place :: (c.naming policy stem).namedPlaces s₁).reverse
      rw [List.reverse_cons]
      exact List.rel_append hkept (.cons hself .nil)
  · refine ⟨⟨hblock' ▸ hblock, hvalues he, ?_, ?_⟩, he⟩
    · rw [hfilled, hblock']
    · rw [hblock', hplaces, hnames]
      exact hkept

/-- **A walk keeps the records**, and no result is the row itself. -/
theorem walks_record (h : (c.naming policy stem).Walks items s es s')
    (hitems : ∀ item ∈ items, c.program.nodeAt? item.1 = some item.2)
    (hs : c.Records policy stem s) : c.Records policy stem s' ∧ ∀ e ∈ es, e ≠ .var c.row := by
  induction h with
  | nil => exact ⟨hs, by simp⟩
  | cons _ _ ihhead ihtail =>
      obtain ⟨hitem, hrest⟩ := List.forall_mem_cons.mp hitems
      obtain ⟨hs₁, hhead⟩ := ihhead (List.forall_mem_singleton.mpr hitem) hs
      obtain ⟨hs₂, htail⟩ := ihtail hrest hs₁
      exact ⟨hs₂, List.forall_mem_cons.mpr ⟨hhead _ List.mem_cons_self, htail⟩⟩
  | @again place index ty s slot hslot =>
      refine ⟨hs.touch _, List.forall_mem_singleton.mpr (hs.values (.reference index) _ ?_)⟩
      exact LoweringState.value?_of_slot? hslot
  | @first place index ty body s s₁ s' e value hbody hwalk hnew hfill ih =>
      obtain ⟨hs₁, he⟩ := ih (List.forall_mem_singleton.mpr hbody) hs
      obtain ⟨hs', hvalue⟩ := hs₁.reference (he e List.mem_cons_self) hfill
      exact ⟨hs', List.forall_mem_singleton.mpr hvalue⟩
  | @node place node s s₁ s₂ s' args e value hwalk hmade hnew hfill ih =>
      have hnode := hitems _ List.mem_cons_self
      obtain ⟨hs₁, hargs⟩ := ih (Program.nodeAt?_of_mem_children hnode) hs
      obtain ⟨hs', hvalue⟩ := hs₁.node hnode hargs hmade hnew hfill
      exact ⟨hs', List.forall_mem_singleton.mpr hvalue⟩

end PlainContext

theorem LoweringContext.names_iff_of_shared {c : LoweringContext} (hpolicy : c.policy = .shared)
    {shared : List Nat} {place : Place} :
    c.names shared (.node place) = true ↔ ∃ index ∈ shared, place = .root (.expr index) := by
  obtain ⟨origin, path⟩ := place
  simp only [names, hpolicy]
  constructor
  · intro hnames
    split at hnames
    · rename_i index hplace
      exact ⟨index, of_decide_eq_true hnames, hplace⟩
    · cases hnames
  · rintro ⟨index, hindex, hplace⟩
    rw [hplace]
    exact decide_eq_true hindex

namespace PassRequest

variable {r : PassRequest} {block : Block} {shared : List Nat} {es : List Expr} {s : LoweringState}
  {place : Place}

theorem Ends.filled_node_iff (h : r.Ends block shared es s) : s.Filled (.node place) ↔
    ∃ index ∈ r.context.program.reached (r.items.map Prod.snd), ∃ node,
      place.origin = .expr index ∧ r.context.program.nodeAt? place = some node ∧
        node.reference? = none := by
  rw [h.filled_iff]
  constructor
  · rintro ⟨place', node, hreaches, hkey⟩
    cases hnode : node.reference? with
    | some index =>
        cases node with
        | localRef => cases hkey
        | inputRef | literal | call | case | dynamicParam => cases hnode
    | none =>
        rw [Node.slotKey_of_reference? hnode] at hkey
        obtain rfl := SlotKey.node.inj hkey
        rcases hreaches.origin_reached (fun item hitem => by
            obtain ⟨index, ty, houtput, -⟩ := exists_localRef_of_mem_items hitem
            rw [houtput]
            rfl) with hroot | ⟨index, hindex, horigin⟩
        · obtain ⟨index, ty, houtput, -⟩ := exists_localRef_of_mem_items hroot
          rw [show node = .localRef index ty from houtput] at hnode
          cases hnode
        · exact ⟨index, hindex, node, horigin, hreaches.nodeAt? nodeAt?_of_mem_items, hnode⟩
  · rintro ⟨index, hindex, node, horigin, hnode, hreference⟩
    exact ⟨place, node, .of_nodeAt? hindex horigin hnode, Node.slotKey_of_reference? hreference place⟩

end PassRequest

namespace PlainContext

variable {c : PlainContext} {policy : NamingPolicy} {stem : String} {block : Block}
  {shared : List Nat} {es : List Expr} {s : LoweringState}

theorem mem_namedPlaces_iff (h : (c.request policy stem .projects).Ends block shared es s)
    (place : Place) :
    place ∈ (c.naming policy stem).namedPlaces s ↔ c.program.NamesAt policy place := by
  rw [LoweringContext.mem_namedPlaces, h.filled_node_iff, map_snd_items_projects,
    h.covers.sharing]
  cases policy with
  | all => exact and_iff_left rfl
  | shared =>
      obtain ⟨usage, husage, hshared, hcount⟩ := h.exists_usage rfl
      rw [map_snd_items_projects] at husage
      rw [LoweringContext.names_iff_of_shared rfl]
      constructor
      · rintro ⟨⟨_, -, node, -, hnode, hreference⟩, index, hindex, rfl⟩
        exact ⟨index, node, usage, rfl, hnode, hreference, husage, (hshared index).mp hindex⟩
      · rintro ⟨index, body, usage', rfl, hbody, hreference, husage', huses⟩
        obtain rfl := Option.some.inj (husage.symm.trans husage')
        have hpos : 0 < c.program.occurrences
            ((c.request .shared stem .projects).items.map Prod.snd) index :=
          Nat.zero_lt_of_lt (lt_of_lt_of_eq huses (hcount index))
        have hreached := Program.mem_reached_of_occurrences
          (c.request .shared stem .projects).lt_of_mem_references hpos
        rw [map_snd_items_projects] at hreached
        exact ⟨⟨index, hreached, body, rfl, hbody, hreference⟩, index, (hshared index).mpr huses, rfl⟩

/-- Fields are read if there are references to fields in what the projections lead to. -/
theorem reads_iff (h : (c.request policy stem .projects).Ends block shared es s) :
    (∃ place index ty, s.Filled (.node place) ∧
        c.program.nodeAt? place = some (.inputRef index ty)) ↔
      (c.program.reachedNodes c.program.projects).any Node.isInputRef = true := by
  rw [List.any_eq_true, ← c.map_snd_items_projects policy stem]
  constructor
  · rintro ⟨place, index, ty, hfilled, hnode⟩
    obtain ⟨body, hbody, node, horigin, -, -⟩ := h.filled_node_iff.mp hfilled
    have hreaches := Program.Reaches.of_nodeAt? hbody horigin hnode
    exact ⟨_, PassRequest.mem_reachedNodes_of_reaches hreaches rfl, rfl⟩
  · rintro ⟨node, hnode, hfield⟩
    obtain ⟨place, hreaches⟩ := Program.Reaches.of_mem_reachedNodes hnode
    cases node with
    | inputRef index ty =>
        exact ⟨place, index, ty, (h.filled_iff _).mpr ⟨place, _, hreaches, rfl⟩,
          hreaches.nodeAt? PassRequest.nodeAt?_of_mem_items⟩
    | localRef | literal | call | case | dynamicParam => cases hfield

/-- **Exactly the right nodes are named.** Let the projections be lowered into a block that has no
declarations and reserves the row's name. The row is bound once if a field is read in what the
projections lead to, and else not at all. The other declarations are one for each place that is to be
named, in the order of some list of these places, and they expand to the plain trees of the nodes
there. If every node is named, the results are variables. -/
theorem declares_what_is_to_be_named (c : PlainContext) (policy : NamingPolicy) (stem : String)
    (block after : Block) (es : List Expr) (hempty : block.statements = [])
    (hreserved : c.row.name ∈ block.names)
    (hrun : (c.naming policy stem).lowerProjects block = (.ok es, after)) :
    after.statements.countP (Declaration.binds c.row) =
        (if (c.program.reachedNodes c.program.projects).any Node.isInputRef then 1 else 0) ∧
      (∃ places : List Place, places.Nodup ∧
        (∀ place, place ∈ places ↔ c.program.NamesAt policy place) ∧
        List.Forall₂ (fun d place => ∃ node, c.program.nodeAt? place = some node ∧
          c.tree node = .ok (after.expand d.init)) (after.declared c.row) places) ∧
      (policy = .all → ∀ e ∈ es, ∃ d ∈ after.statements, e = .var d.target) := by
  have hrun' : (c.request policy stem .projects).run block = (.ok es, after) := hrun
  obtain ⟨shared, s, h, rfl⟩ := PassRequest.ends_of_run_ok (fun hvacuous => by cases hvacuous.1) hrun'
  have hreserves : block.Reserves c.row.name := ⟨hreserved, by simp [hempty]⟩
  have hstart : c.Records policy stem ⟨block, [], shared⟩ := by
    refine ⟨⟨hreserves, by simp [hempty], by simp [hempty]⟩, fun _ _ hnone => (by cases hnone), ?_, ?_⟩
    · simp [hempty, LoweringState.Filled]
    · simp [Block.declared, hempty, LoweringContext.namedPlaces]
  obtain ⟨hrecords, -⟩ := walks_record h.walks PassRequest.nodeAt?_of_mem_items hstart
  obtain ⟨hafter, hslots, -⟩ := h.lowers.reads (c.reading_tree policy stem)
    PassRequest.nodeAt?_of_mem_items (traceable_of_leftByPasses (.start hempty) hreserves)
    (fun _ _ hnone => by cases hnone)
  refine ⟨?_, ⟨((c.naming policy stem).namedPlaces s).reverse, ?_, fun place => ?_, ?_⟩, ?_⟩
  · have honce := hrecords.block.once
    have hread := hrecords.read.trans (reads_iff h)
    split
    · rename_i hany
      have hpos := hread.mpr hany
      omega
    · rename_i hnone
      exact Nat.eq_zero_of_not_pos fun hpos => hnone (hread.mp hpos)
  · exact List.nodup_reverse.mpr (LoweringContext.nodup_namedPlaces h.nodup_keys)
  · rw [List.mem_reverse, mem_namedPlaces_iff h]
  · have hmem : ∀ d ∈ s.block.declared c.row, d ∈ s.block.statements :=
      fun d hd => (List.mem_filter.mp hd).1
    refine ((List.forall₂_and_left _ _).mpr ⟨hmem, hrecords.named⟩).imp ?_
    rintro d place ⟨hd, hvalue⟩
    obtain ⟨slot, hslot, hvar⟩ := Option.map_eq_some_iff.mp hvalue
    obtain ⟨node, hnode, htree, -⟩ := hslots _ slot (LoweringState.mem_of_slot? hslot)
    rw [hvar, hafter.expand_target hd] at htree
    exact ⟨node, hnode, htree⟩
  · rintro rfl
    refine LoweringContext.forall_of_forall₂ ((List.forall₂_and_left _ _).mpr
      ⟨fun _ hitem => hitem, h.walks.value?_results⟩) ?_
    rintro item e ⟨hitem, hvalue⟩
    obtain ⟨index, ty, houtput, hlt⟩ := PassRequest.exists_localRef_of_mem_items hitem
    obtain ⟨last, hstands⟩ := Program.exists_standsFor hlt
    rw [houtput] at hvalue
    exact h.exists_target (h.value?_of_standsFor hstands hvalue) rfl

/-- `$0` and `UPPER($0)` are named, and the row is bound. -/
theorem upper_and_its_operand_are_named :
    ∃ after, (upperContext.naming .all "v").lowerProjects (Block.empty.newName "row").2 =
        (.ok [.var ⟨"v2", .string⟩, .var ⟨"v2", .string⟩], after) ∧
      after.statements.map Declaration.name = ["current0", "v0", "v2"] ∧
      after.statements.countP (Declaration.binds upperContext.row) = 1 ∧
      ∃ places : List Place, places.Nodup ∧ places.length = 2 ∧
        ∀ place, place ∈ places ↔ upperContext.program.NamesAt .all place := by
  have hrun : (upperContext.naming .all "v").lowerProjects (Block.empty.newName "row").2 =
      (.ok [.var ⟨"v2", .string⟩, .var ⟨"v2", .string⟩],
        ((upperContext.naming .all "v").lowerProjects (Block.empty.newName "row").2).2) :=
    Prod.ext (by rfl) rfl
  obtain ⟨hrow, ⟨places, hnodup, hplaces, hdeclared⟩, -⟩ :=
    declares_what_is_to_be_named upperContext .all "v" _ _ _ rfl (by decide) hrun
  exact ⟨_, hrun, by decide +kernel, hrow, places, hnodup,
    hdeclared.length_eq.symm.trans (by decide +kernel), hplaces⟩

end PlainContext

end RowCode
