import RowCode.Proofs.Derivation

/-!
# Readings of a pass

Most properties of what a pass computes have one shape: at every point, the value of a slot stands
for the node of the slot, in a sense that depends on the block. A `Reading` is such a sense together
with the reasons, one per rule, why lowering respects it; `Lowers.reads` is the induction.
-/

namespace RowCode

theorem exists_of_mem_right {α β : Type} {R : α → β → Prop} {xs : List α} {ys : List β}
    (h : List.Forall₂ R xs ys) {y : β} (hy : y ∈ ys) : ∃ x ∈ xs, R x y := by
  induction h with
  | nil => cases hy
  | cons hxy _ ih =>
      rcases List.mem_cons.mp hy with rfl | hy
      · exact ⟨_, List.mem_cons_self, hxy⟩
      · obtain ⟨x, hx, hR⟩ := ih hy
        exact ⟨x, List.mem_cons_of_mem _ hx, hR⟩

namespace LoweringContext

variable {c : LoweringContext}

/-- A sense in which an expression, in a block, stands for a node of the program: `Inv` is what the
block is known to satisfy meanwhile. -/
structure Reading (c : LoweringContext) (Inv : Block → Prop) (Means : Block → Node → Expr → Prop) :
    Prop where
  grows {b b' : Block} {node : Node} {e : Expr} : Inv b → Inv b' → b.Grows b' → Means b node e →
    Means b' node e
  field {b b' : Block} {index : Nat} {ty : LogicalType} {e : Expr} : Inv b →
    c.program.Has (.inputRef index ty) → RowInput.readField c.inputs b index = (.ok e, b') →
    Inv b' ∧ Means b' (.inputRef index ty) e
  literal {b : Block} {value : Value} {ty : LogicalType} : Inv b →
    c.program.Has (.literal value ty) →
    Means b (.literal value ty) (lowerLiteral c.adapter value ty)
  reference {b : Block} {index : Nat} {ty : LogicalType} {body : Node} {e : Expr} : Inv b →
    c.program.Has (.localRef index ty) → c.program.exprs[index]? = some body → Means b body e →
    Means b (.localRef index ty) e
  operation {b : Block} {node : Node} {op : Operator} {strategy : Strategy} {args : List Expr}
    {e : Expr} : Inv b → c.program.Has node → node.operator? = some op →
    c.table.strategy? op = some strategy → List.Forall₂ (Means b) node.children args →
    strategy.assemble? (c.adapter node.ty) args = some e → Means b node e
  naming {b : Block} {node : Node} {e : Expr} (suggestion : String) : Inv b → Means b node e →
    Inv (b.declareFinal suggestion e).2 ∧
      Means (b.declareFinal suggestion e).2 node (.var (b.declareFinal suggestion e).1)

def SlotsRead (c : LoweringContext) (Means : Block → Node → Expr → Prop) (s : LoweringState) : Prop :=
  ∀ key slot, (key, slot) ∈ s.slots →
    ∃ node, c.program.slotNode? key = some node ∧ Means s.block node slot.value

variable {Inv : Block → Prop} {Means : Block → Node → Expr → Prop}

theorem SlotsRead.touch {s : LoweringState} (h : c.SlotsRead Means s) (key : SlotKey) :
    c.SlotsRead Means (s.touch key) := by
  intro other slot hslot
  obtain ⟨old, hold, hholder, hlowered⟩ := LoweringState.mem_slots_touch hslot
  obtain ⟨node, hnode, hmeans⟩ := h other old hold
  rw [Slot.value, hholder, hlowered]
  exact ⟨node, hnode, hmeans⟩

theorem Reading.fill (R : c.Reading Inv Means) {key : SlotKey} {node : Node} {lowered value : Expr}
    {s s' : LoweringState} (hinv : Inv s.block) (hslots : c.SlotsRead Means s)
    (hnode : c.program.slotNode? key = some node) (hmeans : Means s.block node lowered)
    (hfill : c.fill key lowered s = (value, s')) :
    Inv s'.block ∧ c.SlotsRead Means s' ∧ Means s'.block node value := by
  have hvalue : Inv s'.block ∧ Means s'.block node value := by
    rcases (fill_cases hfill).2 with ⟨-, suggestion, rfl, hblock, -⟩ | ⟨-, rfl, hblock, -⟩
    · rw [hblock]
      exact R.naming suggestion hinv hmeans
    · rw [hblock]
      exact ⟨hinv, hmeans⟩
  refine ⟨hvalue.1, ?_, hvalue.2⟩
  obtain ⟨slot, hslots', rfl⟩ := fill_slot hfill
  intro other found hfound
  rw [hslots'] at hfound
  rcases List.mem_cons.mp hfound with heq | hold
  · obtain ⟨rfl, rfl⟩ := Prod.mk.inj heq
    exact ⟨node, hnode, hvalue.2⟩
  · obtain ⟨other, hother, hold⟩ := hslots other found hold
    exact ⟨other, hother, R.grows hinv hvalue.1 (fill_grows hfill) hold⟩

theorem forall_of_forall₂ {α β : Type} {R : α → β → Prop} {P : β → Prop} {xs : List α} {ys : List β}
    (h : List.Forall₂ R xs ys) (hP : ∀ x y, R x y → P y) : ∀ y ∈ ys, P y := by
  induction h with
  | nil => simp
  | cons hxy _ ih => exact List.forall_mem_cons.mpr ⟨hP _ _ hxy, ih⟩

/-- **What a pass computes stands for what it was computed from.** -/
theorem Lowers.reads {items : List (Place × Node)} {s s' : LoweringState} {es : List Expr}
    (h : c.Lowers items s es s') (R : c.Reading Inv Means)
    (hitems : ∀ item ∈ items, c.program.nodeAt? item.1 = some item.2) (hinv : Inv s.block)
    (hslots : c.SlotsRead Means s) :
    Inv s'.block ∧ c.SlotsRead Means s' ∧
      List.Forall₂ (Means s'.block) (items.map Prod.snd) es := by
  induction h with
  | nil => exact ⟨hinv, hslots, .nil⟩
  | @cons place node rest s s₁ s₂ e es head tail ihhead ihtail =>
      obtain ⟨hitem, hrest⟩ := List.forall_mem_cons.mp hitems
      obtain ⟨hinv₁, hslots₁, hhead⟩ := ihhead (List.forall_mem_singleton.mpr hitem) hinv hslots
      obtain ⟨hinv₂, hslots₂, htail⟩ := ihtail hrest hinv₁ hslots₁
      have he := (List.forall₂_cons.mp hhead).1
      exact ⟨hinv₂, hslots₂, .cons (R.grows hinv₁ hinv₂ tail.grows he) htail⟩
  | @known place node s slot hslot =>
      have hplace := hitems _ List.mem_cons_self
      obtain ⟨found, hfound, hmeans⟩ := hslots _ slot (LoweringState.mem_of_slot? hslot)
      refine ⟨hinv, hslots.touch _, .cons ?_ .nil⟩
      cases node with
      | localRef index ty => exact R.reference hinv ⟨place, hplace⟩ hfound hmeans
      | inputRef | literal | call | case | dynamicParam =>
          obtain rfl : _ = found := Option.some.inj (hplace.symm.trans hfound)
          exact hmeans
  | @field place index ty s s' block e value hslot hread hfill =>
      have hplace : c.program.slotNode? (.node place) = some (.inputRef index ty) :=
        hitems _ List.mem_cons_self
      have hgrows := RowInput.readField_grows hread
      obtain ⟨hinv₁, hmeans⟩ := R.field hinv ⟨place, hplace⟩ hread
      have hslots₁ : c.SlotsRead Means { s with block } := by
        intro key slot hfound
        obtain ⟨node, hnode, hold⟩ := hslots key slot hfound
        exact ⟨node, hnode, R.grows hinv hinv₁ hgrows hold⟩
      obtain ⟨hinv₂, hslots₂, hvalue⟩ := R.fill hinv₁ hslots₁ hplace hmeans hfill
      exact ⟨hinv₂, hslots₂, .cons hvalue .nil⟩
  | @literal place v ty s s' value hslot hfill =>
      have hplace : c.program.slotNode? (.node place) = some (.literal v ty) :=
        hitems _ List.mem_cons_self
      obtain ⟨hinv₂, hslots₂, hvalue⟩ :=
        R.fill hinv hslots hplace (R.literal hinv ⟨place, hplace⟩) hfill
      exact ⟨hinv₂, hslots₂, .cons hvalue .nil⟩
  | @reference place index ty body s s₁ s' e value hslot hbody hlower hfill ih =>
      have hplace := hitems _ List.mem_cons_self
      have hslotNode : c.program.slotNode? (.reference index) = some body := hbody
      obtain ⟨hinv₁, hslots₁, hmeans⟩ := ih (List.forall_mem_singleton.mpr hbody) hinv hslots
      obtain ⟨hinv₂, hslots₂, hvalue⟩ :=
        R.fill hinv₁ hslots₁ hslotNode (List.forall₂_cons.mp hmeans).1 hfill
      exact ⟨hinv₂, hslots₂, .cons (R.reference hinv₂ ⟨place, hplace⟩ hbody hvalue) .nil⟩
  | @operation place node op strategy s s₁ s' args e value hslot hop hstrategy _ hassemble hfill ih =>
      have hplace : c.program.slotNode? (.node place) = some node := hitems _ List.mem_cons_self
      obtain ⟨hinv₁, hslots₁, hargs⟩ := ih (Program.nodeAt?_of_mem_children hplace) hinv hslots
      rw [Place.map_snd_childItems] at hargs
      have hmeans := R.operation hinv₁ ⟨place, hplace⟩ hop hstrategy hargs hassemble
      obtain ⟨hinv₂, hslots₂, hvalue⟩ := R.fill hinv₁ hslots₁ hplace hmeans hfill
      exact ⟨hinv₂, hslots₂, .cons hvalue .nil⟩

end LoweringContext

end RowCode
