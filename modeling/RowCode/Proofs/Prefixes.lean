import RowCode.Proofs.LoweringSteps
import RowCode.Proofs.Lockstep
import RowCode.Proofs.PlainTrees
import RowCode.Proofs.Renaming

/-!
# Prefixes

The names that lowering suggests start with a prefix. Runs with two prefixes meet taken names at
different points and number them differently, but a permutation of names always leads from one state
to the other: it fixes the row and is extended whenever a variable is declared.
-/

namespace RowCode

namespace Slot

variable {f g : String → String} {names names' : List String} {slot : Slot}

def rename (f : String → String) (slot : Slot) : Slot :=
  { slot with holder := slot.holder.map (Variable.rename f), lowered := slot.lowered.rename f }

theorem value_rename (f : String → String) (slot : Slot) :
    (slot.rename f).value = slot.value.rename f := by
  obtain ⟨holder, lowered, count⟩ := slot
  cases holder <;> rfl

structure Within (names : List String) (slot : Slot) : Prop where
  holder : ∀ v ∈ slot.holder, v.name ∈ names
  lowered : slot.lowered.Within names

namespace Within

theorem mono (h : slot.Within names) (hnames : names ⊆ names') : slot.Within names' :=
  ⟨fun v hv => hnames (h.holder v hv), h.lowered.mono hnames⟩

theorem value (h : slot.Within names) : slot.value.Within names := by
  obtain ⟨holder, lowered, count⟩ := slot
  cases holder with
  | none => exact h.lowered
  | some v => exact .var (h.holder v rfl)

theorem rename_congr (h : slot.Within names) (hfg : ∀ name ∈ names, g name = f name) :
    slot.rename g = slot.rename f := by
  have hholder : slot.holder.map (Variable.rename g) = slot.holder.map (Variable.rename f) := by
    refine Option.map_congr fun v hv => ?_
    rw [Variable.rename, hfg v.name (h.holder v hv)]
    rfl
  rw [rename, rename, hholder, h.lowered.rename_congr hfg]

end Within

end Slot

namespace LoweringState

/-- The second state is the first one with its names permuted, the row apart. -/
structure Alike (row : String) (π : Equiv.Perm String) (s t : LoweringState) : Prop where
  block : s.block.Renamed π t.block
  row_taken : row ∈ s.block.names
  row_fixed : π row = row
  slots : t.slots = s.slots.map fun entry => (entry.1, entry.2.rename π)
  within : ∀ entry ∈ s.slots, entry.2.Within s.block.names
  shared : t.shared = s.shared

namespace Alike

variable {row : String} {π τ : Equiv.Perm String} {s t : LoweringState}

theorem slot?_eq (h : s.Alike row π t) (key : SlotKey) :
    t.slot? key = (s.slot? key).map (Slot.rename π) :=
  slot?_of_slots_map (g := id) h.slots fun _ _ => id

theorem within_of_slot? (h : s.Alike row π t) {key : SlotKey} {slot : Slot}
    (hslot : s.slot? key = some slot) : slot.Within s.block.names :=
  h.within (key, slot) (mem_of_slot? hslot)

theorem touch (h : s.Alike row π t) (key : SlotKey) : (s.touch key).Alike row π (t.touch key) where
  block := h.block
  row_taken := h.row_taken
  row_fixed := h.row_fixed
  slots := slots_touch_of_map (g := id) h.slots (fun _ _ => id) fun _ => rfl
  within entry hentry := by
    obtain ⟨old, hold, rfl⟩ := List.mem_map.mp hentry
    have hwithin := h.within old hold
    dsimp only
    split <;> exact ⟨hwithin.holder, hwithin.lowered⟩
  shared := h.shared

/-- The blocks may grow, by names that correspond. -/
theorem grow (h : s.Alike row π t) {b b' : Block} (hblock : b.Renamed τ b')
    (hkeeps : ∀ name ∈ s.block.names, τ name = π name) (hnames : s.block.names ⊆ b.names) :
    LoweringState.Alike row τ { s with block := b } { t with block := b' } where
  block := hblock
  row_taken := hnames h.row_taken
  row_fixed := (hkeeps row h.row_taken).trans h.row_fixed
  slots := by
    refine h.slots.trans (List.map_congr_left fun entry hentry => ?_)
    rw [(h.within entry hentry).rename_congr hkeeps]
  within entry hentry := (h.within entry hentry).mono hnames
  shared := h.shared

theorem fill_slot (h : s.Alike row π t) {key : SlotKey} {slot slot' : Slot}
    (hslot : slot.Within s.block.names) (hrenamed : slot' = slot.rename π) :
    LoweringState.Alike row π { s with slots := (key, slot) :: s.slots }
      { t with slots := (key, slot') :: t.slots } where
  block := h.block
  row_taken := h.row_taken
  row_fixed := h.row_fixed
  slots := by rw [hrenamed, h.slots, List.map_cons]
  within := List.forall_mem_cons.mpr ⟨hslot, h.within⟩
  shared := h.shared

theorem share (h : s.Alike row π t) (indexes : List Nat) :
    (s.share indexes).Alike row π (t.share indexes) where
  block := h.block
  row_taken := h.row_taken
  row_fixed := h.row_fixed
  slots := h.slots
  within := h.within
  shared := congrArg (· ++ indexes) h.shared

end Alike

end LoweringState

/-! ### Steps -/

namespace LoweringContext

variable {c : LoweringContext} {key : SlotKey} {s : LoweringState}

/-- Filling a slot, as a step. -/
def filling (c : LoweringContext) (key : SlotKey) (lowered : Expr) : Lowering Expr := fun s =>
  (.ok (c.fill key lowered s).1, (c.fill key lowered s).2)

/-- An empty slot is filled once its node has been lowered. -/
theorem withSlot_of_empty (hslot : s.slot? key = none) (x : Lowering Expr) :
    c.withSlot key x s = (x >>= c.filling key) s := by
  rw [withSlot, hslot, Lowering.bind_apply]
  rcases x s with ⟨result, s'⟩
  cases result <;> rfl

theorem filling_of_not_named (hnames : c.names s.shared key = false) (e : Expr) :
    c.filling key e s = (.ok e, { s with slots := (key, ⟨none, e, 1⟩) :: s.slots }) := by
  rw [filling, fill, hnames]
  rfl

theorem filling_of_named (hnames : c.names s.shared key = true) (e : Expr) :
    c.filling key e s =
      (.ok (.var (s.block.declareFinal (c.stem ++ toString s.slots.length) e).1),
        { s with
          block := (s.block.declareFinal (c.stem ++ toString s.slots.length) e).2
          slots :=
            (key, ⟨some (s.block.declareFinal (c.stem ++ toString s.slots.length) e).1, e, 1⟩) ::
              s.slots }) := by
  rw [filling, fill, hnames]
  rfl

/-- What the roots share does not depend on the state. -/
theorem analyze_cases (c : LoweringContext) (roots : List Node) :
    (∃ indexes, ∀ s, c.analyze roots s = (.ok (), s.share indexes)) ∨
      ∃ e, ∀ s, c.analyze roots s = (.error e, s) := by
  unfold analyze
  cases c.policy with
  | all =>
      refine Or.inl ⟨[], fun s => ?_⟩
      rw [LoweringState.share, List.append_nil]
  | shared =>
      cases Usage.ofRoots? c.program roots with
      | none => exact Or.inr ⟨_, fun _ => rfl⟩
      | some usage => exact Or.inl ⟨usage.shared, fun _ => rfl⟩

section Run

variable {α : Type} {pass : Lowering α} {block : Block}

theorem run_of_ok {a : α} (hpass : pass (.start block) = (.ok a, s)) :
    run block pass = (.ok a, s.block) := by
  rw [run, hpass]

theorem run_of_error {e : LoweringError} (hpass : pass (.start block) = (.error e, s)) :
    run block pass = (.error e, s.block.rollback block.length) := by
  rw [run, hpass]

end Run

end LoweringContext

theorem Agree.imp {α β ε : Type} {V W : α → β → Prop} {E : ε → ε → Prop} {x : Except ε α}
    {y : Except ε β} (h : Agree V E x y) (hVW : ∀ a b, V a b → W a b) : Agree W E x y := by
  cases h with
  | ok hab => exact .ok (hVW _ _ hab)
  | error he => exact .error he

/-- What becomes of two steps from states that are alike: they fail alike, or have results that
correspond, and the states are alike afterwards. Names that were taken correspond as before. -/
def Together {α β : Type} (row : String) (V : Equiv.Perm String → List String → α → β → Prop)
    (π : Equiv.Perm String) (s t : LoweringState) (x : Lowering α) (y : Lowering β) : Prop :=
  ∃ τ : Equiv.Perm String, (∀ name ∈ s.block.names, τ name = π name) ∧
    s.block.names ⊆ (x s).2.block.names ∧ (x s).2.Alike row τ (y t).2 ∧
    Agree (V τ (x s).2.block.names) Eq (x s).1 (y t).1

/-- The second expression is the first one renamed, which is over the names given. -/
def Expr.Becomes (π : Equiv.Perm String) (names : List String) (e e' : Expr) : Prop :=
  e.Within names ∧ e' = e.rename π

def Expr.AllBecome (π : Equiv.Perm String) (names : List String) (es es' : List Expr) : Prop :=
  (∀ e ∈ es, e.Within names) ∧ es' = es.map (Expr.rename π)

theorem Expr.AllBecome.later {π τ : Equiv.Perm String} {names names' : List String}
    {es es' : List Expr} (h : AllBecome π names es es') (hkeeps : ∀ name ∈ names, τ name = π name)
    (hnames : names ⊆ names') : AllBecome τ names' es es' := by
  refine ⟨fun e he => (h.1 e he).mono hnames, h.2.trans (List.map_congr_left fun e he => ?_)⟩
  exact ((h.1 e he).rename_congr hkeeps).symm

namespace Together

variable {row : String} {α β γ δ : Type} {V : Equiv.Perm String → List String → α → β → Prop}
  {W : Equiv.Perm String → List String → γ → δ → Prop} {π : Equiv.Perm String}
  {s t : LoweringState}

theorem pure {a : α} {b : β} (h : s.Alike row π t) (hab : V π s.block.names a b) :
    Together row V π s t (Pure.pure a) (Pure.pure b) :=
  ⟨π, fun _ _ => rfl, fun _ => id, h, .ok hab⟩

theorem throw (h : s.Alike row π t) (e : LoweringError) :
    Together row V π s t (MonadExcept.throw e) (MonadExcept.throw e) :=
  ⟨π, fun _ _ => rfl, fun _ => id, h, .error rfl⟩

theorem bind {x : Lowering α} {y : Lowering β} {k : α → Lowering γ} {k' : β → Lowering δ}
    (hxy : Together row V π s t x y)
    (hnext : ∀ τ s' t' a b, (∀ name ∈ s.block.names, τ name = π name) →
      s.block.names ⊆ s'.block.names → s'.Alike row τ t' → V τ s'.block.names a b →
      Together row W τ s' t' (k a) (k' b)) :
    Together row W π s t (x >>= k) (y >>= k') := by
  obtain ⟨τ, hkeeps, hnames, halike, hresults⟩ := hxy
  unfold Together
  rw [Lowering.bind_apply, Lowering.bind_apply]
  rcases hx : x s with ⟨result, s'⟩
  rcases hy : y t with ⟨result', t'⟩
  rw [hx] at hnames
  rw [hx, hy] at halike hresults
  cases hresults with
  | error he => exact ⟨τ, hkeeps, hnames, halike, .error he⟩
  | ok hab =>
      obtain ⟨υ, hkeeps', hnames', halike', hresults'⟩ :=
        hnext τ s' t' _ _ hkeeps hnames halike hab
      refine ⟨υ, fun name hname => ?_, List.Subset.trans hnames hnames', halike', hresults'⟩
      exact (hkeeps' name (hnames hname)).trans (hkeeps name hname)

end Together

namespace PlainContext

variable {c : PlainContext} {policy : NamingPolicy} {stem stem' : String} {π : Equiv.Perm String}
  {s t : LoweringState}

theorem together_filling (h : s.Alike c.row.name π t) {e : Expr} (he : e.Within s.block.names)
    (key : SlotKey) :
    Together c.row.name Expr.Becomes π s t ((c.naming policy stem).filling key e)
      ((c.naming policy stem').filling key (e.rename π)) := by
  have hnames : (c.naming policy stem').names t.shared key =
      (c.naming policy stem).names s.shared key := by
    rw [h.shared]
    rfl
  unfold Together
  cases hnamed : (c.naming policy stem).names s.shared key with
  | false =>
      rw [LoweringContext.filling_of_not_named hnamed e,
        LoweringContext.filling_of_not_named (hnames.trans hnamed) (e.rename π)]
      exact ⟨π, fun _ _ => rfl, fun _ => id, h.fill_slot ⟨by rintro v ⟨⟩, he⟩ rfl, .ok ⟨he, rfl⟩⟩
  | true =>
      rw [LoweringContext.filling_of_named hnamed e,
        LoweringContext.filling_of_named (hnames.trans hnamed) (e.rename π)]
      obtain ⟨τ, hkeeps, htarget, hblock⟩ := h.block.declareFinal he
        (stem ++ toString s.slots.length) (stem' ++ toString t.slots.length)
      have hsubset := (s.block.grows_declareFinal (stem ++ toString s.slots.length) e).names_subset
      have hholder : (s.block.declareFinal (stem ++ toString s.slots.length) e).1.name ∈
          (s.block.declareFinal (stem ++ toString s.slots.length) e).2.names := by
        rw [Block.names_declareFinal]
        exact List.mem_cons_self
      refine ⟨τ, hkeeps, hsubset, ?_, .ok ⟨.var hholder, congrArg Expr.var htarget⟩⟩
      refine (h.grow hblock hkeeps hsubset).fill_slot ⟨?_, he.mono hsubset⟩ ?_
      · rintro v ⟨⟩
        exact hholder
      · rw [Slot.rename, Option.map_some, he.rename_congr hkeeps]
        exact congrArg (fun v => Slot.mk (some v) (e.rename π) 1) htarget

theorem together_withSlot (h : s.Alike c.row.name π t) {x y : Lowering Expr}
    (hxy : Together c.row.name Expr.Becomes π s t x y) (key : SlotKey) :
    Together c.row.name Expr.Becomes π s t ((c.naming policy stem).withSlot key x)
      ((c.naming policy stem').withSlot key y) := by
  have hlookup := h.slot?_eq key
  cases hslot : s.slot? key with
  | some slot =>
      rw [hslot] at hlookup
      have hwithin := h.within_of_slot? hslot
      unfold Together LoweringContext.withSlot
      rw [hslot, hlookup]
      exact ⟨π, fun _ _ => rfl, fun _ => id, h.touch key, .ok ⟨hwithin.value, slot.value_rename π⟩⟩
  | none =>
      rw [hslot] at hlookup
      have hfilled : Together c.row.name Expr.Becomes π s t
          (x >>= (c.naming policy stem).filling key) (y >>= (c.naming policy stem').filling key) :=
        hxy.bind fun τ s' t' e e' _ _ halike he => by
          obtain ⟨hwithin, rfl⟩ := he
          exact together_filling halike hwithin key
      unfold Together at hfilled ⊢
      rwa [LoweringContext.withSlot_of_empty hslot x, LoweringContext.withSlot_of_empty hlookup y]

theorem together_assemble (strategy : Strategy) (node : Node) (h : s.Alike c.row.name π t)
    {es es' : List Expr} (hes : Expr.AllBecome π s.block.names es es') :
    Together c.row.name Expr.Becomes π s t ((c.naming policy stem).assemble strategy node es)
      ((c.naming policy stem').assemble strategy node es') := by
  obtain ⟨hwithin, rfl⟩ := hes
  have hrenamed : strategy.assemble? (c.adapter node.ty) (es.map (Expr.rename π)) =
      (strategy.assemble? (c.adapter node.ty) es).map (Expr.rename π) :=
    (Expr.homomorphism_rename π).assemble? strategy _ fun e _ => Expr.ty_rename e
  have hassemble : ∀ stem args, (c.naming policy stem).assemble strategy node args =
      ((strategy.assemble? (c.adapter node.ty) args).elim
        (MonadExcept.throw (LoweringContext.unsupported node)) Pure.pure : Lowering Expr) := by
    intro stem args
    rw [LoweringContext.assemble]
    have hcontext : (c.naming policy stem).adapter node.ty = c.adapter node.ty := rfl
    rw [hcontext]
    cases strategy.assemble? (c.adapter node.ty) args <;> rfl
  rw [hassemble, hassemble, hrenamed]
  cases hassembled : strategy.assemble? (c.adapter node.ty) es with
  | none => exact .throw h _
  | some e => exact .pure h ⟨(Expr.compositional_within _).assemble? hwithin hassembled, rfl⟩

theorem together_operation (op : Operator) (node : Node) (h : s.Alike c.row.name π t)
    {args args' : Lowering (List Expr)}
    (hargs : Together c.row.name Expr.AllBecome π s t args args') :
    Together c.row.name Expr.Becomes π s t
      (Getter.operation (c.naming policy stem) op node args)
      (Getter.operation (c.naming policy stem') op node args') := by
  unfold Getter.operation
  cases hstrategy : c.table.strategy? op with
  | none =>
      have hlacks : ∀ stem, (c.naming policy stem).table.strategy? op = none := fun _ => hstrategy
      rw [hlacks, hlacks]
      exact .throw h _
  | some strategy =>
      have hhas : ∀ stem, (c.naming policy stem).table.strategy? op = some strategy :=
        fun _ => hstrategy
      rw [hhas, hhas]
      dsimp only
      split
      · exact .throw h _
      · exact hargs.bind fun τ s' t' es es' _ _ halike hes =>
          together_assemble strategy node halike hes

theorem together_field (h : s.Alike c.row.name π t) (index : Nat) :
    Together c.row.name Expr.Becomes π s t ((Getter.rows [⟨.var c.row, c.layout⟩]).read index)
      ((Getter.rows [⟨.var c.row, c.layout⟩]).read index) := by
  have hrow : c.row.rename π = c.row := by rw [Variable.rename, h.row_fixed]
  unfold Together Getter.read Getter.rows RowInput.readField
  simp only [List.isEmpty_cons, Bool.false_eq_true, if_false, RowInput.locate?]
  by_cases hindex : index < c.layout.fieldCount
  · simp only [if_pos hindex]
    have happend := h.block.append_var h.row_taken (RowInput.rowName 0)
    rw [hrow] at happend
    obtain ⟨τ, hkeeps, hholder, hname, hblock⟩ := happend
    have hsubset := (s.block.grows_append (RowInput.rowName 0) (.var c.row)).names_subset
    refine ⟨τ, hkeeps, hsubset, h.grow hblock hkeeps hsubset, ?_⟩
    rw [hholder]
    generalize (s.block.append (RowInput.rowName 0) (.var c.row)).1 = holder at hname ⊢
    have hfield : c.layout.fieldOf (.var (holder.rename τ)) index =
        (c.layout.fieldOf (.var holder) index).map (Expr.rename τ) :=
      (Expr.homomorphism_rename τ).fieldOf (Expr.ty_rename (.var holder)) index
    rw [hfield]
    cases hread : c.layout.fieldOf (.var holder) index with
    | error e => exact .error rfl
    | ok e => exact .ok ⟨(Expr.compositional_within _).fieldOf (.var hname) hread, rfl⟩
  · simp only [if_neg hindex]
    exact ⟨π, fun _ _ => rfl, fun _ => id, h, .error rfl⟩

theorem together_leaf (h : s.Alike c.row.name π t) (node : Node) :
    Together c.row.name Expr.Becomes π s t
      ((Getter.rows [⟨.var c.row, c.layout⟩]).leaf (c.naming policy stem) node)
      ((Getter.rows [⟨.var c.row, c.layout⟩]).leaf (c.naming policy stem') node) := by
  cases node with
  | inputRef index ty => exact together_field h index
  | literal value ty =>
      refine .pure h ⟨(Expr.compositional_within _).lowerLiteral c.adapter value ty, ?_⟩
      exact ((Expr.homomorphism_rename π).lowerLiteral c.adapter value ty).symm
  | localRef | call | case | dynamicParam => exact .throw h _

/-! ### Nodes -/

variable (policy stem stem')

/-- From states that are alike, a node is lowered alike with either prefix. -/
def LowersAlike (c : PlainContext) (place : Place) (node : Node) : Prop :=
  ∀ π s t, LoweringState.Alike c.row.name π s t → Together c.row.name Expr.Becomes π s t
    ((Getter.rows [⟨.var c.row, c.layout⟩]).lower (c.naming policy stem) place node)
    ((Getter.rows [⟨.var c.row, c.layout⟩]).lower (c.naming policy stem') place node)

variable {policy stem stem'}

theorem together_lowerEach {items : List (Place × Node)}
    (hitems : ∀ item ∈ items, c.LowersAlike policy stem stem' item.1 item.2)
    (h : s.Alike c.row.name π t) :
    Together c.row.name Expr.AllBecome π s t
      ((Getter.rows [⟨.var c.row, c.layout⟩]).lowerEach (c.naming policy stem) items)
      ((Getter.rows [⟨.var c.row, c.layout⟩]).lowerEach (c.naming policy stem') items) := by
  induction items generalizing π s t with
  | nil => exact .pure h ⟨fun _ he => (List.not_mem_nil he).elim, rfl⟩
  | cons item rest ih =>
      obtain ⟨hitem, hrest⟩ := List.forall_mem_cons.mp hitems
      refine (hitem π s t h).bind fun τ s' t' e e' _ _ halike he => ?_
      refine (ih hrest halike).bind fun υ s'' t'' es es' hkeeps hnames halike' hes => ?_
      refine .pure halike' ?_
      obtain ⟨hwithin, rfl⟩ := he
      refine ⟨List.forall_mem_cons.mpr ⟨hwithin.mono hnames, hes.1⟩, ?_⟩
      rw [hes.2, List.map_cons, hwithin.rename_congr hkeeps]

theorem lowersAlike_of_resolves {node : Node} (hnode : c.program.Resolves node) (place : Place) :
    c.LowersAlike policy stem stem' place node := by
  refine c.program.item_induction ?_ place node hnode
  intro place node hresolves ih π s t h
  rw [Getter.lower_eq_withSlot _ (c.naming policy stem) place hresolves,
    Getter.lower_eq_withSlot _ (c.naming policy stem') place hresolves]
  refine together_withSlot h ?_ _
  cases hop : node.operator? with
  | some op =>
      rw [Program.itemsBelow_of_reference?_none (Node.reference?_of_operator? hop)] at ih
      rw [Getter.inside_of_operator? _ _ place hop, Getter.inside_of_operator? _ _ place hop]
      exact together_operation op node h (together_lowerEach ih h)
  | none =>
      cases hreference : node.reference? with
      | some index =>
          obtain ⟨ty, body, rfl, hbody⟩ := hresolves.of_reference? hreference
          rw [Program.itemsBelow_localRef hbody] at ih
          rw [Getter.inside_localRef _ (c.naming policy stem) place ty hbody,
            Getter.inside_localRef _ (c.naming policy stem') place ty hbody]
          exact ih _ (List.mem_singleton_self _) π s t h
      | none =>
          rw [Getter.inside_leaf _ (c.naming policy stem) place hop hreference,
            Getter.inside_leaf _ (c.naming policy stem') place hop hreference]
          exact together_leaf h node

end PlainContext

/-! ### Passes -/

namespace PassRequest

theorem run_of_vacuous {r : PassRequest} (hvacuous : r.Vacuous) (block : Block) :
    r.run block = (.ok [.boolean true], block) := by
  obtain ⟨houtputs, hcondition⟩ := hvacuous
  rw [run, houtputs]
  simp only [LoweringContext.lowerCondition, Getter.lowerCondition, hcondition]
  rfl

/-- A pass that has something to lower lowers its items, one after the other. -/
theorem run_eq_lowerAll {r : PassRequest} (hlowers : ¬ r.Vacuous) (block : Block) :
    r.run block = LoweringContext.run block (r.context.lowerAll r.items) := by
  unfold run items
  cases houtputs : r.outputs with
  | projects => rfl
  | condition =>
      cases hcondition : r.context.program.condition with
      | none => exact absurd ⟨houtputs, hcondition⟩ hlowers
      | some condition =>
          simp only [LoweringContext.lowerCondition, Getter.lowerCondition, hcondition]
          change _ = LoweringContext.run block (r.context.analyze [condition] >>= fun _ =>
            (Getter.rows r.context.inputs).lower r.context (.root .condition) condition >>= fun e =>
              Pure.pure [e])
          unfold LoweringContext.run
          rw [Lowering.bind_apply, Lowering.bind_apply]
          rcases r.context.analyze [condition] (.start block) with ⟨analyzed, s⟩
          cases analyzed with
          | error e => rfl
          | ok =>
              dsimp only
              rw [Lowering.bind_apply]
              rcases (Getter.rows r.context.inputs).lower r.context (.root .condition) condition s with
                ⟨result, s'⟩
              cases result <;> rfl

end PassRequest

namespace PlainContext

variable {c : PlainContext} {policy : NamingPolicy} {stem stem' : String} {π : Equiv.Perm String}

theorem together_lowerAll {s t : LoweringState} (h : s.Alike c.row.name π t)
    {items : List (Place × Node)} (hitems : ∀ item ∈ items, c.program.Resolves item.2) :
    Together c.row.name Expr.AllBecome π s t ((c.naming policy stem).lowerAll items)
      ((c.naming policy stem').lowerAll items) := by
  rw [LoweringContext.lowerAll, LoweringContext.lowerAll]
  have hanalyze : Together c.row.name (fun _ _ _ _ => True) π s t
      ((c.naming policy stem).analyze (items.map Prod.snd))
      ((c.naming policy stem').analyze (items.map Prod.snd)) := by
    change Together _ _ _ _ _ _ ((c.naming policy stem).analyze (items.map Prod.snd))
    unfold Together
    rcases (c.naming policy stem).analyze_cases (items.map Prod.snd) with
      ⟨indexes, hok⟩ | ⟨e, herror⟩
    · rw [hok, hok]
      exact ⟨π, fun _ _ => rfl, fun _ => id, h.share indexes, .ok trivial⟩
    · rw [herror, herror]
      exact ⟨π, fun _ _ => rfl, fun _ => id, h, .error rfl⟩
  refine hanalyze.bind fun τ s' t' _ _ _ _ halike _ => ?_
  refine together_lowerEach (fun item hitem => ?_) halike
  exact lowersAlike_of_resolves (hitems item hitem) item.1

theorem resolves_of_mem_items (policy : NamingPolicy) (stem : String) (outputs : Outputs) :
    ∀ item ∈ (c.request policy stem outputs).items, c.program.Resolves item.2 := by
  intro item hitem
  have houtput : item.2 ∈ c.program.outputs := by
    unfold PassRequest.items request at hitem
    cases outputs with
    | projects => exact List.mem_append_left _ (LoweringContext.mem_of_mem_placed hitem)
    | condition =>
        obtain ⟨node, hnode, rfl⟩ := List.mem_map.mp hitem
        exact List.mem_append_right _ hnode
  exact Program.lt_of_mem_references_output houtput

/-- **The step.** One pass, with either prefix, from blocks that are alike. -/
theorem passes_alike {b b' : Block} (h : b.Renamed π b') (hrow : c.row.name ∈ b.names)
    (hfixed : π c.row.name = c.row.name) (policy : NamingPolicy) (stem stem' : String)
    (outputs : Outputs) :
    ∃ τ : Equiv.Perm String, (∀ name ∈ b.names, τ name = π name) ∧
      ((c.request policy stem outputs).run b).2.Renamed τ
        ((c.request policy stem' outputs).run b').2 ∧
      Agree (Expr.AllBecome τ ((c.request policy stem outputs).run b).2.names) Eq
        ((c.request policy stem outputs).run b).1 ((c.request policy stem' outputs).run b').1 := by
  by_cases hvacuous : (c.request policy stem outputs).Vacuous
  · have hvacuous' : (c.request policy stem' outputs).Vacuous := hvacuous
    rw [PassRequest.run_of_vacuous hvacuous, PassRequest.run_of_vacuous hvacuous']
    refine ⟨π, fun _ _ => rfl, h, .ok ⟨fun e he => ?_, rfl⟩⟩
    rw [List.mem_singleton.mp he]
    exact (Expr.compositional_within _).constant _ _
  · have hlowers' : ¬ (c.request policy stem' outputs).Vacuous := hvacuous
    have halike : (LoweringState.start b).Alike c.row.name π (.start b') :=
      ⟨h, hrow, hfixed, rfl, fun _ hentry => (List.not_mem_nil hentry).elim, rfl⟩
    have htogether : Together c.row.name Expr.AllBecome π (.start b) (.start b')
        ((c.naming policy stem).lowerAll (c.request policy stem outputs).items)
        ((c.naming policy stem').lowerAll (c.request policy stem outputs).items) :=
      together_lowerAll halike (resolves_of_mem_items policy stem outputs)
    obtain ⟨τ, hkeeps, -, halike', hresults⟩ := htogether
    rcases hx : (c.naming policy stem).lowerAll (c.request policy stem outputs).items (.start b)
      with ⟨result, s⟩
    rcases hy : (c.naming policy stem').lowerAll (c.request policy stem outputs).items (.start b')
      with ⟨result', t⟩
    rw [hx, hy] at halike' hresults
    cases hresults with
    | ok hes =>
        rw [(PassRequest.run_eq_lowerAll hvacuous b).trans (LoweringContext.run_of_ok hx),
          (PassRequest.run_eq_lowerAll hlowers' b').trans (LoweringContext.run_of_ok hy)]
        exact ⟨τ, hkeeps, halike'.block, .ok hes⟩
    | error he =>
        have hrun :=
          (PassRequest.run_eq_lowerAll hvacuous b).trans (LoweringContext.run_of_error hx)
        have hrun' :=
          (PassRequest.run_eq_lowerAll hlowers' b').trans (LoweringContext.run_of_error hy)
        rw [hrun, hrun', PassRequest.run_eq_of_error hrun, PassRequest.run_eq_of_error hrun']
        exact ⟨π, fun _ _ => rfl, h, .error he⟩

/-- **The run.** The permutation is extended from pass to pass, and keeps what it did to earlier
names. -/
theorem runs_alike {b b' : Block} (h : b.Renamed π b') (hrow : c.row.name ∈ b.names)
    (hfixed : π c.row.name = c.row.name) (policy : NamingPolicy) (stem stem' : String)
    (outputs : List Outputs) :
    ∃ τ : Equiv.Perm String, (∀ name ∈ b.names, τ name = π name) ∧
      (PassRequest.runAll (outputs.map (c.request policy stem)) b).2.Renamed τ
        (PassRequest.runAll (outputs.map (c.request policy stem')) b').2 ∧
      List.Forall₂ (Agree (Expr.AllBecome τ
          (PassRequest.runAll (outputs.map (c.request policy stem)) b).2.names) Eq)
        (PassRequest.runAll (outputs.map (c.request policy stem)) b).1
        (PassRequest.runAll (outputs.map (c.request policy stem')) b').1 := by
  induction outputs generalizing b b' π with
  | nil => exact ⟨π, fun _ _ => rfl, h, .nil⟩
  | cons output rest ih =>
      obtain ⟨τ, hkeeps, hblock, hresult⟩ := passes_alike h hrow hfixed policy stem stem' output
      have hgrows := ((c.request policy stem output).grows_run b).names_subset
      obtain ⟨υ, hkeeps', hblock', hresults⟩ :=
        ih hblock (hgrows hrow) ((hkeeps _ hrow).trans hfixed)
      have hlater := (PassRequest.grows_runAll (rest.map (c.request policy stem))
        ((c.request policy stem output).run b).2).names_subset
      refine ⟨υ, fun name hname => ?_, hblock', .cons ?_ hresults⟩
      · exact (hkeeps' name (hgrows hname)).trans (hkeeps name hname)
      · exact hresult.imp fun es es' hes => hes.later hkeeps' hlater

/-- **A prefix is a matter of names.** Take any prefixes and any sequence of passes over the
projections and the condition of a program, into a block where only the name of the row is taken. A
permutation of names that fixes the name of the row takes what the passes declare and return with
the first prefix to what they declare and return with the second: declaration by declaration, in the
same order, and result by result. The same passes fail, each with the same error. -/
theorem prefixes_only_rename (c : PlainContext) (policy : NamingPolicy) (stem stem' : String)
    (outputs : List Outputs) :
    let start := (Block.empty.newName c.row.name).2
    let first := PassRequest.runAll (outputs.map (c.request policy stem)) start
    let second := PassRequest.runAll (outputs.map (c.request policy stem')) start
    ∃ π : Equiv.Perm String, π c.row.name = c.row.name ∧
      second.2.statements = first.2.statements.map (Declaration.rename π) ∧
      second.2.names = first.2.names.map π ∧
      (∀ d ∈ first.2.statements, d.name ≠ c.row.name) ∧
      List.Forall₂ (Agree (fun es es' => es' = es.map (Expr.rename π)) Eq) first.1 second.1 := by
  intro start first second
  have hstart : start.Renamed (Equiv.refl String) start :=
    ⟨(List.map_id _).symm, rfl, fun _ hd => (List.not_mem_nil hd).elim⟩
  have hreserves : start.Reserves c.row.name :=
    ⟨(Block.mem_names_reserve _ _ _).mpr (Or.inl rfl), fun _ hd => (List.not_mem_nil hd).elim⟩
  obtain ⟨π, hkeeps, hblock, hresults⟩ :=
    runs_alike hstart hreserves.taken rfl policy stem stem' outputs
  refine ⟨π, hkeeps _ hreserves.taken, hblock.statements, hblock.names, ?_, ?_⟩
  · exact (hreserves.grows (PassRequest.grows_runAll _ start)).undeclared
  · exact hresults.imp fun result result' hresult => hresult.imp fun es es' hes => hes.2

end PlainContext

end RowCode
