import RowCode.Proofs.ReferenceCounts
import RowCode.Proofs.Walk

/-!
# How slots are used

A slot keeps its value, and it counts how often it was asked for. At the end of a pass the slot of an
expression was asked for as often as usage said it would be, so the separate analysis and the walk
agree. The value of a reference is that of the first expression behind it that is no reference
itself; if this one is named, the value is a variable.
-/

namespace RowCode

def SlotKey.reference? : SlotKey → Option Nat
  | .reference index => some index
  | .node _ => none

theorem SlotKey.eq_of_reference? {key : SlotKey} {index : Nat} (hkey : key.reference? = some index) :
    key = .reference index := by
  cases key with
  | reference => rw [Option.some.inj hkey]
  | node => cases hkey

theorem SlotKey.ite_reference_eq (index other : Nat) :
    (if SlotKey.reference index = .reference other then 1 else 0) = [other].count index := by
  rw [List.count_singleton]
  by_cases hother : index = other
  · simp [hother]
  · simp [hother, Ne.symm hother]

theorem Node.of_slotKey_eq_node {node : Node} {place place' : Place}
    (hkey : node.slotKey place = .node place') : node.reference? = none ∧ place = place' := by
  cases node with
  | localRef => cases hkey
  | inputRef | literal | call | case | dynamicParam => exact ⟨rfl, SlotKey.node.inj hkey⟩

theorem Node.of_slotKey_eq_reference {node : Node} {place : Place} {index : Nat}
    (hkey : node.slotKey place = .reference index) : ∃ ty, node = .localRef index ty := by
  cases node with
  | localRef _ ty => exact ⟨ty, by rw [SlotKey.reference.inj hkey]⟩
  | inputRef | literal | call | case | dynamicParam => cases hkey

namespace LoweringState

def value? (s : LoweringState) (key : SlotKey) : Option Expr := (s.slot? key).map Slot.value

variable {s : LoweringState} {key : SlotKey} {slot : Slot}

theorem value?_of_slot? (hslot : s.slot? key = some slot) : s.value? key = some slot.value := by
  rw [value?, hslot, Option.map_some]

theorem filled_of_value? {e : Expr} (hvalue : s.value? key = some e) : s.Filled key := by
  obtain ⟨slot, hslot, -⟩ := Option.map_eq_some_iff.mp hvalue
  exact filled_of_slot? hslot

theorem slot?_touch (s : LoweringState) (key other : SlotKey) :
    (s.touch key).slot? other = (s.slot? other).map fun slot =>
      if other = key then { slot with count := slot.count + 1 } else slot := by
  unfold slot? touch
  dsimp only
  induction s.slots with
  | nil => rfl
  | cons entry rest ih =>
      obtain ⟨k, slot⟩ := entry
      by_cases hother : other = k
      · subst hother
        by_cases hkey : other = key <;> simp [hkey]
      · have hmiss : (other == k) = false := beq_eq_false_iff_ne.mpr hother
        have hcons : ((k, slot) :: rest).lookup other = rest.lookup other := by
          rw [List.lookup_cons, hmiss]
        rw [hcons, ← ih]
        by_cases hkey : k = key
        · subst hkey
          simp [List.lookup_cons, hmiss]
        · simp [List.lookup_cons, hkey, hmiss]

theorem value?_touch (s : LoweringState) (key other : SlotKey) :
    (s.touch key).value? other = s.value? other := by
  rw [value?, slot?_touch, Option.map_map, value?]
  refine congrArg (Option.map · _) (funext fun slot => ?_)
  by_cases hkey : other = key <;> simp [hkey, Slot.value]

theorem useCount_touch (hslot : s.slot? key = some slot) (other : SlotKey) :
    (s.touch key).useCount other = s.useCount other + if other = key then 1 else 0 := by
  rw [useCount, slot?_touch, useCount]
  by_cases hkey : other = key
  · subst hkey
    simp [hslot]
  · cases s.slot? other <;> simp [hkey]

theorem slot?_of_slots_eq {s' : LoweringState} (hslots : s'.slots = (key, slot) :: s.slots)
    (other : SlotKey) : s'.slot? other = if other = key then some slot else s.slot? other := by
  rw [slot?, hslots, List.lookup_cons]
  by_cases hkey : other = key
  · simp [hkey]
  · rw [if_neg hkey, beq_eq_false_iff_ne.mpr hkey]
    rfl

theorem slot?_of_not_filled (hnew : ¬ s.Filled key) : s.slot? key = none := by
  cases hslot : s.slot? key with
  | none => rfl
  | some slot => exact absurd (filled_of_slot? hslot) hnew

/-- The expressions whose references have slots. -/
def referenceIndexes (s : LoweringState) : List Nat :=
  (s.slots.map Prod.fst).filterMap SlotKey.reference?

theorem mem_referenceIndexes {index : Nat} :
    index ∈ s.referenceIndexes ↔ s.Filled (.reference index) := by
  rw [referenceIndexes, List.mem_filterMap]
  constructor
  · rintro ⟨key, hkey, hindex⟩
    rwa [← SlotKey.eq_of_reference? hindex]
  · exact fun hfilled => ⟨_, hfilled, rfl⟩

theorem nodup_referenceIndexes (hkeys : (s.slots.map Prod.fst).Nodup) :
    s.referenceIndexes.Nodup := by
  refine hkeys.filterMap fun key key' index hindex hindex' => ?_
  rw [SlotKey.eq_of_reference? hindex, SlotKey.eq_of_reference? hindex']

theorem referenceIndexes_touch (s : LoweringState) (key : SlotKey) :
    (s.touch key).referenceIndexes = s.referenceIndexes := by
  rw [referenceIndexes, keys_touch, referenceIndexes]

end LoweringState

namespace LoweringContext

variable {c : LoweringContext} {items : List (Place × Node)} {s s' : LoweringState}
  {es : List Expr} {key : SlotKey} {lowered value : Expr}

section Filling

variable (hfill : c.fill key lowered s = (value, s'))

include hfill

theorem value?_fill (other : SlotKey) :
    s'.value? other = if other = key then some value else s.value? other := by
  obtain ⟨slot, hslots, rfl⟩ := fill_slot hfill
  rw [LoweringState.value?, LoweringState.slot?_of_slots_eq hslots]
  by_cases hkey : other = key <;> simp [hkey, LoweringState.value?]

theorem useCount_fill (hnew : ¬ s.Filled key) (other : SlotKey) :
    s'.useCount other = s.useCount other + if other = key then 1 else 0 := by
  obtain ⟨slot, hslots, hcount⟩ : ∃ slot, s'.slots = (key, slot) :: s.slots ∧ slot.count = 1 := by
    rcases (fill_cases hfill).2 with ⟨-, _, -, -, hslots⟩ | ⟨-, -, -, hslots⟩
    · exact ⟨_, hslots, rfl⟩
    · exact ⟨_, hslots, rfl⟩
  rw [LoweringState.useCount, LoweringState.slot?_of_slots_eq hslots, LoweringState.useCount]
  by_cases hkey : other = key
  · subst hkey
    simp [LoweringState.slot?_of_not_filled hnew, hcount]
  · simp [hkey]

theorem referenceIndexes_fill :
    s'.referenceIndexes = key.reference?.toList ++ s.referenceIndexes := by
  obtain ⟨slot, hslots, -⟩ := fill_slot hfill
  rw [LoweringState.referenceIndexes, hslots, List.map_cons, List.filterMap_cons]
  cases key <;> rfl

end Filling

/-! ### Values are kept -/

theorem Makes.value?_eq {node : Node} {args : List Expr} {e : Expr} (h : c.Makes node s args e s')
    (key : SlotKey) : s'.value? key = s.value? key := by
  rw [LoweringState.value?, LoweringState.slot?, h.slots_eq]
  rfl

/-- Filling a slot changes no other. -/
theorem value?_fill_of_filled (hfill : c.fill key lowered s = (value, s')) (hnew : ¬ s.Filled key)
    {other : SlotKey} {e : Expr} (hvalue : s.value? other = some e) : s'.value? other = some e := by
  rw [value?_fill hfill, if_neg]
  · exact hvalue
  · rintro rfl
    exact hnew (LoweringState.filled_of_value? hvalue)

theorem Walks.value?_kept (h : c.Walks items s es s') {key : SlotKey} {e : Expr}
    (hvalue : s.value? key = some e) : s'.value? key = some e := by
  induction h with
  | nil => exact hvalue
  | cons _ _ ihhead ihtail => exact ihtail (ihhead hvalue)
  | again => rwa [LoweringState.value?_touch]
  | first _ _ hnew hfill ih => exact value?_fill_of_filled hfill hnew (ih hvalue)
  | node _ hmade hnew hfill ih =>
      exact value?_fill_of_filled hfill hnew ((hmade.value?_eq _).trans (ih hvalue))

/-- **The results of a walk are in the slots.** -/
theorem Walks.value?_results (h : c.Walks items s es s') :
    List.Forall₂ (fun item e => s'.value? (item.2.slotKey item.1) = some e) items es := by
  induction h with
  | nil => exact .nil
  | cons head tail ihhead ihtail =>
      exact .cons (tail.value?_kept (List.forall₂_cons.mp ihhead).1) ihtail
  | again hslot =>
      refine .cons ?_ .nil
      rw [Node.slotKey, LoweringState.value?_touch, LoweringState.value?_of_slot? hslot]
  | first _ _ _ hfill =>
      refine .cons ?_ .nil
      rw [Node.slotKey, value?_fill hfill, if_pos rfl]
  | node _ hmade _ hfill =>
      refine .cons ?_ .nil
      rw [Node.slotKey_of_reference? hmade.reference?_eq, value?_fill hfill, if_pos rfl]

/-! ### Uses are counted -/

/-- What the bodies refer to that the references with slots lead to. -/
def bodyReferences (c : LoweringContext) (s : LoweringState) : List Nat :=
  s.referenceIndexes.flatMap c.program.referencesOf

theorem Makes.referenceIndexes_eq {node : Node} {args : List Expr} {e value : Expr} {place : Place}
    {s₁ : LoweringState} (h : c.Makes node s args e s₁)
    (hfill : c.fill (.node place) e s₁ = (value, s')) : s'.referenceIndexes = s.referenceIndexes := by
  rw [referenceIndexes_fill hfill, LoweringState.referenceIndexes, h.slots_eq]
  rfl

theorem Makes.useCount_eq {node : Node} {args : List Expr} {e : Expr}
    (h : c.Makes node s args e s') (key : SlotKey) : s'.useCount key = s.useCount key := by
  rw [LoweringState.useCount, LoweringState.slot?, h.slots_eq]
  rfl

theorem Walks.useCount_le (h : c.Walks items s es s') (key : SlotKey) :
    s.useCount key ≤ s'.useCount key := by
  induction h with
  | nil => exact Nat.le_refl _
  | cons _ _ ihhead ihtail => exact Nat.le_trans ihhead ihtail
  | again hslot =>
      rw [LoweringState.useCount_touch hslot]
      exact Nat.le_add_right _ _
  | first _ _ hnew hfill ih =>
      rw [useCount_fill hfill hnew]
      exact Nat.le_add_right_of_le ih
  | node _ hmade hnew hfill ih =>
      rw [useCount_fill hfill hnew, hmade.useCount_eq]
      exact Nat.le_add_right_of_le ih

theorem useCount_fill_pos (hfill : c.fill key lowered s = (value, s')) (hnew : ¬ s.Filled key)
    (hused : ∀ key, s.Filled key → 0 < s.useCount key) :
    ∀ key, s'.Filled key → 0 < s'.useCount key := by
  intro other hfilled
  rw [useCount_fill hfill hnew]
  rcases (filled_fill hfill other).mp hfilled with rfl | hold
  · rw [if_pos rfl]
    exact Nat.succ_pos _
  · exact Nat.add_pos_left (hused other hold) _

theorem Walks.useCount_pos (h : c.Walks items s es s')
    (hused : ∀ key, s.Filled key → 0 < s.useCount key) :
    ∀ key, s'.Filled key → 0 < s'.useCount key := by
  induction h with
  | nil => exact hused
  | cons _ _ ihhead ihtail => exact ihtail (ihhead hused)
  | again hslot =>
      intro key hfilled
      rw [LoweringState.useCount_touch hslot]
      exact Nat.add_pos_left (hused key ((LoweringState.filled_touch _ _ _).mp hfilled)) _
  | first _ _ hnew hfill ih => exact useCount_fill_pos hfill hnew (ih hused)
  | node _ hmade hnew hfill ih =>
      refine useCount_fill_pos hfill hnew fun key hkey => ?_
      rw [hmade.useCount_eq]
      rw [LoweringState.Filled, hmade.slots_eq] at hkey
      exact ih hused key hkey

/-- **Each reference is looked up once.** A walk asks for a reference as often as its items and the
bodies that it goes through refer to it. -/
theorem Walks.useCount_eq (h : c.Walks items s es s') (index : Nat) :
    s'.useCount (.reference index) + (c.bodyReferences s).count index =
      s.useCount (.reference index) + (items.flatMap fun item => item.2.references).count index +
        (c.bodyReferences s').count index := by
  induction h with
  | nil => rfl
  | cons head tail ihhead ihtail =>
      rw [List.flatMap_singleton] at ihhead
      rw [List.flatMap_cons, List.count_append]
      omega
  | @again place other ty s slot hslot =>
      have hbodies : c.bodyReferences (s.touch (.reference other)) = c.bodyReferences s := by
        rw [bodyReferences, LoweringState.referenceIndexes_touch, bodyReferences]
      rw [LoweringState.useCount_touch hslot, SlotKey.ite_reference_eq, hbodies,
        List.flatMap_singleton, Node.references_localRef]
  | @first place other ty body s s₁ s' e value hbody hwalk hnew hfill ih =>
      rw [List.flatMap_singleton] at ih ⊢
      have hbodies : c.bodyReferences s' = c.program.referencesOf other ++ c.bodyReferences s₁ := by
        rw [bodyReferences, referenceIndexes_fill hfill]
        rfl
      rw [useCount_fill hfill hnew, SlotKey.ite_reference_eq, hbodies, List.count_append,
        Program.referencesOf_eq hbody, Node.references_localRef]
      dsimp only at ih
      omega
  | @node place node s s₁ s₂ s' args e value hwalk hmade hnew hfill ih =>
      have hbodies : c.bodyReferences s' = c.bodyReferences s₁ := by
        rw [bodyReferences, hmade.referenceIndexes_eq hfill, bodyReferences]
      rw [place.flatMap_childItems, ← Node.references_of_reference?_none hmade.reference?_eq] at ih
      rw [useCount_fill hfill hnew, hmade.useCount_eq, hbodies, List.flatMap_singleton,
        if_neg SlotKey.noConfusion]
      exact ih

/-! ### References stand for what is behind them -/

/-- References have the values of their bodies. -/
def Follows (c : LoweringContext) (s : LoweringState) : Prop :=
  ∀ index body e, c.program.exprs[index]? = some body → s.value? (.reference index) = some e →
    s.value? (body.slotKey (.root (.expr index))) = some e

theorem Walks.follows (h : c.Walks items s es s') (hs : c.Follows s) : c.Follows s' := by
  induction h with
  | nil => exact hs
  | cons _ _ ihhead ihtail => exact ihtail (ihhead hs)
  | again =>
      intro index body e hbody hvalue
      rw [LoweringState.value?_touch] at hvalue ⊢
      exact hs index body e hbody hvalue
  | @first place other ty body s s₁ s' e value hbody hwalk hnew hfill ih =>
      intro index body' e' hbody' hvalue
      refine value?_fill_of_filled hfill hnew ?_
      rw [value?_fill hfill] at hvalue
      by_cases hother : index = other
      · subst hother
        obtain rfl := Option.some.inj (hbody.symm.trans hbody')
        rw [if_pos rfl] at hvalue
        obtain rfl : value = e := by
          rcases (fill_cases hfill).2 with ⟨hnames, -⟩ | ⟨-, hsame, -⟩
          · cases hnames
          · exact hsame
        rw [← Option.some.inj hvalue]
        exact (List.forall₂_cons.mp hwalk.value?_results).1
      · rw [if_neg fun hkey => hother (SlotKey.reference.inj hkey)] at hvalue
        exact ih hs index body' e' hbody' hvalue
  | node _ hmade hnew hfill ih =>
      intro index body e hbody hvalue
      refine value?_fill_of_filled hfill hnew ?_
      rw [value?_fill hfill, if_neg SlotKey.noConfusion] at hvalue
      rw [hmade.value?_eq] at hvalue ⊢
      exact ih hs index body e hbody hvalue

end LoweringContext

namespace Program

/-- The first expression that is no reference itself, going from an expression through references. -/
inductive StandsFor (p : Program) : Nat → Nat → Prop where
  | self {index : Nat} {body : Node} (hbody : p.exprs[index]? = some body)
      (hnode : body.reference? = none) : StandsFor p index index
  | through {index other last : Nat} {ty : LogicalType}
      (hbody : p.exprs[index]? = some (.localRef other ty)) (h : StandsFor p other last) :
      StandsFor p index last

variable {p : Program} {index last : Nat}

theorem exists_standsFor (hindex : index < p.exprs.length) : ∃ last, p.StandsFor index last := by
  induction index using Nat.strongRecOn with
  | ind index ih =>
      have hbody := List.getElem?_eq_getElem hindex
      cases hnode : p.exprs[index].reference? with
      | none => exact ⟨index, .self hbody hnode⟩
      | some other =>
          generalize p.exprs[index] = body at hbody hnode
          cases body with
          | localRef other' ty =>
              have hlt : other' < index := Node.lt_of_localRef_fault? (fault?_of_expr hbody)
              obtain ⟨last, h⟩ := ih other' hlt (Nat.lt_trans hlt hindex)
              exact ⟨last, .through hbody h⟩
          | inputRef | literal | call | case | dynamicParam => cases hnode

theorem Reaches.lt_of_mem_references {items : List (Place × Node)} {place : Place} {node : Node}
    (h : p.Reaches items place node)
    (hitems : ∀ item ∈ items, ∀ index ∈ item.2.references, index < p.exprs.length) :
    ∀ index ∈ node.references, index < p.exprs.length := by
  induction h with
  | root hmem => exact hitems _ hmem
  | step _ hbelow ih =>
      intro index hindex
      cases hbelow with
      | child hitem =>
          exact ih index
            (Node.mem_references_of_mem_children (Place.mem_of_mem_childItems hitem) hindex)
      | body hbody =>
          exact Nat.lt_trans (Node.lt_of_mem_references (fault?_of_expr hbody) hindex)
            (List.getElem?_eq_some_iff.mp hbody).1

end Program

/-! ### The end of a pass -/

namespace PassRequest

variable {r : PassRequest} {block : Block} {shared : List Nat} {es : List Expr} {s : LoweringState}
  {index last : Nat} {key : SlotKey} {e : Expr}

theorem lt_of_mem_references (r : PassRequest) : ∀ root ∈ r.items.map Prod.snd,
    ∀ index ∈ root.references, index < r.context.program.exprs.length := by
  intro root hroot index hindex
  obtain ⟨item, hitem, rfl⟩ := List.mem_map.mp hroot
  exact (r.ahead_items .empty []).backward item hitem index hindex

theorem Ends.perm_referenceIndexes (h : r.Ends block shared es s) :
    s.referenceIndexes.Perm (r.context.program.reached (r.items.map Prod.snd)) := by
  refine (List.perm_ext_iff_of_nodup (LoweringState.nodup_referenceIndexes h.nodup_keys)
    (Program.nodup_reached _ _)).mpr fun index => ?_
  rw [LoweringState.mem_referenceIndexes, h.filled_iff]
  constructor
  · rintro ⟨place, node, hreaches, hkey⟩
    cases node with
    | localRef index' ty =>
        obtain rfl := SlotKey.reference.inj hkey
        have hself := Node.mem_references_localRef index' ty
        exact hreaches.references_reached index' hself (hreaches.lt_of_mem_references
          (fun item hitem => r.lt_of_mem_references _ (List.mem_map_of_mem hitem)) index' hself)
    | inputRef | literal | call | case | dynamicParam => cases hkey
  · intro hindex
    obtain ⟨place, ty, hreaches⟩ := Program.Reaches.of_mem_reached hindex
    exact ⟨place, _, hreaches, rfl⟩

/-- **Analysis and walk agree.** A reference is asked for as often as it occurs. -/
theorem Ends.useCount_eq (h : r.Ends block shared es s) (index : Nat) :
    s.useCount (.reference index) =
      r.context.program.occurrences (r.items.map Prod.snd) index := by
  have hcount := h.walks.useCount_eq index
  have hstart : r.context.bodyReferences ⟨block, [], shared⟩ = [] := rfl
  have hunused : LoweringState.useCount ⟨block, [], shared⟩ (.reference index) = 0 := rfl
  rw [hstart, hunused, List.count_nil, Nat.add_zero, Nat.zero_add] at hcount
  rw [hcount, Program.occurrences, List.flatMap_map, LoweringContext.bodyReferences,
    (h.perm_referenceIndexes.flatMap_right _).count_eq]

/-- Under the policy by usage, the pass found the usage of its outputs and went by it. -/
theorem Ends.exists_usage (h : r.Ends block shared es s) (hpolicy : r.context.policy = .shared) :
    ∃ usage, Usage.ofRoots? r.context.program (r.items.map Prod.snd) = some usage ∧
      (∀ index, index ∈ shared ↔ 1 < usage.count index) ∧
      ∀ index, usage.count index = r.context.program.occurrences (r.items.map Prod.snd) index := by
  have hshares := h.shares
  simp only [LoweringContext.Shares, hpolicy] at hshares
  obtain ⟨usage, husage, rfl⟩ := hshares
  obtain ⟨usage', husage', hcount⟩ := Usage.exists_ofRoots? r.lt_of_mem_references
  obtain rfl := Option.some.inj (husage.symm.trans husage')
  exact ⟨usage, husage, usage.mem_shared, hcount⟩

theorem Ends.value?_of_standsFor (h : r.Ends block shared es s)
    (hstands : r.context.program.StandsFor index last) (hvalue : s.value? (.reference index) = some e) :
    s.value? (.node (.root (.expr last))) = some e := by
  have hfollows : r.context.Follows s := h.walks.follows fun _ _ _ _ hnone => by cases hnone
  induction hstands with
  | @self index body hbody hnode =>
      have hself := hfollows index body e hbody hvalue
      rwa [Node.slotKey_of_reference? hnode] at hself
  | through hbody _ ih => exact ih (hfollows _ _ e hbody hvalue)

/-- **What a pass made of a node stands for it.** Each node that the pass comes by has a slot in the
end, and the value there reads like the node in every reading of the pass. -/
theorem Ends.reads (h : r.Ends block shared es s) {Inv : Block → Prop}
    {Means : Block → Node → Expr → Prop} (R : r.context.Reading Inv Means) (hinv : Inv block)
    {place : Place} {node : Node} (hreaches : r.context.program.Reaches r.items place node) :
    ∃ e, s.value? (node.slotKey place) = some e ∧ Means s.block node e := by
  obtain ⟨hinv', hslots, -⟩ := h.lowers.reads R nodeAt?_of_mem_items hinv
    (fun _ _ hnone => by cases hnone)
  have hplace := hreaches.nodeAt? nodeAt?_of_mem_items
  have hfilled := (h.filled_iff _).mpr ⟨place, node, hreaches, rfl⟩
  cases hslot : s.slot? (node.slotKey place) with
  | none => exact absurd hfilled (LoweringContext.not_filled_of_slot? hslot)
  | some slot =>
      obtain ⟨found, hfound, hmeans⟩ := hslots _ slot (LoweringState.mem_of_slot? hslot)
      refine ⟨slot.value, LoweringState.value?_of_slot? hslot, ?_⟩
      cases node with
      | localRef index ty => exact R.reference hinv' ⟨place, hplace⟩ hfound hmeans
      | inputRef | literal | call | case | dynamicParam =>
          rwa [Option.some.inj (hplace.symm.trans hfound)]

/-- What is named has a declared variable for its value. -/
theorem Ends.exists_target (h : r.Ends block shared es s) (hvalue : s.value? key = some e)
    (hnames : r.context.names shared key = true) : ∃ d ∈ s.block.statements, e = .var d.target := by
  obtain ⟨slot, hslot, rfl⟩ := Option.map_eq_some_iff.mp hvalue
  obtain ⟨d, hd, hholder⟩ := h.covers.held key slot (LoweringState.mem_of_slot? hslot) hnames
  exact ⟨d, hd, by rw [Slot.value, hholder]⟩

end PassRequest

end RowCode
