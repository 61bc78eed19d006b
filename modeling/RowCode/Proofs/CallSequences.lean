import RowCode.Proofs.LoweringSteps
import RowCode.Proofs.ReservedNames

/-!
# Calls on one translation

A translation may be called many times: on a node, on a list of nodes, on the operands of a node, in
any order, and some of the calls fail half way. Nothing is rolled back, so the slots and the block
have to agree after every step. They do: each variable that a slot holds is declared once, for what
the node of the slot became, and neither slots nor declarations are lost. A node that was lowered stays
so, whatever is called in between.
-/

namespace RowCode

/-- A node of the program, or one given beside it, with its place. -/
structure Spot (p : Program) (extras : List Node) where
  place : Place
  node : Node
  stands : p.nodeWith? extras place = some node

namespace Spot

variable {p : Program} {extras : List Node}

def item (spot : Spot p extras) : Place × Node := (spot.place, spot.node)

theorem resolves (spot : Spot p extras) (hextras : ∀ node ∈ extras, p.Resolves node) :
    p.Resolves spot.node := by
  obtain ⟨⟨origin, path⟩, node, hstands⟩ := spot
  obtain ⟨outer, houter, hsubset⟩ := Program.references_of_nodeBelow? hstands
  have hresolves : p.Resolves outer := by
    cases origin with
    | expr index => exact Program.resolves_body houter
    | project index =>
        refine Program.lt_of_mem_references_output ?_
        exact List.mem_append_left _ (List.mem_of_getElem? houter)
    | condition =>
        refine Program.lt_of_mem_references_output ?_
        exact List.mem_append_right _ (Option.mem_toList.mpr houter)
    | extra index => exact hextras outer (List.mem_of_getElem? houter)
  exact fun index hindex => hresolves index (hsubset hindex)

end Spot

/-- What can be asked of a translation. -/
inductive LoweringCall (p : Program) (extras : List Node) where
  | node (spot : Spot p extras)
  | list (spots : List (Spot p extras))
  | operands (spot : Spot p extras)

namespace Block

/-- The block has grown by declarations whose names were free. -/
structure Extends (b b' : Block) : Prop where
  names : b.names ⊆ b'.names
  added : ∃ added, b'.statements = b.statements ++ added ∧
    ∀ d ∈ added, d.name ∉ b.names ∧ d.name ∈ b'.names

variable {b b' : Block}

theorem Grows.extends (h : b.Grows b') : b.Extends b' := by
  obtain ⟨added, hstatements, hnames, hfresh⟩ := h.exists_added
  refine ⟨h.names_subset, added, hstatements, fun d hd => ⟨hfresh d hd, ?_⟩⟩
  rw [hnames]
  exact List.mem_append_left _ (List.mem_reverse.mpr (List.mem_map_of_mem hd))

theorem Extends.covered (h : b.Extends b') (hcovered : b.Covered) : b'.Covered := by
  obtain ⟨added, hstatements, hadded⟩ := h.added
  intro d hd
  rw [hstatements] at hd
  rcases List.mem_append.mp hd with hold | hnew
  · exact h.names (hcovered d hold)
  · exact (hadded d hnew).2

/-- The declarations of a name. -/
def declarationsOf (b : Block) (name : String) : List Declaration :=
  b.statements.filter fun d => d.name = name

theorem declarationsOf_eq_nil (hcovered : b.Covered) {name : String} (hname : name ∉ b.names) :
    b.declarationsOf name = [] := by
  refine List.filter_eq_nil_iff.mpr fun d hd hsame => hname ?_
  exact of_decide_eq_true hsame ▸ hcovered d hd

theorem Extends.declarationsOf_eq (h : b.Extends b') {name : String} (hname : name ∈ b.names) :
    b'.declarationsOf name = b.declarationsOf name := by
  obtain ⟨added, hstatements, hadded⟩ := h.added
  have hnone : added.filter (fun d => d.name = name) = [] := by
    refine List.filter_eq_nil_iff.mpr fun d hd hsame => (hadded d hd).1 ?_
    rwa [of_decide_eq_true hsame]
  rw [declarationsOf, hstatements, List.filter_append, hnone, List.append_nil, declarationsOf]

end Block

namespace LoweringState

/-- The variables that the slots hold. -/
def holders (s : LoweringState) : List Variable := s.slots.filterMap fun entry => entry.2.holder

/-- The slots and the block agree: each variable that a slot holds is declared once, for what the node
of the slot became, and slots hold variables of different names. -/
structure Consistent (s : LoweringState) : Prop where
  covered : s.block.Covered
  keys : (s.slots.map Prod.fst).Nodup
  declared : ∀ key slot v, (key, slot) ∈ s.slots → slot.holder = some v →
    s.block.declarationsOf v.name = [⟨v, slot.lowered, true⟩]
  distinct : (s.holders.map Variable.name).Nodup

variable {s s' : LoweringState}

theorem consistent_start {block : Block} (hcovered : block.Covered) : (start block).Consistent where
  covered := hcovered
  keys := List.nodup_nil
  declared _ _ _ hmem := by cases hmem
  distinct := List.nodup_nil

theorem mem_holders {v : Variable} :
    v ∈ s.holders ↔ ∃ key slot, (key, slot) ∈ s.slots ∧ slot.holder = some v := by
  simp only [holders, List.mem_filterMap, Prod.exists]

theorem Consistent.name_mem (h : s.Consistent) {v : Variable} (hv : v ∈ s.holders) :
    v.name ∈ s.block.names := by
  obtain ⟨key, slot, hmem, hholder⟩ := mem_holders.mp hv
  have hdeclared : (⟨v, slot.lowered, true⟩ : Declaration) ∈ s.block.declarationsOf v.name := by
    rw [h.declared key slot v hmem hholder]
    exact List.mem_cons_self
  exact h.covered _ (List.mem_of_mem_filter hdeclared)

theorem holders_touch (s : LoweringState) (key : SlotKey) : (s.touch key).holders = s.holders := by
  rw [holders, touch, List.filterMap_map, holders]
  refine List.filterMap_congr fun entry _ => ?_
  by_cases hkey : entry.1 = key <;> simp [hkey]

theorem Consistent.touch (h : s.Consistent) (key : SlotKey) : (s.touch key).Consistent where
  covered := h.covered
  keys := by
    rw [s.keys_touch]
    exact h.keys
  declared other slot v hmem hholder := by
    obtain ⟨old, hold, hsame, hlowered⟩ := mem_slots_touch hmem
    rw [hlowered]
    exact h.declared other old v hold (hsame ▸ hholder)
  distinct := by
    rw [s.holders_touch]
    exact h.distinct

theorem Consistent.extend (h : s.Consistent) {block : Block} (hextends : s.block.Extends block) :
    ({ s with block } : LoweringState).Consistent where
  covered := hextends.covered h.covered
  keys := h.keys
  declared key slot v hmem hholder := by
    have hname := h.name_mem (mem_holders.mpr ⟨key, slot, hmem, hholder⟩)
    exact (hextends.declarationsOf_eq hname).trans (h.declared key slot v hmem hholder)
  distinct := h.distinct

theorem holders_cons {key : SlotKey} {slot : Slot} (hslots : s'.slots = (key, slot) :: s.slots) :
    s'.holders = slot.holder.toList ++ s.holders := by
  rw [holders, hslots, List.filterMap_cons]
  cases slot.holder <;> rfl

theorem Consistent.cons (h : s.Consistent) {key : SlotKey} {slot : Slot} (hnew : ¬ s.Filled key)
    (hblock : s'.block = s.block) (hslots : s'.slots = (key, slot) :: s.slots)
    (hheld : ∀ v, slot.holder = some v →
      s.block.declarationsOf v.name = [⟨v, slot.lowered, true⟩] ∧
        v.name ∉ s.holders.map Variable.name) : s'.Consistent where
  covered := hblock ▸ h.covered
  keys := by
    rw [hslots, List.map_cons]
    exact List.nodup_cons.mpr ⟨hnew, h.keys⟩
  declared other slot' v hmem hholder := by
    rw [hslots] at hmem
    rw [hblock]
    rcases List.mem_cons.mp hmem with heq | hold
    · obtain ⟨-, rfl⟩ := Prod.mk.inj heq
      exact (hheld v hholder).1
    · exact h.declared other slot' v hold hholder
  distinct := by
    rw [holders_cons hslots, List.map_append]
    cases hholder : slot.holder with
    | none => exact h.distinct
    | some v => exact List.nodup_cons.mpr ⟨(hheld v hholder).2, h.distinct⟩

/-- **Filling an empty slot.** A variable that is declared for it has a name that was free. -/
theorem Consistent.fill {c : LoweringContext} {key : SlotKey} {lowered value : Expr}
    (h : s.Consistent) (hnew : ¬ s.Filled key) (hfill : c.fill key lowered s = (value, s')) :
    s'.Consistent := by
  rcases (LoweringContext.fill_cases hfill).2 with
    ⟨-, suggestion, -, hblock, hslots⟩ | ⟨-, -, hblock, hslots⟩
  · have hextended := h.extend (s.block.grows_declareFinal suggestion lowered).extends
    have hfresh := s.block.name_declareFinal_not_mem suggestion lowered
    refine hextended.cons hnew hblock hslots ?_
    intro v hholder
    obtain rfl := Option.some.inj hholder
    constructor
    · have hnone := Block.declarationsOf_eq_nil h.covered hfresh
      rw [Block.declarationsOf] at hnone ⊢
      rw [Block.statements_declareFinal, List.filter_append, hnone, List.nil_append]
      exact List.filter_cons_of_pos (decide_eq_true rfl)
    · intro hmem
      obtain ⟨v, hv, hname⟩ := List.mem_map.mp hmem
      apply hfresh
      rw [← hname]
      exact h.name_mem hv
  · refine h.cons hnew hblock hslots ?_
    intro v hholder
    cases hholder

end LoweringState

namespace Getter

/-- The getter only adds declarations of free names to a block. -/
def Appends (g : Getter) : Prop :=
  ∀ (block : Block) (index : Nat), block.Covered → block.Extends (g.field block index).2

/-- The getter may declare this for a field. -/
def Declares (g : Getter) (index : Nat) (d : Declaration) : Prop :=
  ∃ block : Block, d.name ∉ block.names ∧ d ∈ (g.field block index).2.statements

theorem rows_appends (c : LoweringContext) : (rows c.inputs).Appends := by
  intro block index _
  exact ((LoweringContext.contains_grows c).read index (.start block)).extends

/-- What is left of an earlier state: all declarations, and what the slots hold. What was declared
since then was declared for a slot that was empty: by the getter, or to hold what the node became. -/
structure Later (g : Getter) (c : LoweringContext) (extras : List Node) (s s' : LoweringState) :
    Prop where
  kept : ∀ key slot, s.slot? key = some slot → ∃ slot', s'.slot? key = some slot' ∧
    slot'.holder = slot.holder ∧ slot'.lowered = slot.lowered
  added : ∃ added, s'.block.statements = s.block.statements ++ added ∧ ∀ d ∈ added,
    (∃ place index ty, c.program.nodeWith? extras place = some (.inputRef index ty) ∧
      ¬ s.Filled (.node place) ∧ g.Declares index d) ∨
    ∃ key slot, ¬ s.Filled key ∧ s'.slot? key = some slot ∧
      slot.holder = some d.target ∧ slot.lowered = d.init

variable {g : Getter} {c : LoweringContext} {extras : List Node} {s s' s'' : LoweringState}

theorem Later.refl (s : LoweringState) : g.Later c extras s s where
  kept _ slot hslot := ⟨slot, hslot, rfl, rfl⟩
  added := ⟨[], (List.append_nil _).symm, by simp⟩

theorem Later.filled (h : g.Later c extras s s') {key : SlotKey} (hfilled : s.Filled key) :
    s'.Filled key := by
  cases hslot : s.slot? key with
  | none => exact absurd hfilled (LoweringContext.not_filled_of_slot? hslot)
  | some slot =>
      obtain ⟨slot', hslot', -⟩ := h.kept key slot hslot
      exact LoweringState.filled_of_slot? hslot'

theorem Later.trans (h : g.Later c extras s s') (h' : g.Later c extras s' s'') :
    g.Later c extras s s'' := by
  constructor
  · intro key slot hslot
    obtain ⟨slot', hslot', hholder', hlowered'⟩ := h.kept key slot hslot
    obtain ⟨slot'', hslot'', hholder'', hlowered''⟩ := h'.kept key slot' hslot'
    exact ⟨slot'', hslot'', hholder''.trans hholder', hlowered''.trans hlowered'⟩
  · obtain ⟨added, hstatements, hadded⟩ := h.added
    obtain ⟨added', hstatements', hadded'⟩ := h'.added
    refine ⟨added ++ added', by rw [hstatements', hstatements, List.append_assoc], ?_⟩
    intro d hd
    rcases List.mem_append.mp hd with hfirst | hsecond
    · refine (hadded d hfirst).imp_right ?_
      rintro ⟨key, slot, hempty, hslot, hholder, hlowered⟩
      obtain ⟨slot', hslot', hholder', hlowered'⟩ := h'.kept key slot hslot
      exact ⟨key, slot', hempty, hslot', hholder'.trans hholder, hlowered'.trans hlowered⟩
    · refine (hadded' d hsecond).imp ?_ ?_
      · rintro ⟨place, index, ty, hnode, hempty, hdeclares⟩
        exact ⟨place, index, ty, hnode, fun hfilled => hempty (h.filled hfilled), hdeclares⟩
      · rintro ⟨key, slot, hempty, hrest⟩
        exact ⟨key, slot, fun hfilled => hempty (h.filled hfilled), hrest⟩

theorem later_touch (s : LoweringState) (key : SlotKey) : g.Later c extras s (s.touch key) where
  kept other slot hslot := by
    refine ⟨_, by rw [LoweringState.slot?_touch, hslot, Option.map_some], ?_⟩
    by_cases hkey : other = key <;> simp [hkey]
  added := ⟨[], (List.append_nil _).symm, by simp⟩

theorem later_fill {key : SlotKey} {lowered value : Expr} (hnew : ¬ s.Filled key)
    (hfill : c.fill key lowered s = (value, s')) : g.Later c extras s s' := by
  have hkept : ∀ slot : Slot, s'.slots = (key, slot) :: s.slots → ∀ other slot₁,
      s.slot? other = some slot₁ → s'.slot? other = some slot₁ := by
    intro slot hslots other slot₁ hslot
    rw [LoweringState.slot?_of_slots_eq hslots, if_neg]
    · exact hslot
    · rintro rfl
      exact hnew (LoweringState.filled_of_slot? hslot)
  rcases (LoweringContext.fill_cases hfill).2 with
    ⟨-, suggestion, -, hblock, hslots⟩ | ⟨-, -, hblock, hslots⟩
  · constructor
    · exact fun other slot hslot => ⟨slot, hkept _ hslots other slot hslot, rfl, rfl⟩
    · refine ⟨_, by rw [hblock, Block.statements_declareFinal], fun d hd => Or.inr ?_⟩
      rw [List.mem_singleton.mp hd]
      exact ⟨key, _, hnew, by rw [LoweringState.slot?_of_slots_eq hslots, if_pos rfl], rfl, rfl⟩
  · constructor
    · exact fun other slot hslot => ⟨slot, hkept _ hslots other slot hslot, rfl, rfl⟩
    · exact ⟨[], by rw [hblock, List.append_nil], by simp⟩

/-- **The step.** -/
theorem Step.consistent (hgetter : g.Appends) (hstep : g.Step c extras s s') (hs : s.Consistent) :
    s'.Consistent ∧ g.Later c extras s s' := by
  cases hstep with
  | share indexes =>
      exact ⟨⟨hs.covered, hs.keys, hs.declared, hs.distinct⟩,
        ⟨fun _ slot hslot => ⟨slot, hslot, rfl, rfl⟩, [], (List.append_nil _).symm, by simp⟩⟩
  | reuse hfilled => exact ⟨hs.touch _, later_touch s _⟩
  | @read place index ty _ hnode hempty =>
      have hextends := hgetter s.block index hs.covered
      refine ⟨hs.extend hextends, fun _ slot hslot => ⟨slot, hslot, rfl, rfl⟩, ?_⟩
      obtain ⟨added, hstatements, hadded⟩ := hextends.added
      refine ⟨added, hstatements, fun d hd => Or.inl ⟨place, index, ty, hnode, hempty, ?_⟩⟩
      refine ⟨s.block, (hadded d hd).1, ?_⟩
      rw [hstatements]
      exact List.mem_append_right _ hd
  | fill hempty lowered =>
      exact ⟨hs.fill hempty (Prod.eta _).symm, later_fill hempty (Prod.eta _).symm⟩

/-- **The run.** -/
theorem Steps.consistent (hgetter : g.Appends) (hsteps : g.Steps c extras s s') (hs : s.Consistent) :
    s'.Consistent ∧ g.Later c extras s s' := by
  induction hsteps with
  | refl => exact ⟨hs, .refl s⟩
  | tail _ hstep ih =>
      obtain ⟨hmiddle, hlater⟩ := ih
      obtain ⟨hlast, hlater'⟩ := hstep.consistent hgetter hmiddle
      exact ⟨hlast, hlater.trans hlater'⟩

/-! ### Calls -/

section Calls

variable (g c)

def perform : LoweringCall c.program extras → Lowering (List Expr)
  | .node spot => do
    let e ← g.lower c spot.place spot.node
    pure [e]
  | .list spots => g.lowerAll c (spots.map Spot.item)
  | .operands spot => g.lowerOperandsOf c spot.place spot.node

/-- The state after some calls, whether they succeed or not. -/
def after : List (LoweringCall c.program extras) → LoweringState → LoweringState
  | [], s => s
  | call :: rest, s => after rest (g.perform c call s).2

end Calls

theorem operands_eq_children (node : Node) : node.operands = node.children ∨ node.operands = [] := by
  cases node <;> simp [Node.operands, Node.children]

theorem steps_perform (hextras : ∀ node ∈ extras, c.program.Resolves node)
    (call : LoweringCall c.program extras) : (g.perform c call).Within (g.Steps c extras) := by
  cases call with
  | node spot =>
      have hspot := steps_lower (g := g) (spot.resolves hextras) fun _ => spot.stands
      exact hspot.bind (fun _ _ _ => .trans) fun e s => .refl
  | list spots =>
      refine steps_lowerAll fun item hitem => ?_
      obtain ⟨spot, -, rfl⟩ := List.mem_map.mp hitem
      exact ⟨spot.resolves hextras, fun _ => spot.stands⟩
  | operands spot =>
      rw [perform, lowerOperandsOf, lowerOperands_eq_lowerEach]
      refine steps_lowerEach fun item hitem => ?_
      rcases operands_eq_children spot.node with hchildren | hnone
      · rw [hchildren] at hitem
        have hchild := Place.mem_of_mem_childItems hitem
        refine ⟨fun index hindex => ?_, fun _ => Program.stands_childItems spot.stands hitem⟩
        exact spot.resolves hextras index (Node.mem_references_of_mem_children hchild hindex)
      · rw [hnone] at hitem
        cases hitem

theorem steps_after (hextras : ∀ node ∈ extras, c.program.Resolves node)
    (calls : List (LoweringCall c.program extras)) (s : LoweringState) :
    g.Steps c extras s (g.after c calls s) := by
  induction calls generalizing s with
  | nil => exact .refl
  | cons call rest ih => exact (steps_perform hextras call s).trans (ih _)

/-- **What was lowered stays so.** -/
theorem lower_again {place : Place} {node : Node} {e : Expr} (hnode : c.program.Resolves node)
    (hrun : g.lower c place node s = (.ok e, s')) (hlater : g.Later c extras s' s'') :
    g.lower c place node s'' = (.ok e, s''.touch (node.slotKey place)) := by
  obtain ⟨slot, hslot, rfl⟩ := exists_slot_of_lower_ok hnode hrun
  obtain ⟨slot', hslot', hholder, hlowered⟩ := hlater.kept _ slot hslot
  rw [lower_of_slot? hnode hslot', Slot.value, hholder, hlowered, Slot.value]

/-- **Slots and block agree in every run.** Let the getter only add declarations of free names, let the
nodes given beside the program refer to expressions of it, and let the names that the block declares be
reserved. Then any calls, whether they succeed or not, lead on by steps. Whatever steps are taken, the
slots and the block agree, and nothing is lost that was declared or held before. A node that was lowered
becomes the same expression in every later call, without any declaration; and where a call failed,
calling again declares nothing for the slots that were filled. -/
theorem calls_keep_slots (g : Getter) (c : LoweringContext) (extras : List Node) (block : Block)
    (hgetter : g.Appends) (hextras : ∀ node ∈ extras, c.program.Resolves node)
    (hblock : block.Covered) :
    (∀ calls : List (LoweringCall c.program extras),
      g.Steps c extras (.start block) (g.after c calls (.start block))) ∧
    ∀ s, g.Steps c extras (.start block) s →
      s.Consistent ∧
      (∀ s', g.Steps c extras s s' → g.Later c extras s s') ∧
      (∀ call : LoweringCall c.program extras, g.Steps c extras s (g.perform c call s).2) ∧
      (∀ (spot : Spot c.program extras) (e : Expr) (s' s'' : LoweringState),
        g.lower c spot.place spot.node s = (.ok e, s') → g.Steps c extras s' s'' →
          ∃ last, g.lower c spot.place spot.node s'' = (.ok e, last) ∧ last.block = s''.block) ∧
      ∀ (call : LoweringCall c.program extras) (e : LoweringError) (s' : LoweringState),
        g.perform c call s = (.error e, s') → g.Later c extras s' (g.perform c call s').2 := by
  refine ⟨fun calls => steps_after hextras calls _, fun s hsteps => ?_⟩
  have hreached : ∀ s, g.Steps c extras (.start block) s → s.Consistent := fun s hsteps =>
    (hsteps.consistent hgetter (LoweringState.consistent_start hblock)).1
  have hlater : ∀ s s', g.Steps c extras (.start block) s → g.Steps c extras s s' →
      g.Later c extras s s' :=
    fun s s' hsteps hsteps' => (hsteps'.consistent hgetter (hreached s hsteps)).2
  have hperform := fun call : LoweringCall c.program extras => steps_perform (g := g) hextras call s
  refine ⟨hreached s hsteps, fun s' => hlater s s' hsteps, hperform, ?_, ?_⟩
  · intro spot e s' s'' hrun hsteps'
    have hnode := spot.resolves hextras
    have hfirst := steps_lower (g := g) hnode (fun _ => spot.stands) s
    rw [hrun] at hfirst
    exact ⟨_, lower_again hnode hrun (hlater s' s'' (hsteps.trans hfirst) hsteps'), rfl⟩
  · intro call e s' hrun
    have hfirst := hperform call
    rw [hrun] at hfirst
    exact hlater s' _ (hsteps.trans hfirst) (steps_perform hextras call s')

/-- A node beside the program of `likeContext`. -/
def presence : Node := .call .isNotNull [.localRef 1 (.notNull .varchar)] (.notNull .boolean)

/-- The projections, the second of which fails, then an operand of the node beside the program, and the
projections again. -/
def retriedCalls : List (LoweringCall LoweringContext.likeContext.program [presence]) :=
  let first : Spot LoweringContext.likeContext.program [presence] :=
    ⟨.root (.project 0), .localRef 1 (.notNull .varchar), rfl⟩
  let second : Spot LoweringContext.likeContext.program [presence] :=
    ⟨.root (.project 1), .localRef 2 (.notNull .boolean), rfl⟩
  [.list [first, second], .operands ⟨.root (.extra 0), presence, rfl⟩, .list [first, second]]

theorem retried_list_declares_nothing_twice :
    ((rows LoweringContext.likeContext.inputs).after LoweringContext.likeContext retriedCalls
        (.start LoweringContext.usedBlock)).block.statements.map Declaration.name =
          ["v1", "current0_1", "v2"] ∧
      ((rows LoweringContext.likeContext.inputs).after LoweringContext.likeContext retriedCalls
        (.start LoweringContext.usedBlock)).Consistent := by
  have hextras : ∀ node ∈ [presence], LoweringContext.likeContext.program.Resolves node := by
    intro node hnode index hindex
    obtain rfl := List.mem_singleton.mp hnode
    have hreferences : presence.references = [1] := by rfl
    rw [hreferences] at hindex
    rw [List.mem_singleton.mp hindex]
    decide
  have hcovered : LoweringContext.usedBlock.Covered := by
    intro d hd
    obtain rfl := List.mem_singleton.mp hd
    decide
  obtain ⟨hafter, hreached⟩ := calls_keep_slots (rows LoweringContext.likeContext.inputs)
    LoweringContext.likeContext [presence] LoweringContext.usedBlock (rows_appends _) hextras hcovered
  exact ⟨by decide +kernel, (hreached _ (hafter retriedCalls)).1⟩

end Getter

end RowCode
