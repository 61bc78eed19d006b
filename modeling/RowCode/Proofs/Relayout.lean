import Mathlib.Data.Set.Function
import RowCode.Proofs.Lockstep

/-!
# Programs laid out in another way

The order of the expressions of a program is free as long as references lead backward, and it may
hold expressions that no output leads to. If the expressions that the projections lead to are found in
another program, perhaps at other indexes, then the slots of the two passes are the same up to the
indexes, and nothing that is declared or returned depends on these.
-/

namespace RowCode

variable (f : Nat → Nat)

namespace Node

/-! A node with other indexes in its local references. -/

mutual

def rename : Node → Node
  | localRef index ty => localRef (f index) ty
  | call op operands ty => call op (renameAll operands) ty
  | case branches otherwise ty => case (renameBranches branches) (rename otherwise) ty
  | inputRef index ty => inputRef index ty
  | literal value ty => literal value ty
  | dynamicParam index ty => dynamicParam index ty

def renameAll : List Node → List Node
  | [] => []
  | node :: rest => rename node :: renameAll rest

def renameBranches : List (Node × Node) → List (Node × Node)
  | [] => []
  | (condition, result) :: rest => (rename condition, rename result) :: renameBranches rest

end

theorem renameAll_eq (nodes : List Node) : renameAll f nodes = nodes.map (rename f) := by
  induction nodes with
  | nil => rfl
  | cons node rest ih => rw [renameAll, ih, List.map_cons]

theorem flattenBranches_renameBranches (branches : List (Node × Node)) :
    flattenBranches (renameBranches f branches) = (flattenBranches branches).map (rename f) := by
  induction branches with
  | nil => rfl
  | cons branch rest ih =>
      rw [renameBranches, flattenBranches, flattenBranches, ih, List.map_cons, List.map_cons]

@[simp]
theorem children_rename (node : Node) : (node.rename f).children = node.children.map (rename f) := by
  cases node with
  | call op operands ty => rw [rename, children, children, renameAll_eq]
  | case branches otherwise ty =>
      rw [rename, children, children, flattenBranches_renameBranches, List.map_append,
        List.map_singleton]
  | inputRef | localRef | literal | dynamicParam => rfl

@[simp]
theorem operator?_rename (node : Node) : (node.rename f).operator? = node.operator? := by
  cases node <;> rfl

@[simp]
theorem ty_rename (node : Node) : (node.rename f).ty = node.ty := by
  cases node <;> rfl

@[simp]
theorem reference?_rename (node : Node) : (node.rename f).reference? = node.reference?.map f := by
  cases node <;> rfl

theorem rename_of_leaf {node : Node} (hop : node.operator? = none)
    (hreference : node.reference? = none) : node.rename f = node := by
  cases node with
  | inputRef | literal | dynamicParam => rfl
  | localRef => cases hreference
  | call | case => cases hop

@[simp]
theorem references_rename (node : Node) : (node.rename f).references = node.references.map f := by
  induction node using children_induction with
  | step node ih =>
      cases hreference : node.reference? with
      | none =>
          have hreference' : (node.rename f).reference? = none := by
            rw [reference?_rename, hreference, Option.map_none]
          rw [references_of_reference?_none hreference, references_of_reference?_none hreference',
            children_rename, List.flatMap_map, List.map_flatMap]
          exact List.flatMap_congr ih
      | some index =>
          cases node with
          | localRef index ty => rw [rename, references_localRef, references_localRef]; rfl
          | inputRef | literal | call | case | dynamicParam => cases hreference

end Node

/-! ### Slots -/

def Origin.rename : Origin → Origin
  | .expr index => .expr (f index)
  | origin => origin

def Place.rename (place : Place) : Place := ⟨place.origin.rename f, place.path⟩

def SlotKey.rename : SlotKey → SlotKey
  | .reference index => .reference (f index)
  | .node place => .node (place.rename f)

/-- Whether the origin is an expression that is met, if it is an expression. -/
def Origin.Within (met : Set Nat) : Origin → Prop
  | .expr index => index ∈ met
  | _ => True

def SlotKey.Within (met : Set Nat) : SlotKey → Prop
  | .reference index => index ∈ met
  | .node place => place.origin.Within met

variable {f} {met : Set Nat}

theorem Origin.rename_inj (hf : Set.InjOn f met) {origin origin' : Origin}
    (horigin : origin.Within met) (horigin' : origin'.Within met)
    (h : origin.rename f = origin'.rename f) : origin = origin' := by
  cases origin with
  | expr index =>
      cases origin' with
      | expr index' => rw [hf horigin horigin' (Origin.expr.inj h)]
      | project | condition | extra => cases h
  | project | condition | extra => cases origin' <;> first | exact h | cases h

theorem Place.rename_inj (hf : Set.InjOn f met) {place place' : Place}
    (hplace : place.origin.Within met) (hplace' : place'.origin.Within met)
    (h : place.rename f = place'.rename f) : place = place' := by
  obtain ⟨horigin, hpath⟩ := Place.mk.inj h
  calc
    place = ⟨place.origin, place.path⟩ := rfl
    _ = ⟨place'.origin, place'.path⟩ := by
      rw [Origin.rename_inj hf hplace hplace' horigin, hpath]

theorem SlotKey.rename_inj (hf : Set.InjOn f met) {key key' : SlotKey} (hkey : key.Within met)
    (hkey' : key'.Within met) (h : key.rename f = key'.rename f) : key = key' := by
  cases key with
  | reference index =>
      cases key' with
      | reference index' => rw [hf hkey hkey' (SlotKey.reference.inj h)]
      | node => cases h
  | node place =>
      cases key' with
      | reference => cases h
      | node place' => rw [Place.rename_inj hf hkey hkey' (SlotKey.node.inj h)]

theorem Node.slotKey_rename (place : Place) (node : Node) :
    (node.rename f).slotKey (place.rename f) = (node.slotKey place).rename f := by
  cases node <;> rfl

namespace LoweringState

/-- The same state, but for the indexes in the keys of its slots; of the expressions that are met, the
same ones are shared. -/
structure Renamed (f : Nat → Nat) (met : Set Nat) (s t : LoweringState) : Prop where
  block : t.block = s.block
  slots : t.slots = s.slots.map fun entry => (entry.1.rename f, entry.2)
  within : ∀ entry ∈ s.slots, entry.1.Within met
  shared : ∀ index ∈ met, f index ∈ t.shared ↔ index ∈ s.shared

namespace Renamed

variable {s t : LoweringState} {key : SlotKey}

theorem key_inj (h : Renamed f met s t) (hf : Set.InjOn f met) (hkey : key.Within met) :
    ∀ entry ∈ s.slots, entry.1.rename f = key.rename f → entry.1 = key := fun entry hentry =>
  SlotKey.rename_inj hf (h.within entry hentry) hkey

theorem slot?_eq (h : Renamed f met s t) (hf : Set.InjOn f met) (hkey : key.Within met) :
    t.slot? (key.rename f) = s.slot? key := by
  rw [slot?_of_slots_map (k := id) h.slots (h.key_inj hf hkey), Option.map_id_apply]

theorem touch (h : Renamed f met s t) (hf : Set.InjOn f met) (hkey : key.Within met) :
    Renamed f met (s.touch key) (t.touch (key.rename f)) where
  block := h.block
  slots := slots_touch_of_map (k := id) h.slots (h.key_inj hf hkey) fun _ => rfl
  within entry hentry := by
    obtain ⟨old, hold, rfl⟩ := List.mem_map.mp hentry
    have hwithin := h.within old hold
    dsimp only
    split <;> exact hwithin
  shared := h.shared

theorem names_eq (h : Renamed f met s t) (hkey : key.Within met) (c : LoweringContext) :
    c.names t.shared (key.rename f) = c.names s.shared key := by
  cases key with
  | reference index => rfl
  | node place =>
      obtain ⟨origin, path⟩ := place
      cases hpolicy : c.policy with
      | all => simp only [SlotKey.rename, LoweringContext.names, hpolicy]
      | shared =>
          cases origin with
          | expr index =>
              cases path with
              | nil =>
                  simpa [SlotKey.rename, LoweringContext.names, hpolicy, Place.rename,
                    Origin.rename] using h.shared index hkey
              | cons position path =>
                  simp [SlotKey.rename, LoweringContext.names, hpolicy, Place.rename, Origin.rename]
          | project | condition | extra =>
              simp [SlotKey.rename, LoweringContext.names, hpolicy, Place.rename, Origin.rename]

theorem fill (h : Renamed f met s t) (hkey : key.Within met) (c : LoweringContext) (lowered : Expr) :
    (c.fill (key.rename f) lowered t).1 = (c.fill key lowered s).1 ∧
      Renamed f met (c.fill key lowered s).2 (c.fill (key.rename f) lowered t).2 := by
  have hlength : t.slots.length = s.slots.length := by rw [h.slots, List.length_map]
  have hwithin : ∀ slot, ∀ entry ∈ (key, slot) :: s.slots, entry.1.Within met := fun slot =>
    List.forall_mem_cons.mpr ⟨hkey, h.within⟩
  unfold LoweringContext.fill
  rw [h.names_eq hkey, h.block, hlength]
  split
  · refine ⟨rfl, rfl, ?_, hwithin _, h.shared⟩
    rw [h.slots]
    rfl
  · refine ⟨rfl, rfl, ?_, hwithin _, h.shared⟩
    rw [h.slots]
    rfl

end Renamed

end LoweringState

/-! ### Programs -/

namespace Program

/-- What the roots lead to in one program is found in the other, where the indexes are renamed. -/
structure FoundIn (p q : Program) (roots : List Node) (f : Nat → Nat) : Prop where
  injective : Set.InjOn f {index | index ∈ p.reached roots}
  exprs : ∀ index ∈ p.reached roots, q.exprs[f index]? = (p.exprs[index]?).map (Node.rename f)

namespace FoundIn

variable {p q : Program} {roots : List Node} {f : Nat → Nat}

theorem referencesOf_eq (h : p.FoundIn q roots f) {index : Nat} (hindex : index ∈ p.reached roots) :
    q.referencesOf (f index) = (p.referencesOf index).map f := by
  have hbody := List.getElem?_eq_getElem (lt_of_mem_reached hindex)
  have hbody' := h.exprs index hindex
  rw [hbody, Option.map_some] at hbody'
  rw [Program.referencesOf_eq hbody, Program.referencesOf_eq hbody', Node.references_rename]

theorem lt (h : p.FoundIn q roots f) {index : Nat} (hindex : index ∈ p.reached roots) :
    f index < q.exprs.length := by
  have hbody := h.exprs index hindex
  rw [List.getElem?_eq_getElem (lt_of_mem_reached hindex), Option.map_some] at hbody
  exact (List.getElem?_eq_some_iff.mp hbody).1

theorem mem_reached_iff (h : p.FoundIn q roots f)
    (hroots : ∀ root ∈ roots, ∀ index ∈ root.references, index < p.exprs.length) (other : Nat) :
    other ∈ q.reached (roots.map (Node.rename f)) ↔ other ∈ (p.reached roots).map f := by
  have hroot : ∀ root ∈ roots, ∀ index ∈ root.references, index ∈ p.reached roots :=
    fun root hroot index hindex => mem_reached_of_root hroot hindex (hroots root hroot index hindex)
  constructor
  · revert other
    refine reached_least (fun root hmem index hindex => ?_) fun index hindex other hother => ?_
    · obtain ⟨node, hnode, rfl⟩ := List.mem_map.mp hmem
      rw [Node.references_rename] at hindex
      obtain ⟨old, hold, rfl⟩ := List.mem_map.mp hindex
      exact List.mem_map_of_mem (hroot node hnode old hold)
    · obtain ⟨old, hold, rfl⟩ := List.mem_map.mp hindex
      rw [h.referencesOf_eq hold] at hother
      obtain ⟨next, hnext, rfl⟩ := List.mem_map.mp hother
      exact List.mem_map_of_mem (reached_closed hold hnext)
  · intro hother
    obtain ⟨index, hindex, rfl⟩ := List.mem_map.mp hother
    refine (reached_least (P := fun index => index ∈ p.reached roots ∧
      f index ∈ q.reached (roots.map (Node.rename f))) ?_ ?_ index hindex).2
    · intro root hmem index hindex
      have hreached := hroot root hmem index hindex
      refine ⟨hreached, mem_reached_of_root (List.mem_map_of_mem hmem) ?_ (h.lt hreached)⟩
      rw [Node.references_rename]
      exact List.mem_map_of_mem hindex
    · rintro index ⟨hindex, hindex'⟩ other hother
      refine ⟨reached_closed hindex hother, reached_closed hindex' ?_⟩
      rw [h.referencesOf_eq hindex]
      exact List.mem_map_of_mem hother

theorem perm_reached (h : p.FoundIn q roots f)
    (hroots : ∀ root ∈ roots, ∀ index ∈ root.references, index < p.exprs.length) :
    (q.reached (roots.map (Node.rename f))).Perm ((p.reached roots).map f) := by
  have hnodup : ((p.reached roots).map f).Nodup :=
    List.Nodup.map_on (fun _ hi _ hj => h.injective hi hj) (p.nodup_reached roots)
  exact (List.perm_ext_iff_of_nodup (q.nodup_reached _) hnodup).mpr (h.mem_reached_iff hroots)

/-- An expression that the roots lead to is referred to as often in the other program. -/
theorem occurrences_eq (h : p.FoundIn q roots f)
    (hroots : ∀ root ∈ roots, ∀ index ∈ root.references, index < p.exprs.length) {index : Nat}
    (hindex : index ∈ p.reached roots) :
    q.occurrences (roots.map (Node.rename f)) (f index) = p.occurrences roots index := by
  have hcount : ∀ indexes : List Nat, (∀ other ∈ indexes, other ∈ p.reached roots) →
      (indexes.map f).count (f index) = indexes.count index := by
    intro indexes hindexes
    rw [List.count_eq_countP, List.countP_map, List.count_eq_countP]
    refine List.countP_congr fun other hother => ?_
    rw [Function.comp_apply, beq_iff_eq, beq_iff_eq]
    exact h.injective.eq_iff (hindexes other hother) hindex
  have hrootReferences : (roots.map (Node.rename f)).flatMap Node.references =
      (roots.flatMap Node.references).map f := by
    rw [List.flatMap_map, List.map_flatMap]
    exact List.flatMap_congr fun root _ => Node.references_rename f root
  have hbodyReferences : ((p.reached roots).map f).flatMap q.referencesOf =
      ((p.reached roots).flatMap p.referencesOf).map f := by
    rw [List.flatMap_map, List.map_flatMap]
    exact List.flatMap_congr fun other hother => h.referencesOf_eq hother
  rw [occurrences, occurrences, ((h.perm_reached hroots).flatMap_right _).count_eq,
    hrootReferences, hbodyReferences, hcount, hcount]
  · intro other hother
    obtain ⟨old, hold, hmem⟩ := List.mem_flatMap.mp hother
    exact reached_closed hold hmem
  · intro other hother
    obtain ⟨root, hroot, hmem⟩ := List.mem_flatMap.mp hother
    exact mem_reached_of_root hroot hmem (hroots root hroot other hmem)

end FoundIn

end Program

/-! ### Lowering -/

/-- A node and the same node in the other program: it lies in an expression that is met, or in none,
and only refers to expressions that are met. -/
def Corresponds (f : Nat → Nat) (met : Set Nat) (place : Place) (node : Node) (place' : Place)
    (node' : Node) : Prop :=
  place' = place.rename f ∧ node' = node.rename f ∧ place.origin.Within met ∧
    ∀ index ∈ node.references, index ∈ met

namespace Corresponds

variable {f : Nat → Nat} {met : Set Nat} {place place' : Place} {node node' : Node}

theorem slotKey (h : Corresponds f met place node place' node') :
    node'.slotKey place' = (node.slotKey place).rename f ∧ (node.slotKey place).Within met := by
  obtain ⟨rfl, rfl, hplace, hreferences⟩ := h
  refine ⟨Node.slotKey_rename place node, ?_⟩
  cases hreference : node.reference? with
  | none =>
      rw [Node.slotKey_of_reference? hreference]
      exact hplace
  | some index =>
      cases node with
      | localRef index ty => exact hreferences index (Node.mem_references_localRef index ty)
      | inputRef | literal | call | case | dynamicParam => cases hreference

theorem childItems_rename (place : Place) (position : Nat) (nodes : List Node) :
    (place.rename f).childItems position (nodes.map (Node.rename f)) =
      (place.childItems position nodes).map fun item => (item.1.rename f, item.2.rename f) := by
  induction nodes generalizing position with
  | nil => rfl
  | cons node rest ih =>
      rw [List.map_cons, Place.childItems, ih, Place.childItems, List.map_cons]
      rfl

theorem children (h : Corresponds f met place node place' node')
    (hreference : node.reference? = none) :
    List.Forall₂ (fun item item' => Corresponds f met item.1 item.2 item'.1 item'.2)
      (place.childItems 0 node.children) (place'.childItems 0 node'.children) := by
  obtain ⟨rfl, rfl, hplace, hreferences⟩ := h
  rw [Node.children_rename, childItems_rename, List.forall₂_map_right_iff, List.forall₂_same]
  intro item hitem
  obtain ⟨k, hchild, hitemPlace⟩ := Place.mem_childItems.mp hitem
  refine ⟨rfl, rfl, hitemPlace ▸ hplace, fun index hindex => hreferences index ?_⟩
  rw [Node.references_of_reference?_none hreference]
  exact List.mem_flatMap.mpr ⟨item.2, List.mem_of_getElem? hchild, hindex⟩

end Corresponds

namespace Program.FoundIn

variable {p q : Program} {roots : List Node} {f : Nat → Nat}

/-- The slots, the block and the results of the two passes are the same, but for the indexes in the
keys of the slots. -/
theorem simulation (h : p.FoundIn q roots f) (g : Getter) (c : LoweringContext) :
    Simulation g (c.on p) (c.on q)
      (LoweringState.Renamed f {index | index ∈ p.reached roots}) (fun _ _ => True)
      (Corresponds f {index | index ∈ p.reached roots}) (fun _ e e' => e' = e) where
  slot {place place' node node' x y} hpair hxy := by
    obtain ⟨hkey, hwithin⟩ := hpair.slotKey
    rw [hkey]
    refine hxy.withSlot (fun s t hst => ?_) (fun s t hst => hst.touch h.injective hwithin) ?_
    · rw [hst.slot?_eq h.injective hwithin]
      cases s.slot? (node.slotKey place) with
      | none => exact .none
      | some slot => exact .some rfl
    · rintro s t e e' hst rfl
      exact hst.fill hwithin c e'
  reference {place place' index ty node' body} hpair hbody := by
    obtain ⟨rfl, rfl, -, hreferences⟩ := hpair
    have hindex : index ∈ p.reached roots :=
      hreferences index (Node.mem_references_localRef index ty)
    have hbody' := h.exprs index hindex
    rw [show p.exprs[index]? = some body from hbody, Option.map_some] at hbody'
    refine ⟨f index, ty, body.rename f, rfl, hbody', ⟨rfl, rfl, hindex, fun other hother => ?_⟩, rfl⟩
    refine reached_closed hindex ?_
    rw [Program.referencesOf_eq (p := p) hbody]
    exact hother
  operation {place place' node node' op} hpair hop := by
    have hchildren := hpair.children (Node.reference?_of_operator? hop)
    obtain ⟨rfl, rfl, -, -⟩ := hpair
    refine ⟨by rw [Node.operator?_rename, hop], hchildren, fun args args' hargs => ?_⟩
    refine Lockstep.operation trivial trivial (optionRel_refl (fun strategy => ?_) _) hargs
    rw [Node.children_rename, List.length_map, Node.ty_rename]
    refine ⟨rfl, fun es es' hes => ?_⟩
    rw [hes.eq_of_forall_eq]
    refine optionRel_refl ?_ _
    exact fun e => rfl
  leaf {place place' node node'} hpair hop hreference := by
    obtain ⟨rfl, rfl, -, -⟩ := hpair
    rw [Node.rename_of_leaf f hop hreference]
    refine ⟨hop, hreference, ?_⟩
    cases node with
    | inputRef index ty =>
        intro s t hst
        rw [Getter.leaf, Getter.leaf, Getter.read, Getter.read, hst.block]
        rcases g.field s.block index with ⟨result, block⟩
        refine ⟨?_, rfl, hst.slots, hst.within, hst.shared⟩
        cases result with
        | ok e => exact .ok rfl
        | error e => exact .error trivial
    | literal value ty => exact .pure rfl
    | dynamicParam index ty => exact .throw trivial
    | localRef => cases hreference
    | call | case => cases hop

theorem forall₂_placed (hprojects : q.projects = p.projects.map (Node.rename f)) :
    List.Forall₂ (fun item item' =>
        Corresponds f {index | index ∈ p.reached p.projects} item.1 item.2 item'.1 item'.2)
      (LoweringContext.placed .project p.projects) (LoweringContext.placed .project q.projects) := by
  rw [hprojects, LoweringContext.placed_map, List.forall₂_map_right_iff, List.forall₂_same]
  intro item hitem
  obtain ⟨⟨node, position⟩, hnode, rfl⟩ := List.mem_map.mp hitem
  have hproject : node ∈ p.projects := List.fst_mem_of_mem_zipIdx hnode
  refine ⟨rfl, rfl, trivial, fun index hindex => mem_reached_of_root hproject hindex ?_⟩
  exact lt_of_mem_references_output (List.mem_append_left _ hproject) index hindex

theorem lowerProjects_ok_iff (h : p.FoundIn q p.projects f)
    (hprojects : q.projects = p.projects.map (Node.rename f)) (g : Getter) (c : LoweringContext)
    (block after : Block) (es : List Expr) :
    g.lowerProjects (c.on p) block = (.ok es, after) ↔
      g.lowerProjects (c.on q) block = (.ok es, after) := by
  have hroots : ∀ root ∈ p.projects, ∀ index ∈ root.references, index < p.exprs.length :=
    fun root hroot => lt_of_mem_references_output (List.mem_append_left _ hroot)
  have hstart : ∀ shared shared' : List Nat,
      (∀ index, index ∈ shared ↔ c.policy = .shared ∧ 1 < p.occurrences p.projects index) →
      (∀ index, index ∈ shared' ↔ c.policy = .shared ∧ 1 < q.occurrences q.projects index) →
      LoweringState.Renamed f {index | index ∈ p.reached p.projects} ⟨block, [], shared⟩
        ⟨block, [], shared'⟩ := by
    intro shared shared' hshared hshared'
    refine ⟨rfl, rfl, List.forall_mem_nil _, fun index hindex => ?_⟩
    have hcount := h.occurrences_eq hroots hindex
    rw [← hprojects] at hcount
    rw [hshared, hshared', hcount]
  rcases (h.simulation g c).lowerProjects (forall₂_placed hprojects) hstart with
    ⟨es₁, es₂, s, t, hp, hq, hes, hst⟩ | ⟨e, e', s, t, hp, hq, -, -⟩
  · rw [hp, hq, hes.eq_of_forall_eq, hst.block]
  · rw [hp, hq]
    constructor <;> intro hrun <;> cases (Prod.mk.inj hrun).1

end Program.FoundIn

/-- **Only what the projections lead to matters.** Let the expressions that the projections of one
program lead to be expressions of another, at indexes that differ for different ones, with their local
references renamed accordingly, and let the projections be the same up to the indexes. Whatever the
settings and wherever the fields come from, the two programs are lowered to the same expressions and
leave the same block, or neither can be lowered. -/
theorem Program.lowering_ignores_layout (p q : Program) (f : Nat → Nat)
    (hinjective : ∀ i ∈ p.reached p.projects, ∀ j ∈ p.reached p.projects, f i = f j → i = j)
    (hexprs : ∀ i ∈ p.reached p.projects, q.exprs[f i]? = (p.exprs[i]?).map (Node.rename f))
    (hprojects : q.projects = p.projects.map (Node.rename f)) (c : LoweringContext)
    (block after : Block) (es : List Expr) :
    ((c.on p).lowerProjects block = (.ok es, after) ↔
      (c.on q).lowerProjects block = (.ok es, after)) ∧
    ∀ g : Getter, g.lowerProjects (c.on p) block = (.ok es, after) ↔
      g.lowerProjects (c.on q) block = (.ok es, after) := by
  have h : p.FoundIn q p.projects f :=
    ⟨fun i hi j hj hsame => hinjective i hi j hj hsame, hexprs⟩
  exact ⟨h.lowerProjects_ok_iff hprojects (.rows c.inputs) c block after es,
    fun g => h.lowerProjects_ok_iff hprojects g c block after es⟩

/-- Projects `UPPER($0)` twice and `LOWER($0)`, and holds a literal that no output leads to. -/
def upperThenLower : Program where
  inputRowType := [.notNull .varchar]
  exprs := [.inputRef 0 (.notNull .varchar),
    .call .upper [.localRef 0 (.notNull .varchar)] (.notNull .varchar),
    .call .lower [.localRef 0 (.notNull .varchar)] (.notNull .varchar),
    .literal (.int32 7) (.notNull .integer)]
  projects := [.localRef 1 (.notNull .varchar), .localRef 1 (.notNull .varchar),
    .localRef 2 (.notNull .varchar)]
  condition := none
  faultless := by decide

/-- The same projections of expressions in another order, without the literal. -/
def lowerThenUpper : Program where
  inputRowType := [.notNull .varchar]
  exprs := [.inputRef 0 (.notNull .varchar),
    .call .lower [.localRef 0 (.notNull .varchar)] (.notNull .varchar),
    .call .upper [.localRef 0 (.notNull .varchar)] (.notNull .varchar)]
  projects := [.localRef 2 (.notNull .varchar), .localRef 2 (.notNull .varchar),
    .localRef 1 (.notNull .varchar)]
  condition := none
  faultless := by decide

def upperThenLowerContext : LoweringContext where
  program := upperThenLower
  adapter := .standard
  inputs := [⟨.var ⟨"row", .objectArray⟩, ⟨[.string]⟩⟩]
  policy := .shared
  stem := "v"
  table := .standard

theorem other_order_is_lowered_alike :
    ∃ after, (upperThenLowerContext.on lowerThenUpper).lowerProjects .empty =
      (.ok [.var ⟨"v2", .string⟩, .var ⟨"v2", .string⟩,
        .runtimeCall "lower" [.var ⟨"v0", .string⟩] .string], after) := by
  let swap : Nat → Nat := fun index => if index = 0 then 0 else 3 - index
  have hreached : upperThenLower.reached upperThenLower.projects = [2, 1, 0] := by decide
  have hrun : (upperThenLowerContext.on upperThenLower).lowerProjects .empty =
      (.ok [.var ⟨"v2", .string⟩, .var ⟨"v2", .string⟩,
        .runtimeCall "lower" [.var ⟨"v0", .string⟩] .string],
        ((upperThenLowerContext.on upperThenLower).lowerProjects .empty).2) :=
    Prod.ext (by rfl) rfl
  refine ⟨_, (Program.lowering_ignores_layout upperThenLower lowerThenUpper swap ?_ ?_ ?_
    upperThenLowerContext .empty _ _).1.mp hrun⟩
  · rw [hreached]
    decide
  · rw [hreached]
    simp [swap, upperThenLower, lowerThenUpper, Node.rename, Node.renameAll]
  · simp [swap, upperThenLower, lowerThenUpper, Node.rename]

end RowCode
