import RowCode.Proofs.Coverage

/-!
# What roots depend on

The expressions of a program that roots lead to through references. References lead backward, so one
sweep from the last expression to the first finds them all: when it comes to an expression, every
body that could refer to it has been seen. The sweep finds exactly what a pass comes by.
-/

namespace RowCode

namespace Program

variable (p : Program)

/-- The nodes of the body of an expression; none if there is no such expression. -/
def nodesOf (index : Nat) : List Node := ((p.exprs[index]?).map Node.nodes).getD []

def referencesOf (index : Nat) : List Nat := (p.nodesOf index).filterMap Node.reference?

/-- The expressions below `bound` that the indexes found so far lead to. -/
def reachedBelow : (bound : Nat) → (found : List Nat) → List Nat
  | 0, _ => []
  | bound + 1, found =>
    if bound ∈ found then bound :: reachedBelow bound (p.referencesOf bound ++ found)
    else reachedBelow bound found

/-- The expressions that the roots lead to, the latest first. -/
def reached (roots : List Node) : List Nat :=
  p.reachedBelow p.exprs.length (roots.flatMap Node.references)

/-- The nodes in the bodies of the expressions that the roots lead to. -/
def reachedNodes (roots : List Node) : List Node := (p.reached roots).flatMap p.nodesOf

variable {p} {bound index other : Nat} {found : List Nat} {roots : List Node}

theorem nodesOf_eq {body : Node} (hbody : p.exprs[index]? = some body) :
    p.nodesOf index = body.nodes := by
  rw [nodesOf, hbody, Option.map_some, Option.getD_some]

theorem referencesOf_eq {body : Node} (hbody : p.exprs[index]? = some body) :
    p.referencesOf index = body.references := by
  rw [referencesOf, nodesOf_eq hbody, Node.references]

theorem exists_body_of_mem_nodesOf {node : Node} (hnode : node ∈ p.nodesOf index) :
    ∃ body, p.exprs[index]? = some body ∧ node ∈ body.nodes := by
  cases hbody : p.exprs[index]? with
  | none => simp [nodesOf, hbody] at hnode
  | some body => exact ⟨body, rfl, nodesOf_eq hbody ▸ hnode⟩

theorem lt_of_mem_referencesOf (hother : other ∈ p.referencesOf index) : other < index := by
  obtain ⟨node, hnode, -⟩ := List.mem_filterMap.mp hother
  obtain ⟨body, hbody, -⟩ := exists_body_of_mem_nodesOf hnode
  rw [referencesOf_eq hbody] at hother
  exact Node.lt_of_mem_references (fault?_of_expr hbody) hother

theorem lt_of_mem_reachedBelow (hindex : index ∈ p.reachedBelow bound found) : index < bound := by
  induction bound generalizing found with
  | zero => cases hindex
  | succ bound ih =>
      rw [reachedBelow] at hindex
      split at hindex
      · rcases List.mem_cons.mp hindex with rfl | hrest
        · exact Nat.lt_succ_self _
        · exact Nat.lt_succ_of_lt (ih hrest)
      · exact Nat.lt_succ_of_lt (ih hindex)

theorem nodup_reachedBelow (bound : Nat) (found : List Nat) : (p.reachedBelow bound found).Nodup := by
  induction bound generalizing found with
  | zero => exact List.nodup_nil
  | succ bound ih =>
      rw [reachedBelow]
      split
      · exact List.nodup_cons.mpr ⟨fun hmem => Nat.lt_irrefl _ (lt_of_mem_reachedBelow hmem), ih _⟩
      · exact ih found

theorem mem_reachedBelow_of_found (hindex : index ∈ found) (hlt : index < bound) :
    index ∈ p.reachedBelow bound found := by
  induction bound generalizing found with
  | zero => omega
  | succ bound ih =>
      rw [reachedBelow]
      by_cases hlast : index = bound
      · rw [if_pos (hlast ▸ hindex), hlast]
        exact List.mem_cons_self
      · split
        · exact List.mem_cons_of_mem _ (ih (List.mem_append_right _ hindex) (by omega))
        · exact ih hindex (by omega)

theorem reachedBelow_closed (hindex : index ∈ p.reachedBelow bound found)
    (hother : other ∈ p.referencesOf index) : other ∈ p.reachedBelow bound found := by
  induction bound generalizing found with
  | zero => cases hindex
  | succ bound ih =>
      rw [reachedBelow] at hindex ⊢
      by_cases hmem : bound ∈ found
      · rw [if_pos hmem] at hindex ⊢
        refine List.mem_cons_of_mem _ ?_
        rcases List.mem_cons.mp hindex with rfl | hrest
        · exact mem_reachedBelow_of_found (List.mem_append_left _ hother)
            (lt_of_mem_referencesOf hother)
        · exact ih hrest
      · rw [if_neg hmem] at hindex ⊢
        exact ih hindex

theorem reachedBelow_least {P : Nat → Prop} (hfound : ∀ index ∈ found, P index)
    (hclosed : ∀ index, P index → ∀ other ∈ p.referencesOf index, P other) :
    ∀ index ∈ p.reachedBelow bound found, P index := by
  induction bound generalizing found with
  | zero => simp [reachedBelow]
  | succ bound ih =>
      rw [reachedBelow]
      by_cases hmem : bound ∈ found
      · rw [if_pos hmem]
        refine List.forall_mem_cons.mpr ⟨hfound bound hmem, ih fun index hindex => ?_⟩
        exact (List.mem_append.mp hindex).elim (hclosed bound (hfound bound hmem) index)
          (hfound index)
      · rw [if_neg hmem]
        exact ih hfound

theorem nodup_reached (p : Program) (roots : List Node) : (p.reached roots).Nodup :=
  nodup_reachedBelow _ _

theorem lt_of_mem_reached (hindex : index ∈ p.reached roots) : index < p.exprs.length :=
  lt_of_mem_reachedBelow hindex

theorem mem_reached_of_root {root : Node} (hroot : root ∈ roots) (hindex : index ∈ root.references)
    (hlt : index < p.exprs.length) : index ∈ p.reached roots :=
  mem_reachedBelow_of_found (List.mem_flatMap.mpr ⟨root, hroot, hindex⟩) hlt

theorem reached_closed (hindex : index ∈ p.reached roots) (hother : other ∈ p.referencesOf index) :
    other ∈ p.reached roots :=
  reachedBelow_closed hindex hother

/-- Among the sets of expressions that hold what the roots refer to and what their own bodies refer
to, the reached expressions are the least. -/
theorem reached_least {P : Nat → Prop} (hroots : ∀ root ∈ roots, ∀ index ∈ root.references, P index)
    (hclosed : ∀ index, P index → ∀ other ∈ p.referencesOf index, P other) :
    ∀ index ∈ p.reached roots, P index := by
  refine reachedBelow_least (fun index hindex => ?_) hclosed
  obtain ⟨root, hroot, hindex⟩ := List.mem_flatMap.mp hindex
  exact hroots root hroot index hindex

variable (p) in
/-- The expressions that the roots refer to, and those that the bodies of such expressions refer
to. -/
inductive LeadsTo (roots : List Node) : Nat → Prop where
  | root {root : Node} {index : Nat} (hroot : root ∈ roots) (hindex : index ∈ root.references)
      (hlt : index < p.exprs.length) : LeadsTo roots index
  | body {outer index : Nat} (h : LeadsTo roots outer) (hindex : index ∈ p.referencesOf outer) :
      LeadsTo roots index

theorem mem_reached_iff_leadsTo : index ∈ p.reached roots ↔ p.LeadsTo roots index := by
  constructor
  · intro hindex
    refine reached_least (P := fun index => index < p.exprs.length → p.LeadsTo roots index)
      (fun root hroot index hindex hlt => .root hroot hindex hlt) ?_ index hindex
      (lt_of_mem_reached hindex)
    intro outer houter other hother _
    obtain ⟨node, hnode, -⟩ := List.mem_filterMap.mp hother
    obtain ⟨body, hbody, -⟩ := exists_body_of_mem_nodesOf hnode
    exact (houter (List.getElem?_eq_some_iff.mp hbody).1).body hother
  · intro h
    induction h with
    | root hroot hindex hlt => exact mem_reached_of_root hroot hindex hlt
    | body _ hindex ih => exact reached_closed ih hindex

instance (roots : List Node) : DecidablePred (p.LeadsTo roots) :=
  fun _ => decidable_of_iff _ mem_reached_iff_leadsTo

/-! ### What a pass comes by -/

variable {items : List (Place × Node)} {place : Place} {node : Node}

theorem Reaches.nested (h : p.Reaches items place node) {part : Node} (hpart : part ∈ node.nodes) :
    ∃ place', p.Reaches items place' part := by
  induction node using Node.children_induction generalizing place with
  | step node ih =>
      rcases Node.mem_nodes.mp hpart with rfl | ⟨child, hchild, hnested⟩
      · exact ⟨place, h⟩
      · obtain ⟨k, hk⟩ := List.mem_iff_getElem?.mp hchild
        have hitem : (place.child (0 + k), child) ∈ place.childItems 0 node.children :=
          Place.mem_childItems.mpr ⟨k, hk, rfl⟩
        exact ih child hchild (h.step (.child hitem)) hnested

/-- **Reached by reference.** What a reached node refers to is reached. -/
theorem Reaches.references_reached (h : p.Reaches items place node) :
    ∀ index ∈ node.references, index < p.exprs.length → index ∈ p.reached (items.map Prod.snd) := by
  induction h with
  | root hmem =>
      intro index hindex hlt
      exact mem_reached_of_root (List.mem_map_of_mem hmem) hindex hlt
  | step _ hbelow ih =>
      intro index hindex hlt
      cases hbelow with
      | child hitem =>
          exact ih index
            (Node.mem_references_of_mem_children (Place.mem_of_mem_childItems hitem) hindex) hlt
      | @body outer ty _ hbody =>
          have houter : outer ∈ p.reached (items.map Prod.snd) :=
            ih outer (Node.mem_references_localRef _ _) (List.getElem?_eq_some_iff.mp hbody).1
          exact reached_closed houter (referencesOf_eq hbody ▸ hindex)

theorem Reaches.index_reached {ty : LogicalType} {body : Node}
    (h : p.Reaches items place (.localRef index ty)) (hbody : p.exprs[index]? = some body) :
    index ∈ p.reached (items.map Prod.snd) :=
  h.references_reached index (Node.mem_references_localRef _ _)
    (List.getElem?_eq_some_iff.mp hbody).1

theorem Reaches.of_mem_reached (hindex : index ∈ p.reached (items.map Prod.snd)) :
    ∃ place ty, p.Reaches items place (.localRef index ty) := by
  refine reached_least (P := fun index => ∃ place ty, p.Reaches items place (.localRef index ty))
    ?_ ?_ index hindex
  · intro root hroot index hindex
    obtain ⟨⟨place, _⟩, hitem, rfl⟩ := List.mem_map.mp hroot
    obtain ⟨ty, hpart⟩ := Node.mem_references.mp hindex
    obtain ⟨place', h⟩ := (Reaches.root hitem).nested hpart
    exact ⟨place', ty, h⟩
  · rintro index ⟨place, ty, h⟩ other hother
    obtain ⟨_, hnode, -⟩ := List.mem_filterMap.mp hother
    obtain ⟨body, hbody, -⟩ := exists_body_of_mem_nodesOf hnode
    obtain ⟨ty', hpart⟩ := Node.mem_references.mp (referencesOf_eq hbody ▸ hother)
    obtain ⟨place', h'⟩ := (h.step (.body hbody)).nested hpart
    exact ⟨place', ty', h'⟩

/-- **The sweep finds what a pass comes by.** -/
theorem mem_reached_iff {body : Node} (hbody : p.exprs[index]? = some body)
    (hitems : ∀ item ∈ items, item.1 ≠ .root (.expr index)) :
    index ∈ p.reached (items.map Prod.snd) ↔ p.Reaches items (.root (.expr index)) body := by
  constructor
  · intro hindex
    obtain ⟨place, ty, h⟩ := Reaches.of_mem_reached hindex
    exact h.step (.body hbody)
  · intro h
    cases h with
    | root hmem => exact absurd rfl (hitems _ hmem)
    | step hreaches hbelow =>
        generalize hplace : Place.root (.expr index) = place at hbelow
        cases hbelow with
        | child hitem =>
            obtain ⟨k, -, hchild⟩ := Place.mem_childItems.mp hitem
            exact absurd (congrArg Place.path (hplace.trans hchild)).symm (List.cons_ne_nil _ _)
        | body hbody' =>
            obtain rfl := Origin.expr.inj (congrArg Place.origin hplace)
            exact hreaches.index_reached hbody

theorem Reaches.origin_reached (h : p.Reaches items place node)
    (hitems : ∀ item ∈ items, item.2.children = []) :
    (place, node) ∈ items ∨ ∃ index ∈ p.reached (items.map Prod.snd), place.origin = .expr index := by
  induction h with
  | root hmem => exact Or.inl hmem
  | step hreaches hbelow ih =>
      cases hbelow with
      | child hitem =>
          rcases ih with hroot | ⟨index, hindex, horigin⟩
          · have hnone := hitems _ hroot
            dsimp only at hnone
            rw [hnone] at hitem
            cases hitem
          · obtain ⟨k, -, hplace⟩ := Place.mem_childItems.mp hitem
            exact Or.inr ⟨index, hindex, (congrArg Place.origin hplace).trans horigin⟩
      | body hbody => exact Or.inr ⟨_, hreaches.index_reached hbody, rfl⟩

/-- Every place in the body of a reached expression is reached. -/
theorem Reaches.of_nodeAt? (hindex : index ∈ p.reached (items.map Prod.snd))
    (horigin : place.origin = .expr index) (hnode : p.nodeAt? place = some node) :
    p.Reaches items place node := by
  obtain ⟨origin, path⟩ := place
  obtain rfl : origin = .expr index := horigin
  induction path generalizing node with
  | nil =>
      obtain ⟨place, ty, h⟩ := Reaches.of_mem_reached hindex
      exact h.step (.body hnode)
  | cons position path ih =>
      obtain ⟨parent, hparent, hchild⟩ := Option.bind_eq_some_iff.mp hnode
      refine (ih hparent).step (.child (Place.mem_childItems.mpr ⟨position, hchild, ?_⟩))
      rw [Nat.zero_add]
      rfl

theorem mem_reachedNodes {roots : List Node} :
    node ∈ p.reachedNodes roots ↔
      ∃ index ∈ p.reached roots, ∃ body, p.exprs[index]? = some body ∧ node ∈ body.nodes := by
  rw [reachedNodes, List.mem_flatMap]
  constructor
  · rintro ⟨index, hindex, hnode⟩
    exact ⟨index, hindex, exists_body_of_mem_nodesOf hnode⟩
  · rintro ⟨index, hindex, body, hbody, hnode⟩
    exact ⟨index, hindex, nodesOf_eq hbody ▸ hnode⟩

theorem Reaches.of_mem_reachedNodes (hnode : node ∈ p.reachedNodes (items.map Prod.snd)) :
    ∃ place, p.Reaches items place node := by
  obtain ⟨index, hindex, body, hbody, hnode⟩ := mem_reachedNodes.mp hnode
  obtain ⟨place, ty, h⟩ := Reaches.of_mem_reached hindex
  exact (h.step (.body hbody)).nested hnode

theorem Reaches.mem_reachedNodes (h : p.Reaches items place node) :
    (∃ item ∈ items, node ∈ item.2.nodes) ∨ node ∈ p.reachedNodes (items.map Prod.snd) := by
  induction h with
  | root hmem => exact Or.inl ⟨_, hmem, Node.mem_nodes_self _⟩
  | step hreaches hbelow ih =>
      cases hbelow with
      | child hitem =>
          have hchild := Place.mem_of_mem_childItems hitem
          refine ih.imp (fun ⟨item, hitem, hnode⟩ => ⟨item, hitem, Node.mem_nodes_child hnode hchild⟩) ?_
          intro hnode
          obtain ⟨index, hindex, body, hbody, hnode⟩ := Program.mem_reachedNodes.mp hnode
          exact Program.mem_reachedNodes.mpr
            ⟨index, hindex, body, hbody, Node.mem_nodes_child hnode hchild⟩
      | body hbody =>
          exact Or.inr (Program.mem_reachedNodes.mpr
            ⟨_, hreaches.index_reached hbody, _, hbody, Node.mem_nodes_self _⟩)

end Program

end RowCode
