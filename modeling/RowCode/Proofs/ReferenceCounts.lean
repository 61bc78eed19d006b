import RowCode.Proofs.Reachability
import Mathlib.Algebra.BigOperators.Group.Finset.Basic
import Mathlib.Data.List.Perm.Basic

/-!
# What usage counts

Visiting a node comes to following its references one by one. A body is followed into the first time
only, so whatever the order, the references counted are those of the roots and, once each, those of
the bodies that were visited; and the bodies that are visited are the ones that the roots lead to.
-/

namespace RowCode

namespace Program

/-- How often the roots and the bodies of the expressions that they lead to refer to an expression;
each body is counted once. -/
def occurrences (p : Program) (roots : List Node) (index : Nat) : Nat :=
  (roots.flatMap Node.references).count index + ((p.reached roots).flatMap p.referencesOf).count index

variable {p : Program} {roots roots' : List Node} {index : Nat}

theorem mem_reached_of_occurrences
    (hroots : ∀ root ∈ roots, ∀ index ∈ root.references, index < p.exprs.length)
    (hpos : 0 < p.occurrences roots index) : index ∈ p.reached roots := by
  rcases Nat.add_pos_iff_pos_or_pos.mp hpos with hroot | hbody
  · obtain ⟨root, hroot, hindex⟩ := List.mem_flatMap.mp (List.count_pos_iff.mp hroot)
    exact mem_reached_of_root hroot hindex (hroots root hroot index hindex)
  · obtain ⟨other, hother, hindex⟩ := List.mem_flatMap.mp (List.count_pos_iff.mp hbody)
    exact reached_closed hother hindex

theorem LeadsTo.occurrences_pos (h : p.LeadsTo roots index) : 0 < p.occurrences roots index := by
  cases h with
  | root hroot hindex =>
      have hcount : 0 < (roots.flatMap Node.references).count index :=
        List.count_pos_iff.mpr (List.mem_flatMap.mpr ⟨_, hroot, hindex⟩)
      exact Nat.add_pos_left hcount _
  | body houter hindex =>
      have hcount : 0 < ((p.reached roots).flatMap p.referencesOf).count index :=
        List.count_pos_iff.mpr
          (List.mem_flatMap.mpr ⟨_, mem_reached_iff_leadsTo.mpr houter, hindex⟩)
      exact Nat.add_pos_right _ hcount

theorem occurrences_eq_zero_iff
    (hroots : ∀ root ∈ roots, ∀ index ∈ root.references, index < p.exprs.length) :
    p.occurrences roots index = 0 ↔ ¬p.LeadsTo roots index := by
  rw [← mem_reached_iff_leadsTo, ← Nat.le_zero, ← Nat.not_lt, not_iff_not]
  exact ⟨mem_reached_of_occurrences hroots, fun h => (mem_reached_iff_leadsTo.mp h).occurrences_pos⟩

/-- The bodies that are counted are those of the expressions that the roots lead to. -/
theorem occurrences_eq_sum (p : Program) (roots : List Node) (index : Nat) :
    p.occurrences roots index = (roots.flatMap Node.references).count index +
      ∑ outer ∈ Finset.range p.exprs.length with p.LeadsTo roots outer,
        (p.referencesOf outer).count index := by
  have hreached : (p.reached roots).toFinset =
      {outer ∈ Finset.range p.exprs.length | p.LeadsTo roots outer} := by
    ext outer
    rw [List.mem_toFinset, Finset.mem_filter, Finset.mem_range, ← mem_reached_iff_leadsTo,
      and_iff_right_of_imp lt_of_mem_reached]
  rw [occurrences, ← hreached, List.sum_toFinset _ (p.nodup_reached roots)]
  exact congrArg (_ + ·) List.count_flatMap

theorem LeadsTo.mono (h : p.LeadsTo roots index) (hsubset : roots ⊆ roots') :
    p.LeadsTo roots' index := by
  induction h with
  | root hroot hindex hlt => exact .root (hsubset hroot) hindex hlt
  | body _ hindex ih => exact ih.body hindex

theorem occurrences_perm (h : roots'.Perm roots) (index : Nat) :
    p.occurrences roots' index = p.occurrences roots index := by
  have hleads : p.LeadsTo roots' = p.LeadsTo roots :=
    funext fun _ => propext ⟨(·.mono h.subset), (·.mono h.symm.subset)⟩
  rw [occurrences_eq_sum, occurrences_eq_sum, (h.flatMap_right Node.references).count_eq]
  simp only [hleads]

end Program

namespace Usage

/-! ### Visiting is following references -/

section Following

variable (follow : Nat → Usage → Option Usage)

def followAll : List Nat → Usage → Option Usage
  | [], u => some u
  | index :: rest, u => (follow index u).bind (followAll rest)

variable {follow}

theorem followAll_append (left right : List Nat) (u : Usage) :
    followAll follow (left ++ right) u = (followAll follow left u).bind (followAll follow right) := by
  induction left generalizing u with
  | nil => rfl
  | cons index rest ih =>
      rw [List.cons_append, followAll, followAll, Option.bind_assoc]
      exact congrArg (follow index u).bind (funext ih)

theorem visitAll_eq {nodes : List Node}
    (hnodes : ∀ node ∈ nodes, ∀ u, visit follow node u = followAll follow node.references u)
    (u : Usage) : visitAll follow nodes u = followAll follow (nodes.flatMap Node.references) u := by
  induction nodes generalizing u with
  | nil => rfl
  | cons node rest ih =>
      rw [visitAll, List.flatMap_cons, followAll_append, hnodes node List.mem_cons_self]
      exact congrArg (Option.bind _)
        (funext (ih fun node hnode => hnodes node (List.mem_cons_of_mem _ hnode)))

theorem visitBranches_eq (branches : List (Node × Node)) (u : Usage) :
    visitBranches follow branches u = visitAll follow (Node.flattenBranches branches) u := by
  induction branches generalizing u with
  | nil => rfl
  | cons branch rest ih =>
      rw [visitBranches, Node.flattenBranches, visitAll]
      refine congrArg (Option.bind _) (funext fun u => ?_)
      rw [visitAll]
      exact congrArg (Option.bind _) (funext ih)

theorem visitAll_append (left right : List Node) (u : Usage) :
    visitAll follow (left ++ right) u = (visitAll follow left u).bind (visitAll follow right) := by
  induction left generalizing u with
  | nil => rfl
  | cons node rest ih =>
      rw [List.cons_append, visitAll, visitAll, Option.bind_assoc]
      exact congrArg (Option.bind _) (funext ih)

theorem visit_of_operator? {node : Node} {op : Operator} (hop : node.operator? = some op)
    (u : Usage) : visit follow node u = visitAll follow node.children u := by
  cases node with
  | call op' operands ty => rfl
  | case branches otherwise ty =>
      rw [visit, Node.children, visitAll_append, visitBranches_eq]
      refine congrArg (Option.bind _) (funext fun u => ?_)
      rw [visitAll]
      exact (Option.bind_fun_some _).symm
  | inputRef | localRef | literal | dynamicParam => simp [Node.operator?] at hop

theorem visit_eq (node : Node) (u : Usage) :
    visit follow node u = followAll follow node.references u := by
  induction node using Node.children_induction generalizing u with
  | step node ih =>
      cases hop : node.operator? with
      | some op =>
          rw [visit_of_operator? hop, visitAll_eq ih,
            Node.references_of_reference?_none (Node.reference?_of_operator? hop)]
      | none =>
          cases node with
          | localRef index ty =>
              rw [Node.references_localRef]
              exact (Option.bind_fun_some _).symm
          | inputRef | literal | dynamicParam =>
              rw [Node.references_of_reference?_none rfl]
              rfl
          | call | case => simp [Node.operator?] at hop

end Following

/-! ### What following references does -/

def visitedIndexes (u : Usage) : List Nat := (List.range u.visited.length).filter u.isVisited

/-- What the bodies that were visited refer to. -/
def bodyReferences (p : Program) (u : Usage) : List Nat := u.visitedIndexes.flatMap p.referencesOf

/-- There is a count and a mark for each expression of the program. -/
structure Fits (p : Program) (u : Usage) : Prop where
  counts : u.counts.length = p.exprs.length
  marks : u.visited.length = p.exprs.length

theorem fits_empty (p : Program) : (empty p.exprs.length).Fits p :=
  ⟨List.length_replicate, List.length_replicate⟩

variable {p : Program} {u u' u'' : Usage} {index other : Nat}

theorem Fits.bump (h : u.Fits p) (index : Nat) : (u.bump index).Fits p :=
  ⟨(List.length_modify ..).trans h.counts, h.marks⟩

theorem Fits.markVisited (h : u.Fits p) (index : Nat) : (u.markVisited index).Fits p :=
  ⟨h.counts, List.length_set.trans h.marks⟩

theorem count_bump (h : u.Fits p) (hindex : index < p.exprs.length) (other : Nat) :
    (u.bump index).count other = u.count other + [index].count other := by
  by_cases heq : other = index
  · rw [heq, count_bump_self u index (h.counts ▸ hindex), List.count_singleton_self]
  · rw [count_bump_of_ne u heq, List.count_singleton, beq_eq_false_iff_ne.mpr (Ne.symm heq)]
    rfl

theorem isVisited_empty (size index : Nat) : (empty size).isVisited index = false := by
  by_cases h : index < size <;> simp [empty, isVisited, h]

theorem isVisited_markVisited (h : u.Fits p) (hindex : index < p.exprs.length) (other : Nat) :
    (u.markVisited index).isVisited other = true ↔ other = index ∨ u.isVisited other = true := by
  unfold isVisited markVisited
  by_cases heq : index = other
  · have hlt : index < u.visited.length := h.marks ▸ hindex
    subst heq
    simp [hlt]
  · simp [heq, Ne.symm heq]

theorem mem_visitedIndexes : index ∈ u.visitedIndexes ↔ u.isVisited index = true := by
  rw [visitedIndexes, List.mem_filter, List.mem_range, and_iff_right_iff_imp]
  intro hvisited
  by_contra hlt
  simp [isVisited, List.getElem?_eq_none (Nat.le_of_not_lt hlt)] at hvisited

theorem nodup_visitedIndexes (u : Usage) : u.visitedIndexes.Nodup := List.nodup_range.filter _

theorem visitedIndexes_markVisited (h : u.Fits p) (hindex : index < p.exprs.length)
    (hnew : u.isVisited index = false) :
    (u.markVisited index).visitedIndexes.Perm (index :: u.visitedIndexes) := by
  have hnodup : (index :: u.visitedIndexes).Nodup := by
    refine List.nodup_cons.mpr ⟨fun hmem => ?_, u.nodup_visitedIndexes⟩
    rw [mem_visitedIndexes, hnew] at hmem
    cases hmem
  refine (List.perm_ext_iff_of_nodup (nodup_visitedIndexes _) hnodup).mpr fun other => ?_
  rw [mem_visitedIndexes, isVisited_markVisited h hindex, List.mem_cons, mem_visitedIndexes]

/-- What following references, in order, makes of a usage. -/
structure Visits (p : Program) (references : List Nat) (u u' : Usage) : Prop where
  fits : u'.Fits p
  kept : ∀ index, u.isVisited index = true → u'.isVisited index = true
  visited : ∀ index ∈ references, u'.isVisited index = true
  /-- Bodies are not left half visited. -/
  closed : ∀ index, u'.isVisited index = true → u.isVisited index = true ∨
    ∀ other ∈ p.referencesOf index, u'.isVisited other = true
  least : ∀ P : Nat → Prop, (∀ index ∈ references, P index) →
    (∀ index, P index → ∀ other ∈ p.referencesOf index, P other) →
    ∀ index, u'.isVisited index = true → u.isVisited index = true ∨ P index
  /-- The references counted are those given and those in the bodies visited meanwhile. -/
  counted : ∀ index, u'.count index + (u.bodyReferences p).count index =
    u.count index + references.count index + (u'.bodyReferences p).count index

theorem visits_nil (h : u.Fits p) : Visits p [] u u where
  fits := h
  kept _ hvisited := hvisited
  visited := by simp
  closed _ hvisited := Or.inl hvisited
  least _ _ _ _ hvisited := Or.inl hvisited
  counted _ := rfl

theorem Visits.append {left right : List Nat} (h : Visits p left u u') (h' : Visits p right u' u'') :
    Visits p (left ++ right) u u'' where
  fits := h'.fits
  kept index hvisited := h'.kept index (h.kept index hvisited)
  visited index hindex :=
    (List.mem_append.mp hindex).elim (fun hleft => h'.kept index (h.visited index hleft))
      (h'.visited index)
  closed index hvisited := by
    rcases h'.closed index hvisited with hold | hall
    · exact (h.closed index hold).imp_right fun hall _ hother => h'.kept _ (hall _ hother)
    · exact Or.inr hall
  least P hreferences hclosed index hvisited := by
    obtain ⟨hleft, hright⟩ := List.forall_mem_append.mp hreferences
    rcases h'.least P hright hclosed index hvisited with hold | hnew
    · exact h.least P hleft hclosed index hold
    · exact Or.inr hnew
  counted index := by
    have hfirst := h.counted index
    have hsecond := h'.counted index
    rw [List.count_append]
    omega

theorem visits_again (h : u.Fits p) (hindex : index < p.exprs.length)
    (hvisited : u.isVisited index = true) : Visits p [index] u (u.bump index) where
  fits := h.bump index
  kept _ hold := hold
  visited _ hother := List.mem_singleton.mp hother ▸ hvisited
  closed _ hold := Or.inl hold
  least _ _ _ _ hold := Or.inl hold
  counted other := congrArg (· + _) (count_bump h hindex other)

/-- The body is marked before it is visited, which makes no difference, as it does not refer to
itself. -/
theorem visits_first (h : u.Fits p) (hindex : index < p.exprs.length)
    (hnew : u.isVisited index = false)
    (hbody : Visits p (p.referencesOf index) ((u.bump index).markVisited index) u') :
    Visits p [index] u u' := by
  have hmarked := isVisited_markVisited (h.bump index) hindex
  have hself : u'.isVisited index = true := hbody.kept index ((hmarked index).mpr (Or.inl rfl))
  refine ⟨hbody.fits, ?_, ?_, ?_, ?_, ?_⟩
  · exact fun other hvisited => hbody.kept other ((hmarked other).mpr (Or.inr hvisited))
  · exact fun other hother => List.mem_singleton.mp hother ▸ hself
  · intro other hvisited
    rcases hbody.closed other hvisited with hold | hall
    · rcases (hmarked other).mp hold with rfl | hold
      · exact Or.inr hbody.visited
      · exact Or.inl hold
    · exact Or.inr hall
  · intro P hreferences hclosed other hvisited
    have hP : P index := hreferences index (List.mem_singleton_self _)
    rcases hbody.least P (hclosed index hP) hclosed other hvisited with hold | hnew
    · rcases (hmarked other).mp hold with rfl | hold
      · exact Or.inr hP
      · exact Or.inl hold
    · exact Or.inr hnew
  · intro other
    have hcounted := hbody.counted other
    have hbump := count_bump h hindex other
    have hreferences : (((u.bump index).markVisited index).bodyReferences p).count other =
        (p.referencesOf index).count other + (u.bodyReferences p).count other := by
      have hperm := visitedIndexes_markVisited (h.bump index) hindex hnew
      rw [bodyReferences, (hperm.flatMap_right p.referencesOf).count_eq, List.flatMap_cons,
        List.count_append]
      rfl
    have hmark : ((u.bump index).markVisited index).count other = (u.bump index).count other := rfl
    omega

theorem exists_followAll {follow : Nat → Usage → Option Usage} {references : List Nat}
    (hfollow : ∀ index ∈ references, ∀ u : Usage, u.Fits p →
      ∃ u', follow index u = some u' ∧ Visits p [index] u u') (h : u.Fits p) :
    ∃ u', followAll follow references u = some u' ∧ Visits p references u u' := by
  induction references generalizing u with
  | nil => exact ⟨u, rfl, visits_nil h⟩
  | cons index rest ih =>
      obtain ⟨u₁, hfirst, hvisits⟩ := hfollow index List.mem_cons_self u h
      obtain ⟨u₂, hrest, hvisits'⟩ :=
        ih (fun index hindex => hfollow index (List.mem_cons_of_mem _ hindex)) hvisits.fits
      refine ⟨u₂, ?_, hvisits.append hvisits'⟩
      rw [followAll, hfirst, Option.bind_some, hrest]

theorem exists_follow {bound : Nat} (hbound : bound ≤ p.exprs.length) (hindex : index < bound)
    (h : u.Fits p) : ∃ u', follow p.exprs bound index u = some u' ∧ Visits p [index] u u' := by
  -- On the bound: what a body refers to comes before it.
  induction bound generalizing index u with
  | zero => omega
  | succ bound ih =>
      rw [follow]
      by_cases hlast : index = bound
      · subst hlast
        rw [if_pos rfl]
        cases hvisited : u.isVisited index with
        | true =>
            refine ⟨u.bump index, ?_, visits_again h hbound hvisited⟩
            exact if_pos hvisited
        | false =>
            have hbody := List.getElem?_eq_getElem hbound
            have hreferences : ∀ other ∈ p.referencesOf index, ∀ u : Usage, u.Fits p →
                ∃ u', follow p.exprs index other u = some u' ∧ Visits p [other] u u' :=
              fun other hother _ =>
                ih (Nat.le_of_succ_le hbound) (Program.lt_of_mem_referencesOf hother)
            obtain ⟨u', hfollow, hvisits⟩ :=
              exists_followAll hreferences ((h.bump index).markVisited index)
            refine ⟨u', ?_, visits_first h hbound hvisited hvisits⟩
            have hunmarked : ¬ (u.bump index).isVisited index = true :=
              Bool.eq_false_iff.mp hvisited
            dsimp only
            rw [if_neg hunmarked, hbody, Option.bind_some, visit_eq, ← Program.referencesOf_eq hbody,
              hfollow]
      · rw [if_neg hlast]
        exact ih (by omega) (by omega) h

theorem Visits.perm_reached {roots : List Node}
    (h : Visits p (roots.flatMap Node.references) (empty p.exprs.length) u)
    (hroots : ∀ root ∈ roots, ∀ index ∈ root.references, index < p.exprs.length) :
    u.visitedIndexes.Perm (p.reached roots) := by
  have hnone : ∀ index, ¬ (empty p.exprs.length).isVisited index = true := by
    simp [isVisited_empty]
  refine (List.perm_ext_iff_of_nodup u.nodup_visitedIndexes (p.nodup_reached roots)).mpr fun index => ?_
  rw [mem_visitedIndexes]
  constructor
  · intro hvisited
    refine (h.least (· ∈ p.reached roots) (fun index hindex => ?_)
      (fun _ hindex _ => Program.reached_closed hindex) index hvisited).resolve_left (hnone index)
    obtain ⟨root, hroot, hindex⟩ := List.mem_flatMap.mp hindex
    exact Program.mem_reached_of_root hroot hindex (hroots root hroot index hindex)
  · refine Program.reached_least (P := fun index => u.isVisited index = true)
      (fun root hroot index hindex => ?_) (fun index hindex => ?_) index
    · exact h.visited index (List.mem_flatMap.mpr ⟨root, hroot, hindex⟩)
    · exact (h.closed index hindex).resolve_left (hnone index)

/-- **Usage counts occurrences.** If the roots only refer to expressions of the program, their usage
is found, and an expression is counted as often as the roots, and the bodies of what they lead to,
refer to it. -/
theorem exists_ofRoots? {roots : List Node}
    (hroots : ∀ root ∈ roots, ∀ index ∈ root.references, index < p.exprs.length) :
    ∃ u, ofRoots? p roots = some u ∧ ∀ index, u.count index = p.occurrences roots index := by
  have hreferences : ∀ index ∈ roots.flatMap Node.references, ∀ u : Usage, u.Fits p →
      ∃ u', follow p.exprs p.exprs.length index u = some u' ∧ Visits p [index] u u' := by
    intro index hindex u hfits
    obtain ⟨root, hroot, hindex⟩ := List.mem_flatMap.mp hindex
    exact exists_follow (Nat.le_refl _) (hroots root hroot index hindex) hfits
  obtain ⟨u, hfollow, hvisits⟩ := exists_followAll hreferences (fits_empty p)
  refine ⟨u, ?_, fun index => ?_⟩
  · rw [ofRoots?, visitAll_eq (fun node _ u => visit_eq node u), hfollow]
  · have hempty : (empty p.exprs.length).visitedIndexes = [] :=
      List.filter_eq_nil_iff.mpr (by simp [isVisited_empty])
    have hcounted := hvisits.counted index
    rw [bodyReferences, hempty, List.flatMap_nil, List.count_nil, count_empty, Nat.add_zero,
      Nat.zero_add] at hcounted
    rw [hcounted, Program.occurrences, bodyReferences,
      ((hvisits.perm_reached hroots).flatMap_right p.referencesOf).count_eq]

/-- **Usage counts each reached body once.** If the roots only refer to expressions of the program,
their usage is found. An expression is counted once for each reference in the roots and in the bodies
of the expressions that they lead to, whatever the order of the roots, and not at all just if they do
not lead to it. -/
theorem usage_counts_reached_bodies_once {roots : List Node}
    (hroots : ∀ root ∈ roots, ∀ index ∈ root.references, index < p.exprs.length) :
    ∃ u, ofRoots? p roots = some u ∧
      (∀ index, u.count index = (roots.flatMap Node.references).count index +
        ∑ outer ∈ Finset.range p.exprs.length with p.LeadsTo roots outer,
          (p.referencesOf outer).count index) ∧
      (∀ roots' : List Node, roots'.Perm roots →
        ∃ u', ofRoots? p roots' = some u' ∧ ∀ index, u'.count index = u.count index) ∧
      ∀ index, u.count index = 0 ↔ ¬p.LeadsTo roots index := by
  obtain ⟨u, husage, hcount⟩ := exists_ofRoots? hroots
  refine ⟨u, husage, fun index => ?_, fun roots' hperm => ?_, fun index => ?_⟩
  · rw [hcount, Program.occurrences_eq_sum]
  · have hroots' : ∀ root ∈ roots', ∀ index ∈ root.references, index < p.exprs.length :=
      fun root hroot => hroots root (hperm.subset hroot)
    obtain ⟨u', husage', hcount'⟩ := exists_ofRoots? hroots'
    refine ⟨u', husage', fun index => ?_⟩
    rw [hcount, hcount', Program.occurrences_perm hperm]
  · rw [hcount, Program.occurrences_eq_zero_iff hroots]

/-- A field, its double, and the square of that, beside a field that nothing refers to. -/
def doubledSquareProgram : Program where
  inputRowType := [.notNull .integer]
  exprs := [.inputRef 0 (.notNull .integer),
    .call .plus [.localRef 0 (.notNull .integer), .localRef 0 (.notNull .integer)]
      (.notNull .integer),
    .inputRef 0 (.notNull .integer),
    .call .multiply [.localRef 1 (.notNull .integer), .localRef 1 (.notNull .integer)]
      (.notNull .integer)]
  projects := []
  condition := none
  faultless := by decide

theorem double_is_counted_three_times :
    let roots : List Node := [.localRef 3 (.notNull .integer), .localRef 1 (.notNull .integer)]
    (∀ root ∈ roots, ∀ index ∈ root.references, index < doubledSquareProgram.exprs.length) ∧
      ∃ u, ofRoots? doubledSquareProgram roots = some u ∧ u.count 0 = 2 ∧ u.count 1 = 3 ∧
        u.count 2 = 0 := by
  intro roots
  have hroots : ∀ root ∈ roots, ∀ index ∈ root.references,
      index < doubledSquareProgram.exprs.length := by decide
  obtain ⟨u, husage, hcount, -, hzero⟩ := usage_counts_reached_bodies_once hroots
  refine ⟨hroots, u, husage, ?_, ?_, (hzero 2).mpr (by decide)⟩
  · rw [hcount 0]
    decide
  · rw [hcount 1]
    decide

end Usage

end RowCode
