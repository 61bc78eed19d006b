import RowCode.Proofs.Getters
import RowCode.Proofs.Lookups

/-!
# Two passes in lockstep

Two passes over programs that correspond meet corresponding nodes in the same order. If each step
leads from states that correspond to states that correspond, the passes succeed together with
corresponding results, or fail together. What corresponds is up to the use: a simulation names it and
has to show it for one node at a time, and whole passes then follow by induction over the program.
-/

namespace RowCode

theorem optionRel_refl {α : Type} {r : α → α → Prop} (h : ∀ a, r a a) (o : Option α) :
    Option.Rel r o o := by
  cases o with
  | none => exact .none
  | some a => exact .some (h a)

/-- Two outcomes that correspond: two values, or two faults. -/
inductive Agree {α β ε : Type} (V : α → β → Prop) (E : ε → ε → Prop) :
    Except ε α → Except ε β → Prop where
  | ok {a : α} {b : β} (h : V a b) : Agree V E (.ok a) (.ok b)
  | error {e e' : ε} (h : E e e') : Agree V E (.error e) (.error e')

/-- Two steps that lead from states that correspond to states that correspond, and to outcomes that
correspond. -/
def Lockstep (R : LoweringState → LoweringState → Prop) (E : LoweringError → LoweringError → Prop)
    {α β : Type} (V : α → β → Prop) (x : Lowering α) (y : Lowering β) : Prop :=
  ∀ s t, R s t → Agree V E (x s).1 (y t).1 ∧ R (x s).2 (y t).2

namespace Lockstep

variable {R : LoweringState → LoweringState → Prop} {E : LoweringError → LoweringError → Prop}
  {α β γ δ : Type} {V : α → β → Prop} {W : γ → δ → Prop}

theorem pure {a : α} {b : β} (h : V a b) :
    Lockstep R E V (Pure.pure a : Lowering α) (Pure.pure b : Lowering β) :=
  fun _ _ hst => ⟨.ok h, hst⟩

theorem throw {e e' : LoweringError} (h : E e e') :
    Lockstep R E V (MonadExcept.throw e : Lowering α) (MonadExcept.throw e' : Lowering β) :=
  fun _ _ hst => ⟨.error h, hst⟩

theorem bind {x : Lowering α} {y : Lowering β} {f : α → Lowering γ} {k : β → Lowering δ}
    (hxy : Lockstep R E V x y) (hfk : ∀ a b, V a b → Lockstep R E W (f a) (k b)) :
    Lockstep R E W (x >>= f) (y >>= k) := by
  intro s t hst
  obtain ⟨hresult, hstate⟩ := hxy s t hst
  rw [Lowering.bind_apply, Lowering.bind_apply]
  rcases hx : x s with ⟨result, s'⟩
  rcases hy : y t with ⟨result', t'⟩
  rw [hx, hy] at hresult hstate
  cases hresult with
  | ok hab => exact hfk _ _ hab s' t' hstate
  | error he => exact ⟨.error he, hstate⟩

variable {c c' : LoweringContext} {V : Expr → Expr → Prop}

theorem withSlot {key key' : SlotKey} {x y : Lowering Expr} (hxy : Lockstep R E V x y)
    (hslot : ∀ s t, R s t →
      Option.Rel (fun slot slot' => V slot.value slot'.value) (s.slot? key) (t.slot? key'))
    (htouch : ∀ s t, R s t → R (s.touch key) (t.touch key'))
    (hfill : ∀ s t e e', R s t → V e e' →
      V (c.fill key e s).1 (c'.fill key' e' t).1 ∧ R (c.fill key e s).2 (c'.fill key' e' t).2) :
    Lockstep R E V (c.withSlot key x) (c'.withSlot key' y) := by
  intro s t hst
  have hlookup := hslot s t hst
  unfold LoweringContext.withSlot
  cases hs : s.slot? key with
  | some slot =>
      cases ht : t.slot? key' with
      | some slot' =>
          rw [hs, ht] at hlookup
          obtain ⟨hvalue⟩ := hlookup
          exact ⟨.ok hvalue, htouch s t hst⟩
      | none =>
          rw [hs, ht] at hlookup
          cases hlookup
  | none =>
      cases ht : t.slot? key' with
      | some slot' =>
          rw [hs, ht] at hlookup
          cases hlookup
      | none =>
          obtain ⟨hresult, hstate⟩ := hxy s t hst
          rcases hx : x s with ⟨result, s'⟩
          rcases hy : y t with ⟨result', t'⟩
          rw [hx, hy] at hresult hstate
          cases hresult with
          | ok he =>
              obtain ⟨hvalue, hfilled⟩ := hfill s' t' _ _ hstate he
              exact ⟨.ok hvalue, hfilled⟩
          | error he => exact ⟨.error he, hstate⟩

end Lockstep

/-- A pass starts by finding what its roots refer to more than once, if that is named. -/
theorem LoweringContext.analyze_start (c : LoweringContext) {roots : List Node}
    (hroots : ∀ root ∈ roots, ∀ index ∈ root.references, index < c.program.exprs.length)
    (block : Block) :
    ∃ shared, c.analyze roots (.start block) = (.ok (), ⟨block, [], shared⟩) ∧
      ∀ index, index ∈ shared ↔ c.policy = .shared ∧ 1 < c.program.occurrences roots index := by
  unfold analyze
  cases hpolicy : c.policy with
  | all => exact ⟨[], rfl, fun index => by simp⟩
  | shared =>
      obtain ⟨usage, husage, hcount⟩ := Usage.exists_ofRoots? hroots
      refine ⟨usage.shared, ?_, fun index => ?_⟩
      · simp only [husage]
        rfl
      · rw [Usage.mem_shared, hcount]
        exact (and_iff_right rfl).symm

/-! ### Slots that correspond -/

namespace LoweringState

section Map

variable {g : SlotKey → SlotKey} {k : Slot → Slot} {s t : LoweringState} {key : SlotKey}
  (hslots : t.slots = s.slots.map fun entry => (g entry.1, k entry.2))
  (hg : ∀ entry ∈ s.slots, g entry.1 = g key → entry.1 = key)

include hslots hg

/-- Where no other key is mapped to the same one, a mapped slot is found by its mapped key. -/
theorem slot?_of_slots_map : t.slot? (g key) = (s.slot? key).map k := by
  rw [slot?, slot?, hslots]
  have hkeys : ∀ entry ∈ s.slots, g entry.1 = g key → entry.1 = key := hg
  generalize s.slots = entries at hkeys
  induction entries with
  | nil => rfl
  | cons entry rest ih =>
      obtain ⟨hentry, hrest⟩ := List.forall_mem_cons.mp hkeys
      rw [List.map_cons, List.lookup_cons, List.lookup_cons, ih hrest]
      by_cases hsame : key = entry.1
      · rw [hsame, beq_self_eq_true, beq_self_eq_true]
        rfl
      · have hother : g key ≠ g entry.1 := fun hmapped => hsame (hentry hmapped.symm).symm
        rw [beq_false_of_ne hsame, beq_false_of_ne hother]

theorem slots_touch_of_map
    (hk : ∀ slot : Slot,
      k { slot with count := slot.count + 1 } = { k slot with count := (k slot).count + 1 }) :
    (t.touch (g key)).slots = (s.touch key).slots.map fun entry => (g entry.1, k entry.2) := by
  rw [LoweringState.touch, LoweringState.touch]
  dsimp only
  rw [hslots, List.map_map, List.map_map]
  refine List.map_congr_left fun entry hentry => ?_
  have hiff : g entry.1 = g key ↔ entry.1 = key := ⟨hg entry hentry, congrArg g⟩
  simp only [Function.comp_apply, hiff]
  split
  · rw [hk]
  · rfl

end Map

end LoweringState

/-- Two lists of expressions that correspond, each pair as what its node became. -/
inductive Results (V : Node → Expr → Expr → Prop) : List Node → List Expr → List Expr → Prop where
  | nil : Results V [] [] []
  | cons {node : Node} {nodes : List Node} {e e' : Expr} {es es' : List Expr} (head : V node e e')
      (tail : Results V nodes es es') : Results V (node :: nodes) (e :: es) (e' :: es')

/-- Operations whose operands go in lockstep do so themselves, if strategies that correspond refuse
the same numbers of operands and assemble what corresponds. -/
theorem Lockstep.operation {R : LoweringState → LoweringState → Prop}
    {E : LoweringError → LoweringError → Prop} {c c' : LoweringContext}
    {V : Node → Expr → Expr → Prop} {op : Operator} {node node' : Node}
    {args args' : Lowering (List Expr)}
    (hlacking : E (.unsupportedOperator op) (.unsupportedOperator op))
    (hunsupported : E (LoweringContext.unsupported node) (LoweringContext.unsupported node'))
    (hstrategies : Option.Rel (fun strategy strategy' =>
      strategy.refuses node.children.length = strategy'.refuses node'.children.length ∧
        ∀ es es', Results V node.children es es' → Option.Rel (V node)
          (strategy.assemble? (c.adapter node.ty) es) (strategy'.assemble? (c'.adapter node'.ty) es'))
      (c.table.strategy? op) (c'.table.strategy? op))
    (hargs : Lockstep R E (Results V node.children) args args') :
    Lockstep R E (V node) (Getter.operation c op node args) (Getter.operation c' op node' args') := by
  unfold Getter.operation
  generalize c.table.strategy? op = found at hstrategies ⊢
  generalize c'.table.strategy? op = found' at hstrategies ⊢
  cases hstrategies with
  | none => exact .throw hlacking
  | some h =>
      obtain ⟨hrefuses, hassemble⟩ := h
      dsimp only
      rw [← hrefuses]
      split
      · exact .throw hunsupported
      · refine hargs.bind fun es es' hes => ?_
        have hassembled := hassemble es es' hes
        unfold LoweringContext.assemble
        generalize Strategy.assemble? _ _ es = e at hassembled ⊢
        generalize Strategy.assemble? _ _ es' = e' at hassembled ⊢
        cases hassembled with
        | none => exact .throw hunsupported
        | some he => exact .pure he

theorem Results.eq_of_forall_eq {nodes : List Node} {es es' : List Expr}
    (h : Results (fun _ e e' => e' = e) nodes es es') : es' = es := by
  induction h with
  | nil => rfl
  | cons head _ ih => rw [head, ih]

/-- What it takes for two lowerings with one getter to go in lockstep: of states, faults, nodes at
their places, and expressions that a node became, it is said which correspond. -/
structure Simulation (g : Getter) (c c' : LoweringContext)
    (R : LoweringState → LoweringState → Prop) (E : LoweringError → LoweringError → Prop)
    (Pair : Place → Node → Place → Node → Prop) (V : Node → Expr → Expr → Prop) : Prop where
  /-- Corresponding nodes find their slots both filled or both empty, and fill them alike. -/
  slot {place place' : Place} {node node' : Node} {x y : Lowering Expr}
    (hpair : Pair place node place' node') (hxy : Lockstep R E (V node) x y) :
    Lockstep R E (V node) (c.withSlot (node.slotKey place) x) (c'.withSlot (node'.slotKey place') y)
  reference {place place' : Place} {index : Nat} {ty : LogicalType} {node' body : Node}
    (hpair : Pair place (.localRef index ty) place' node')
    (hbody : c.program.exprs[index]? = some body) :
    ∃ index' ty' body', node' = .localRef index' ty' ∧ c'.program.exprs[index']? = some body' ∧
      Pair (.root (.expr index)) body (.root (.expr index')) body' ∧ V body = V (.localRef index ty)
  operation {place place' : Place} {node node' : Node} {op : Operator}
    (hpair : Pair place node place' node') (hop : node.operator? = some op) :
    node'.operator? = some op ∧
      List.Forall₂ (fun item item' => Pair item.1 item.2 item'.1 item'.2)
        (place.childItems 0 node.children) (place'.childItems 0 node'.children) ∧
      ∀ args args', Lockstep R E (Results V node.children) args args' →
        Lockstep R E (V node) (Getter.operation c op node args) (Getter.operation c' op node' args')
  leaf {place place' : Place} {node node' : Node} (hpair : Pair place node place' node')
    (hop : node.operator? = none) (hreference : node.reference? = none) :
    node'.operator? = none ∧ node'.reference? = none ∧
      Lockstep R E (V node) (g.leaf c node) (g.leaf c' node')

namespace Simulation

variable {g : Getter} {c c' : LoweringContext} {R : LoweringState → LoweringState → Prop}
  {E : LoweringError → LoweringError → Prop} {Pair : Place → Node → Place → Node → Prop}
  {V : Node → Expr → Expr → Prop}

theorem lowerEach_of_lower {items items' : List (Place × Node)}
    (hitems : List.Forall₂ (fun item item' => Pair item.1 item.2 item'.1 item'.2) items items')
    (hlower : ∀ item ∈ items, ∀ place' node', Pair item.1 item.2 place' node' →
      Lockstep R E (V item.2) (g.lower c item.1 item.2) (g.lower c' place' node')) :
    Lockstep R E (Results V (items.map Prod.snd)) (g.lowerEach c items) (g.lowerEach c' items') := by
  induction hitems with
  | nil => exact .pure .nil
  | cons hpair _ ih =>
      obtain ⟨hfirst, hrest⟩ := List.forall_mem_cons.mp hlower
      refine (hfirst _ _ hpair).bind fun e e' he => ?_
      exact (ih hrest).bind fun es es' hes => .pure (.cons he hes)

/-- The step: one node, by the lockstep of what it is made of or refers to. -/
theorem lower (S : Simulation g c c' R E Pair V) {place place' : Place} {node node' : Node}
    (hnode : ∀ index ∈ node.references, index < c.program.exprs.length)
    (hpair : Pair place node place' node') :
    Lockstep R E (V node) (g.lower c place node) (g.lower c' place' node') := by
  refine c.program.resolving_induction (P := fun node => ∀ place place' node',
    Pair place node place' node' →
      Lockstep R E (V node) (g.lower c place node) (g.lower c' place' node'))
    ?reference ?other node hnode place place' node' hpair
  case reference =>
    intro index ty body hbody ih place place' node' hpair
    obtain ⟨index', ty', body', rfl, hbody', hbodies, hV⟩ := S.reference hpair hbody
    rw [Getter.lower_localRef g c place ty hbody, Getter.lower_localRef g c' place' ty' hbody']
    exact S.slot hpair (hV ▸ ih _ _ _ hbodies)
  case other =>
    intro node hreference ih place place' node' hpair
    cases hop : node.operator? with
    | none =>
        obtain ⟨hop', hreference', hleaf⟩ := S.leaf hpair hop hreference
        rw [Getter.lower_leaf g c place hop hreference,
          Getter.lower_leaf g c' place' hop' hreference']
        rw [← Node.slotKey_of_reference? hreference,
          ← Node.slotKey_of_reference? hreference']
        exact S.slot hpair hleaf
    | some op =>
        obtain ⟨hop', hchildren, hoperation⟩ := S.operation hpair hop
        have hargs := lowerEach_of_lower hchildren fun item hitem =>
          ih item.2 (Place.mem_of_mem_childItems hitem) item.1
        rw [place.map_snd_childItems] at hargs
        rw [Getter.lower_of_operator? g c place hop, Getter.lower_of_operator? g c' place' hop',
          ← Node.slotKey_of_operator? hop, ← Node.slotKey_of_operator? hop']
        exact S.slot hpair (hoperation _ _ hargs)

/-- The run: the projections, once it is known which expressions they share. -/
theorem lowerProjects (S : Simulation g c c' R E Pair V) {block block' : Block}
    (hitems : List.Forall₂ (fun item item' => Pair item.1 item.2 item'.1 item'.2)
      (LoweringContext.placed .project c.program.projects)
      (LoweringContext.placed .project c'.program.projects))
    (hstart : ∀ shared shared',
      (∀ index, index ∈ shared ↔
        c.policy = .shared ∧ 1 < c.program.occurrences c.program.projects index) →
      (∀ index, index ∈ shared' ↔
        c'.policy = .shared ∧ 1 < c'.program.occurrences c'.program.projects index) →
      R ⟨block, [], shared⟩ ⟨block', [], shared'⟩) :
    (∃ es es' s t, g.lowerProjects c block = (.ok es, s.block) ∧
        g.lowerProjects c' block' = (.ok es', t.block) ∧
          Results V c.program.projects es es' ∧ R s t) ∨
      ∃ e e' s t, g.lowerProjects c block = (.error e, s.block.rollback block.length) ∧
        g.lowerProjects c' block' = (.error e', t.block.rollback block'.length) ∧ E e e' ∧ R s t := by
  have hroots : ∀ p : Program, ∀ root ∈ p.projects, ∀ index ∈ root.references,
      index < p.exprs.length := fun p root hroot =>
    Program.lt_of_mem_references_output (List.mem_append_left _ hroot)
  obtain ⟨shared, hanalyze, hshared⟩ := c.analyze_start (hroots c.program) block
  obtain ⟨shared', hanalyze', hshared'⟩ := c'.analyze_start (hroots c'.program) block'
  obtain ⟨hresult, hstate⟩ := lowerEach_of_lower hitems
    (fun item hitem _ _ => S.lower (hroots _ item.2 (LoweringContext.mem_of_mem_placed hitem)))
    _ _ (hstart shared shared' hshared hshared')
  rw [LoweringContext.map_snd_placed] at hresult
  unfold Getter.lowerProjects Getter.lowerAll LoweringContext.run
  rw [Lowering.bind_apply, Lowering.bind_apply, LoweringContext.map_snd_placed,
    LoweringContext.map_snd_placed, hanalyze, hanalyze']
  dsimp only
  rcases hx : g.lowerEach c (LoweringContext.placed .project c.program.projects)
    ⟨block, [], shared⟩ with ⟨result, s⟩
  rcases hy : g.lowerEach c' (LoweringContext.placed .project c'.program.projects)
    ⟨block', [], shared'⟩ with ⟨result', t⟩
  rw [hx, hy] at hresult hstate
  cases hresult with
  | ok hes => exact .inl ⟨_, _, s, t, rfl, rfl, hes, hstate⟩
  | error he => exact .inr ⟨_, _, s, t, rfl, rfl, he, hstate⟩

end Simulation

end RowCode
