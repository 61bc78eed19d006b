import Mathlib.Data.List.Nodup
import RowCode.Program.Builder
import RowCode.Proofs.Reachability

/-!
# Registering expressions

A builder finds an expression by its digest and its type. Whatever is done with it, the digests and
types of its expressions stay pairwise distinct, and no expression is moved or replaced. A node that
is registered is therefore represented by itself just if it is like no other node that came first.
-/

namespace RowCode

/-! ### Digests and types in one text -/

namespace LogicalType

theorem text_injective : Function.Injective text := by
  have hall : ∀ t ∈ DataType.all, ∀ u ∈ DataType.all, ∀ n m : Bool,
      text ⟨t, n⟩ = text ⟨u, m⟩ → t = u ∧ n = m := by decide +kernel
  rintro ⟨t, n⟩ ⟨u, m⟩ h
  obtain ⟨rfl, rfl⟩ := hall t (DataType.mem_all t) u (DataType.mem_all u) n m h
  rfl

theorem colon_notMem_text (t : LogicalType) : ':' ∉ t.text.toList := by
  have hall : ∀ t ∈ DataType.all, ∀ n : Bool, ':' ∉ (text ⟨t, n⟩).toList := by decide +kernel
  exact hall t.dataType (DataType.mem_all t.dataType) t.nullable

end LogicalType

namespace ProgramBuilder

/-- Two nodes that a builder takes for the same expression. -/
def Alike (x y : Node) : Prop := x.digest = y.digest ∧ x.ty = y.ty

/-- The last separator ends the first part, as there is none in the second. -/
theorem of_append_cons_eq {α : Type} {mark : α} {left left' right right' : List α}
    (hright : mark ∉ right) (hright' : mark ∉ right')
    (h : left ++ mark :: right = left' ++ mark :: right') : left = left' ∧ right = right' := by
  rcases List.append_eq_append_iff.mp h with ⟨mid, rfl, hmid⟩ | ⟨mid, rfl, hmid⟩
  · cases mid with
    | nil => simpa using hmid
    | cons c mid =>
        obtain ⟨-, rfl⟩ := List.cons.inj hmid
        simp at hright
  · cases mid with
    | nil => simpa [eq_comm] using hmid
    | cons c mid =>
        obtain ⟨-, rfl⟩ := List.cons.inj hmid
        simp at hright'

/-- A digest may hold colons, but the text of a type has none. -/
theorem key_eq_iff {x y : Node} : key x = key y ↔ Alike x y := by
  constructor
  · intro h
    have htexts : x.digest.toList ++ ':' :: x.ty.text.toList =
        y.digest.toList ++ ':' :: y.ty.text.toList := by
      simpa [key] using congrArg String.toList h
    obtain ⟨hdigest, hty⟩ := of_append_cons_eq x.ty.colon_notMem_text y.ty.colon_notMem_text htexts
    exact ⟨String.toList_inj.mp hdigest, LogicalType.text_injective (String.toList_inj.mp hty)⟩
  · rintro ⟨hdigest, hty⟩
    rw [key, key, hdigest, hty]

/-! ### One registration -/

variable {b b' : ProgramBuilder} {node : Node}

/-- Registering a node finds an expression like it, or else adds the node. -/
theorem register_cases (b : ProgramBuilder) (hnode : node.reference? = none) :
    (∃ index expr, b.exprs[index]? = some expr ∧ Alike expr node ∧
      b.register node = (.localRef index node.ty, b)) ∨
    ((∀ expr ∈ b.exprs, ¬Alike expr node) ∧
      b.register node =
        (.localRef b.exprs.length node.ty, { b with exprs := b.exprs ++ [node] })) := by
  unfold register
  split
  · cases hnode
  · split
    · rename_i index hfind
      obtain ⟨hindex, hkey, -⟩ := List.findIdx?_eq_some_iff_getElem.mp hfind
      exact .inl ⟨index, b.exprs[index], List.getElem?_eq_getElem hindex,
        key_eq_iff.mp (of_decide_eq_true hkey), rfl⟩
    · rename_i hfind
      refine .inr ⟨fun expr hexpr halike => ?_, rfl⟩
      have hkey := List.findIdx?_eq_none_iff.mp hfind expr hexpr
      exact of_decide_eq_false hkey (key_eq_iff.mpr halike)

/-- No two expressions are alike. -/
def Keyed (b : ProgramBuilder) : Prop := (b.exprs.map key).Nodup

theorem Keyed.eq_of_alike (hb : b.Keyed) {x y : Node} (hx : x ∈ b.exprs) (hy : y ∈ b.exprs)
    (halike : Alike x y) : x = y :=
  List.inj_on_of_nodup_map hb hx hy (key_eq_iff.mpr halike)

/-- What every operation does: expressions stay where they are, and they stay pairwise distinct. -/
structure Grows (b b' : ProgramBuilder) : Prop where
  keeps : b.exprs <+: b'.exprs
  keyed : b.Keyed → b'.Keyed

namespace Grows

theorem refl (b : ProgramBuilder) : Grows b b := ⟨List.prefix_rfl, id⟩

theorem of_exprs_eq (h : b'.exprs = b.exprs) : Grows b b' :=
  ⟨h ▸ List.prefix_rfl, fun hb => by rwa [Keyed, h]⟩

theorem trans {b'' : ProgramBuilder} (h : Grows b b') (h' : Grows b' b'') : Grows b b'' :=
  ⟨h.keeps.trans h'.keeps, fun hb => h'.keyed (h.keyed hb)⟩

theorem getElem? (h : Grows b b') {index : Nat} {expr : Node} (hexpr : b.exprs[index]? = some expr) :
    b'.exprs[index]? = some expr := by
  obtain ⟨more, hmore⟩ := h.keeps
  obtain ⟨hindex, -⟩ := List.getElem?_eq_some_iff.mp hexpr
  rw [← hmore, List.getElem?_append_left hindex, hexpr]

end Grows

theorem grows_register (b : ProgramBuilder) (node : Node) : Grows b (b.register node).2 := by
  cases hnode : node.reference? with
  | some index =>
    cases node with
    | localRef => exact .refl b
    | inputRef | literal | call | case | dynamicParam => cases hnode
  | none =>
      rcases b.register_cases hnode with ⟨index, expr, -, -, h⟩ | ⟨hfresh, h⟩
      · rw [h]
        exact .refl b
      · rw [h]
        refine ⟨List.prefix_append _ _, fun hb => ?_⟩
        rw [Keyed, List.map_append, List.map_singleton, List.nodup_append]
        refine ⟨hb, List.nodup_singleton _, ?_⟩
        simp only [List.forall_mem_map, List.forall_mem_singleton]
        exact fun expr hexpr hkey => hfresh expr hexpr (key_eq_iff.mp hkey)

theorem grows_registerAll (b : ProgramBuilder) (nodes : List Node) :
    Grows b (b.registerAll nodes).2 := by
  induction nodes generalizing b with
  | nil => exact .refl b
  | cons node rest ih => exact (b.grows_register node).trans (ih _)

theorem grows_registerBranches (b : ProgramBuilder) (branches : List (Node × Node)) :
    Grows b (b.registerBranches branches).2 := by
  induction branches generalizing b with
  | nil => exact .refl b
  | cons branch rest ih =>
      exact (b.grows_register branch.1).trans ((grows_register _ branch.2).trans (ih _))

/-! ### Any sequence of operations -/

/-- One operation on a builder. -/
inductive Operation where
  | register (node : Node)
  | inputRef (index : Nat)
  | literal (value : Value) (ty : LogicalType)
  | call (op : Operator) (operands : List Node) (ty : LogicalType)
  | case (branches : List (Node × Node)) (otherwise : Node) (ty : LogicalType)
  | addProject (node : Node)
  | setCondition (node : Node)

/-- The builder after an operation. An input reference that is refused leaves it as it is. -/
def apply (b : ProgramBuilder) : Operation → ProgramBuilder
  | .register node => (b.register node).2
  | .inputRef index =>
    match b.inputRef index with
    | .ok (_, b) => b
    | .error _ => b
  | .literal value ty => (b.literal value ty).2
  | .call op operands ty => (b.call op operands ty).2
  | .case branches otherwise ty => (b.case branches otherwise ty).2
  | .addProject node => b.addProject node
  | .setCondition node => b.setCondition node

def after (b : ProgramBuilder) (operations : List Operation) : ProgramBuilder :=
  operations.foldl apply b

theorem grows_apply (b : ProgramBuilder) (operation : Operation) : Grows b (b.apply operation) := by
  cases operation with
  | register node => exact b.grows_register node
  | inputRef index =>
      rw [apply, ProgramBuilder.inputRef]
      cases b.inputRowType[index]? with
      | some ty => exact b.grows_register (.inputRef index ty)
      | none => exact .refl b
  | literal value ty => exact b.grows_register (.literal value ty)
  | call op operands ty => exact (b.grows_registerAll operands).trans (grows_register _ _)
  | case branches otherwise ty =>
      exact (b.grows_registerBranches branches).trans
        ((grows_register _ otherwise).trans (grows_register _ _))
  | addProject node => exact (b.grows_register node).trans (.of_exprs_eq rfl)
  | setCondition node => exact (b.grows_register node).trans (.of_exprs_eq rfl)

theorem grows_after (b : ProgramBuilder) (operations : List Operation) :
    Grows b (b.after operations) := by
  induction operations generalizing b with
  | nil => exact .refl b
  | cons operation rest ih => exact (b.grows_apply operation).trans (ih _)

theorem keyed_after (inputRowType : List LogicalType) (operations : List Operation) :
    ((empty inputRowType).after operations).Keyed :=
  (grows_after _ operations).keyed List.nodup_nil

/-- **A registered node is represented by an expression like it.** The reference that a builder
returns has the type of the node, and whatever is done next it leads to an expression of the same
digest and type. That expression is the node itself just if no other node like it came first. -/
theorem registered_node_has_expression (inputRowType : List LogicalType)
    (operations : List Operation) (node : Node) (hnode : node.reference? = none) :
    let b := (empty inputRowType).after operations
    ∃ index expr, (b.register node).1 = .localRef index node.ty ∧
      (∀ later, ((b.register node).2.after later).exprs[index]? = some expr) ∧
      expr.digest = node.digest ∧ expr.ty = node.ty ∧
      (expr = node ↔
        ∀ other ∈ b.exprs, other.digest = node.digest → other.ty = node.ty → other = node) := by
  intro b
  have hb : b.Keyed := keyed_after inputRowType operations
  rcases b.register_cases hnode with ⟨index, expr, hexpr, halike, h⟩ | ⟨hfresh, h⟩
  · rw [h]
    refine ⟨index, expr, rfl, fun later => (b.grows_after later).getElem? hexpr, halike.1, halike.2,
      ?_⟩
    have hmem : expr ∈ b.exprs := List.mem_of_getElem? hexpr
    constructor
    · rintro rfl other hother hdigest hty
      exact hb.eq_of_alike hother hmem ⟨hdigest, hty⟩
    · exact fun hsame => hsame expr hmem halike.1 halike.2
  · rw [h]
    have hadded : (b.exprs ++ [node])[b.exprs.length]? = some node := List.getElem?_concat_length
    refine ⟨b.exprs.length, node, rfl, fun later => (grows_after _ later).getElem? hadded, rfl, rfl,
      ?_⟩
    constructor
    · exact fun _ other hother hdigest hty => absurd ⟨hdigest, hty⟩ (hfresh other hother)
    · exact fun _ => rfl

/-- The field of a row and a literal in a sum, which is no expression yet. -/
def fieldPlusTwo : Node :=
  .call .plus [.localRef 0 (.notNull .integer), .literal (.int32 2) (.notNull .integer)]
    (.notNull .integer)

theorem field_plus_two_is_its_expression :
    let b := (empty [.notNull .integer]).after [.inputRef 0]
    ∃ index, (b.register fieldPlusTwo).1 = .localRef index (.notNull .integer) ∧
      (b.register fieldPlusTwo).2.exprs[index]? = some fieldPlusTwo := by
  obtain ⟨index, expr, href, hexpr, -, -, hself⟩ :=
    registered_node_has_expression [.notNull .integer] [.inputRef 0] fieldPlusTwo rfl
  have hfirst : expr = fieldPlusTwo := by
    apply hself.mpr
    intro other hother hdigest
    obtain rfl := List.mem_singleton.mp hother
    have hdistinct : (Node.inputRef 0 (.notNull .integer)).digest ≠ fieldPlusTwo.digest := by decide
    exact absurd hdigest hdistinct
  exact ⟨index, href, hfirst ▸ hexpr []⟩

/-- Integers of two kinds have one digest, so that the second is represented by the first. -/
theorem integers_of_two_kinds_are_confused :
    let b := (empty []).after [.literal (.int32 1) (.notNull .any)]
    let node := Node.literal (.int64 1) (.notNull .any)
    ¬∃ index, (b.register node).1 = .localRef index node.ty ∧
      (b.register node).2.exprs[index]? = some node := by
  rintro b node ⟨index, href, hexpr⟩
  have hregister : b.register node = (.localRef 0 node.ty, b) := by rfl
  rw [hregister] at href hexpr
  obtain ⟨rfl, -⟩ := Node.localRef.inj href
  obtain ⟨hvalue, -⟩ := Node.literal.inj (Option.some.inj hexpr)
  cases hvalue

end ProgramBuilder

end RowCode
