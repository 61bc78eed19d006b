import RowCode.Proofs.CaseBranches
import RowCode.Proofs.Typing

/-!
# Casts of expressions

The host refuses to cast a primitive to the box of another one, a box to another primitive, and a box
to another box. What lowering builds contains such a cast in one place only: where an operand is
coerced to a box.
-/

namespace RowCode

/-- Whether the host refuses a cast from the first type to the second. -/
def HostType.clashes : HostType → HostType → Bool
  | .primitive p, .boxed q | .boxed p, .primitive q | .boxed p, .boxed q => p ≠ q
  | _, _ => false

namespace HostType

variable {source target : HostType}

theorem clashes_eq_false (hbox : source.unboxed? = none) (hprimitive : source.isPrimitive = false)
    (target : HostType) : source.clashes target = false := by
  cases source with
  | primitive p => cases hprimitive
  | boxed p => cases hbox
  | string | decimal | bigInteger | object | array => rfl

theorem exists_boxed_of_clashes (hclashes : source.clashes target = true)
    (hkinds : source.isPrimitive = true ∨ target.isPrimitive = false) :
    ∃ q, target = .boxed q := by
  cases target with
  | boxed q => exact ⟨q, rfl⟩
  | primitive p =>
      cases source with
      | boxed q =>
          rcases hkinds with hkind | hkind
          · cases hkind
          · cases hkind
      | primitive | string | decimal | bigInteger | object | array => cases hclashes
  | string | decimal | bigInteger | object | array => cases source <;> cases hclashes

end HostType

namespace Expr

/-! The casts in an expression, each from the type of what is cast to the type that it is cast to. -/

mutual

def casts : Expr → List (HostType × HostType)
  | constant _ _ => []
  | var _ => []
  | call target _ args _ => casts target ++ castsOfAll args
  | staticCall _ _ args _ => castsOfAll args
  | construct _ args => castsOfAll args
  | binary _ left right _ => casts left ++ casts right
  | unary _ operand _ => casts operand
  | conditional test ifTrue ifFalse _ => casts test ++ casts ifTrue ++ casts ifFalse
  | cast operand ty => (operand.ty, ty) :: casts operand
  | element array _ _ => casts array
  | lambda _ body => casts body

def castsOfAll : List Expr → List (HostType × HostType)
  | [] => []
  | e :: rest => casts e ++ castsOfAll rest

end

theorem castsOfAll_eq (es : List Expr) : castsOfAll es = es.flatMap casts := by
  induction es with
  | nil => rfl
  | cons e rest ih => rw [castsOfAll, ih, List.flatMap_cons]

/-- Each cast in the expression that the host refuses is as told. -/
def RefusedAs (X : HostType → HostType → Prop) (e : Expr) : Prop :=
  ∀ source target, (source, target) ∈ e.casts → source.clashes target = true → X source target

variable {X : HostType → HostType → Prop} {e : Expr}

theorem refusedAs_of_casts_eq_nil (h : e.casts = []) : e.RefusedAs X := by
  intro source target hcast
  rw [h] at hcast
  cases hcast

namespace RefusedAs

theorem cast (he : e.RefusedAs X) {ty : HostType} (hcast : e.ty.clashes ty = true → X e.ty ty) :
    (Expr.cast e ty).RefusedAs X := by
  intro source target hmem hclashes
  rcases List.mem_cons.mp hmem with hsame | hinside
  · obtain ⟨rfl, rfl⟩ := Prod.mk.inj hsame
    exact hcast hclashes
  · exact he source target hinside hclashes

theorem call_nil (he : e.RefusedAs X) (method : String) (ty : HostType) :
    (Expr.call e method [] ty).RefusedAs X := by
  intro source target hmem hclashes
  rw [casts, castsOfAll, List.append_nil] at hmem
  exact he source target hmem hclashes

theorem readAs (he : e.RefusedAs X) (hprimitive : e.ty.isPrimitive = false) (p : Primitive) :
    (e.readAs p).RefusedAs X := by
  unfold Expr.readAs
  cases hbox : e.ty.unboxed? with
  | none =>
      refine (he.cast fun hclashes => ?_).call_nil _ _
      rw [HostType.clashes_eq_false hbox hprimitive] at hclashes
      cases hclashes
  | some q =>
      by_cases hq : q = p
      · have hty : e.ty = .boxed p := by
          cases hty : e.ty with
          | boxed r =>
              rw [hty] at hbox
              exact congrArg HostType.boxed ((Option.some.inj hbox).trans hq)
          | primitive | string | decimal | bigInteger | object | array =>
              rw [hty] at hbox
              cases hbox
        simp only [if_pos hq]
        refine he.cast fun hclashes => ?_
        rw [hty] at hclashes
        exact absurd rfl (of_decide_eq_true hclashes)
      · simp only [if_neg hq]
        exact he.call_nil _ _

/-- **Coercing adds a refused cast to a box only.** -/
theorem coerce (he : e.RefusedAs X) {target : HostType}
    (hcast : ∀ q, target = .boxed q → e.ty.clashes target = true → X e.ty target) :
    (e.coerce target).RefusedAs X := by
  unfold Expr.coerce
  by_cases hsame : e.ty = target
  · rw [if_pos hsame]
    exact he
  · rw [if_neg hsame]
    by_cases hprimitive : e.ty.isPrimitive = true
    · rw [if_pos hprimitive]
      refine he.cast fun hclashes => ?_
      obtain ⟨q, hq⟩ := HostType.exists_boxed_of_clashes hclashes (Or.inl hprimitive)
      exact hcast q hq hclashes
    · rw [if_neg hprimitive]
      cases target with
      | primitive p => exact he.readAs (eq_false_of_ne_true hprimitive) p
      | boxed q => exact he.cast (hcast q rfl)
      | string | decimal | bigInteger | object | array =>
          refine he.cast fun hclashes => ?_
          obtain ⟨q, hq⟩ := HostType.exists_boxed_of_clashes hclashes (Or.inr rfl)
          exact hcast q hq hclashes

theorem coerce_primitive (he : e.RefusedAs X) (p : Primitive) :
    (e.coerce (.primitive p)).RefusedAs X := by
  refine he.coerce fun q hq => ?_
  cases hq

theorem unbox (he : e.RefusedAs X) : e.unbox.RefusedAs X := by
  unfold Expr.unbox
  split
  · exact he.coerce_primitive _
  · exact he

theorem binary {right : Expr} (he : e.RefusedAs X) (hright : right.RefusedAs X) (op : BinaryOp)
    (ty : HostType) : (Expr.binary op e right ty).RefusedAs X := by
  intro source target hmem hclashes
  rcases List.mem_append.mp hmem with hmem | hmem
  · exact he source target hmem hclashes
  · exact hright source target hmem hclashes

theorem foldl_operation (op : BinaryOp) {first : Expr} {rest : List Expr} (hfirst : first.RefusedAs X)
    (hrest : ∀ e ∈ rest, e.RefusedAs X) : (rest.foldl (operation op) first).RefusedAs X := by
  induction rest generalizing first with
  | nil => exact hfirst
  | cons e rest ih =>
      obtain ⟨he, hrest⟩ := List.forall_mem_cons.mp hrest
      exact ih (hfirst.binary he op _) hrest

theorem caseChain {ty : HostType} {branches : List (Expr × Expr)} {otherwise : Expr}
    (hbranches : ∀ branch ∈ branches, branch.1.RefusedAs X ∧ branch.2.RefusedAs X)
    (hotherwise : otherwise.RefusedAs X)
    (hcast : ∀ result ∈ branches.map Prod.snd ++ [otherwise],
      ∀ q, ty = .boxed q → result.ty.clashes ty = true → X result.ty ty) :
    (Strategy.caseChain ty branches otherwise).RefusedAs X := by
  induction branches with
  | nil => exact hotherwise.coerce (hcast otherwise (List.mem_singleton_self _))
  | cons branch rest ih =>
      obtain ⟨⟨htest, hresult⟩, hrest⟩ := List.forall_mem_cons.mp hbranches
      rw [List.map_cons, List.cons_append, List.forall_mem_cons] at hcast
      rw [Strategy.caseChain_cons]
      intro source target hmem hclashes
      rw [choose, casts] at hmem
      rcases List.mem_append.mp hmem with hmem | hmem
      · rcases List.mem_append.mp hmem with hmem | hmem
        · exact htest.coerce_primitive _ source target hmem hclashes
        · exact hresult.coerce hcast.1 source target hmem hclashes
      · exact ih hrest hcast.2 source target hmem hclashes

end RefusedAs

theorem casts_lowerLiteral (adapter : TypeAdapter) (value : Value) (ty : LogicalType) :
    (lowerLiteral adapter value ty).casts = [] := by
  unfold lowerLiteral
  dsimp only
  split
  · rfl
  · split <;> rfl

/-- Fields of a row of objects are cast from objects, which the host does not refuse. -/
theorem refusedAs_fieldOf {layout : RowLayout} {row : Variable} {index : Nat}
    (hrow : row.ty = .objectArray) (hfield : layout.fieldOf (.var row) index = .ok e) :
    e.RefusedAs X := by
  unfold RowLayout.fieldOf at hfield
  split at hfield
  · have hty : ((Expr.var row).elementAt index).ty = .object := by
      rw [elementAt, Expr.ty, Expr.ty, hrow]
    rw [← Except.ok.inj hfield]
    refine RefusedAs.coerce (refusedAs_of_casts_eq_nil rfl) fun q _ hclashes => ?_
    rw [hty] at hclashes
    cases hclashes
  · cases hfield

/-- A refused cast to a box is what coercing to the box comes to. -/
theorem mem_casts_coerce {q : Primitive} (hclashes : e.ty.clashes (.boxed q) = true) :
    (e.ty, .boxed q) ∈ (e.coerce (.boxed q)).casts := by
  have hsame : e.ty ≠ .boxed q := by
    intro hty
    rw [hty] at hclashes
    exact absurd rfl (of_decide_eq_true hclashes)
  have hcast : e.coerce (.boxed q) = .cast e (.boxed q) := by
    unfold coerce
    by_cases hprimitive : e.ty.isPrimitive = true
    · rw [if_neg hsame, if_pos hprimitive]
    · rw [if_neg hsame, if_neg hprimitive]
  rw [hcast, casts]
  exact List.mem_cons_self

end Expr

/-! ### What strategies convert -/

/-- Every second item and the last one: of the operands of a CASE, the results. -/
def everySecond {α : Type} : List α → List α
  | [] => []
  | [last] => [last]
  | _ :: second :: rest => second :: everySecond rest

theorem everySecond_eq {α : Type} {items : List α} {pairs : List (α × α)} {last : α}
    (hpairs : pairUp? items = some (pairs, last)) :
    everySecond items = pairs.map Prod.snd ++ [last] := by
  fun_induction pairUp? items generalizing pairs with
  | case1 => cases hpairs
  | case2 only =>
      obtain ⟨rfl, rfl⟩ := Prod.mk.inj (Option.some.inj hpairs)
      rfl
  | case3 first second rest ih =>
      obtain ⟨⟨pairs, last⟩, hrest, heq⟩ := Option.map_eq_some_iff.mp hpairs
      obtain ⟨rfl, rfl⟩ := Prod.mk.inj heq
      rw [everySecond, ih hrest]
      rfl

theorem everySecond_forall₂ {α β : Type} {R : α → β → Prop} {xs : List α} {ys : List β}
    (h : List.Forall₂ R xs ys) : List.Forall₂ R (everySecond xs) (everySecond ys) := by
  fun_induction everySecond xs generalizing ys with
  | case1 =>
      cases h
      exact .nil
  | case2 last =>
      cases h with
      | cons hlast hnil =>
          cases hnil
          exact .cons hlast .nil
  | case3 first second rest ih =>
      cases h with
      | cons _ htail =>
          cases htail with
          | cons hsecond hrest => exact .cons hsecond (ih hrest)

namespace Strategy

/-- The operands that the strategy brings to the type of the call: that of a CAST, and the results of
a CASE. -/
def converted {α : Type} (s : Strategy) (operands : List α) : List α :=
  match s with
  | .cast => operands
  | .case => everySecond operands
  | _ => []

theorem converted_forall₂ {α β : Type} {R : α → β → Prop} {xs : List α} {ys : List β}
    (h : List.Forall₂ R xs ys) (s : Strategy) :
    List.Forall₂ R (s.converted xs) (s.converted ys) := by
  cases s with
  | cast => exact h
  | case => exact everySecond_forall₂ h
  | runtimeCall | fold | unary | nullTest => exact .nil

variable {X : HostType → HostType → Prop} {strategy : Strategy} {ty : HostType} {args : List Expr}
  {e : Expr}

/-- **What a strategy adds.** The refused casts in what is assembled are those in the arguments, and
those of the arguments that are brought to a box. -/
theorem refusedAs_assemble? (hargs : ∀ arg ∈ args, arg.RefusedAs X)
    (hcast : ∀ arg ∈ strategy.converted args, ∀ q, ty = .boxed q → arg.ty.clashes ty = true →
      X arg.ty ty)
    (he : strategy.assemble? ty args = some e) : e.RefusedAs X := by
  unfold assemble? at he
  split at he
  · obtain rfl := Option.some.inj he
    intro source target hmem hclashes
    rw [Expr.runtimeCall, Expr.casts, Expr.castsOfAll_eq] at hmem
    obtain ⟨arg, harg, hmem⟩ := List.mem_flatMap.mp hmem
    exact hargs arg harg source target hmem hclashes
  · obtain rfl := Option.some.inj he
    obtain ⟨hfirst, hrest⟩ := List.forall_mem_cons.mp hargs
    refine hfirst.unbox.foldl_operation _ fun operand hoperand => ?_
    obtain ⟨arg, harg, rfl⟩ := List.mem_map.mp hoperand
    exact (hrest arg harg).unbox
  · obtain rfl := Option.some.inj he
    exact (hargs _ List.mem_cons_self).unbox
  · obtain rfl := Option.some.inj he
    have hoperand := hargs _ List.mem_cons_self
    have hnull : Expr.null.RefusedAs X := Expr.refusedAs_of_casts_eq_nil rfl
    split
    · exact Expr.refusedAs_of_casts_eq_nil rfl
    · split
      · exact hoperand.binary hnull _ _
      · exact hoperand.binary hnull _ _
  · obtain ⟨⟨branches, otherwise⟩, hpairs, rfl⟩ := Option.map_eq_some_iff.mp he
    obtain ⟨hmem, hlast⟩ := Expr.Compositional.mem_of_pairUp? hpairs
    refine Expr.RefusedAs.caseChain (fun branch hbranch => ?_) (hargs _ hlast) ?_
    · exact ⟨hargs _ (hmem branch hbranch).1, hargs _ (hmem branch hbranch).2⟩
    · rwa [converted, everySecond_eq hpairs] at hcast
  · obtain rfl := Option.some.inj he
    exact (hargs _ List.mem_cons_self).coerce (hcast _ List.mem_cons_self)
  · cases he

/-- Each of these arguments is cast, where the host refuses it. -/
theorem mem_casts_assemble? {q : Primitive} {arg : Expr} (harg : arg ∈ strategy.converted args)
    (hclashes : arg.ty.clashes (.boxed q) = true)
    (he : strategy.assemble? (.boxed q) args = some e) : (arg.ty, .boxed q) ∈ e.casts := by
  have hcast := Expr.mem_casts_coerce hclashes
  unfold assemble? at he
  split at he
  · cases harg
  · cases harg
  · cases harg
  · cases harg
  · obtain ⟨⟨branches, otherwise⟩, hpairs, rfl⟩ := Option.map_eq_some_iff.mp he
    rw [converted, everySecond_eq hpairs] at harg
    change _ ∈ (caseChain (.boxed q) branches otherwise).casts
    clear hpairs he
    induction branches with
    | nil =>
        rw [List.mem_singleton.mp harg] at hcast ⊢
        exact hcast
    | cons branch rest ih =>
        rw [caseChain_cons, Expr.choose, Expr.casts]
        rcases List.mem_cons.mp harg with rfl | harg
        · exact List.mem_append_left _ (List.mem_append_right _ hcast)
        · exact List.mem_append_right _ (ih harg)
  · obtain rfl := Option.some.inj he
    rw [List.mem_singleton.mp harg] at hcast ⊢
    exact hcast
  · cases he

end Strategy

/-- The nodes in this one that are brought to its type: the operand of a CAST, and the results of a
CASE. -/
def Node.converted (node : Node) : List Node :=
  match node.operator? with
  | some .cast => node.children
  | some .case => everySecond node.children
  | _ => []

theorem Node.converted_eq {node : Node} {op : Operator} {strategy : Strategy} {table : OperatorTable}
    (hop : node.operator? = some op) (hstrategy : table.strategy? op = some strategy) :
    node.converted = strategy.converted node.children := by
  unfold converted
  rw [hop]
  cases table <;> cases op <;> cases hstrategy <;> rfl

end RowCode
