import Mathlib.Logic.Function.Iterate
import RowCode.Proofs.Composition

/-!
# Replacing variables

Replacing variables by expressions leaves the shape of an expression alone. What lowering decides by
the types of operands, it therefore decides the same way before and after, as long as each variable
is replaced by an expression of its type.
-/

namespace RowCode.Expr

/-! Replaces variables by name; a function literal hides its parameters. -/

mutual

def replace (σ : String → Option Expr) : Expr → Expr
  | constant value ty => constant value ty
  | var v => (σ v.name).getD (var v)
  | call target method args ty => call (replace σ target) method (replaceAll σ args) ty
  | staticCall owner method args ty => staticCall owner method (replaceAll σ args) ty
  | construct ty args => construct ty (replaceAll σ args)
  | binary op left right ty => binary op (replace σ left) (replace σ right) ty
  | unary op operand ty => unary op (replace σ operand) ty
  | conditional test ifTrue ifFalse ty =>
    conditional (replace σ test) (replace σ ifTrue) (replace σ ifFalse) ty
  | cast operand ty => cast (replace σ operand) ty
  | element array index ty => element (replace σ array) index ty
  | lambda parameters body =>
    lambda parameters
      (replace (fun name => if name ∈ parameters.map Variable.name then none else σ name) body)

def replaceAll (σ : String → Option Expr) : List Expr → List Expr
  | [] => []
  | e :: rest => replace σ e :: replaceAll σ rest

end

variable {σ τ : String → Option Expr}

theorem replaceAll_eq (σ : String → Option Expr) (es : List Expr) :
    replaceAll σ es = es.map (replace σ) := by
  induction es with
  | nil => rfl
  | cons e rest ih => rw [replaceAll, ih, List.map_cons]

/-- A function that changes what variables and static calls become, and what contains them
accordingly. -/
structure KeepsShape (f : Expr → Expr) : Prop where
  constant (value : Value) (ty : HostType) : f (.constant value ty) = .constant value ty
  call (target : Expr) (method : String) (args : List Expr) (ty : HostType) :
    f (.call target method args ty) = .call (f target) method (args.map f) ty
  construct (ty : HostType) (args : List Expr) : f (.construct ty args) = .construct ty (args.map f)
  binary (op : BinaryOp) (left right : Expr) (ty : HostType) :
    f (.binary op left right ty) = .binary op (f left) (f right) ty
  unary (op : UnaryOp) (operand : Expr) (ty : HostType) :
    f (.unary op operand ty) = .unary op (f operand) ty
  conditional (test ifTrue ifFalse : Expr) (ty : HostType) :
    f (.conditional test ifTrue ifFalse ty) = .conditional (f test) (f ifTrue) (f ifFalse) ty
  cast (operand : Expr) (ty : HostType) : f (.cast operand ty) = .cast (f operand) ty
  element (array : Expr) (index : Nat) (ty : HostType) :
    f (.element array index ty) = .element (f array) index ty

/-- A function that only changes variables, and what contains them accordingly. -/
structure Homomorphism (f : Expr → Expr) : Prop extends KeepsShape f where
  staticCall (owner method : String) (args : List Expr) (ty : HostType) :
    f (.staticCall owner method args ty) = .staticCall owner method (args.map f) ty

namespace KeepsShape

variable {f : Expr → Expr} (h : KeepsShape f)

include h

section Operands

variable {e : Expr} (hty : (f e).ty = e.ty)

include hty

theorem readAs (p : Primitive) : f (e.readAs p) = (f e).readAs p := by
  unfold Expr.readAs
  rw [hty]
  cases e.ty.unboxed? with
  | none => rw [h.call, h.cast, List.map_nil]
  | some q =>
      by_cases hq : q = p
      · simp only [if_pos hq, h.cast]
      · simp only [if_neg hq, h.call, List.map_nil]

theorem coerce (target : HostType) : f (e.coerce target) = (f e).coerce target := by
  unfold Expr.coerce
  rw [hty]
  by_cases hsame : e.ty = target
  · rw [if_pos hsame, if_pos hsame]
  · rw [if_neg hsame, if_neg hsame]
    by_cases hprimitive : e.ty.isPrimitive
    · rw [if_pos hprimitive, if_pos hprimitive, h.cast]
    · rw [if_neg hprimitive, if_neg hprimitive]
      cases target with
      | primitive p => exact h.readAs hty p
      | boxed | string | decimal | bigInteger | object | array => exact h.cast _ _

theorem unbox : f e.unbox = (f e).unbox ∧ (f e.unbox).ty = e.unbox.ty := by
  unfold Expr.unbox
  rw [hty]
  cases e.ty.unboxed? with
  | none => exact ⟨rfl, hty⟩
  | some p =>
      refine ⟨h.coerce hty _, ?_⟩
      rw [h.coerce hty, ty_coerce, ty_coerce]

theorem operation (op : BinaryOp) (right : Expr) :
    f (Expr.operation op e right) = Expr.operation op (f e) (f right) := by
  rw [Expr.operation, h.binary, Expr.operation, hty]

theorem elementAt (index : Nat) : f (e.elementAt index) = (f e).elementAt index := by
  rw [Expr.elementAt, h.element, Expr.elementAt, hty]

end Operands

theorem foldl_operation (op : BinaryOp) {first : Expr} (rest : List Expr)
    (hty : (f first).ty = first.ty) :
    f (rest.foldl (Expr.operation op) first) =
      (rest.map f).foldl (Expr.operation op) (f first) := by
  induction rest generalizing first with
  | nil => rfl
  | cons e rest ih =>
      rw [List.foldl_cons, List.map_cons, List.foldl_cons, ← h.operation hty]
      refine ih ?_
      rw [h.operation hty]
      simp only [Expr.operation, Expr.ty, hty]

theorem caseChain (ty : HostType) {branches : List (Expr × Expr)} {otherwise : Expr}
    (hbranches : ∀ branch ∈ branches, (f branch.1).ty = branch.1.ty ∧ (f branch.2).ty = branch.2.ty)
    (hotherwise : (f otherwise).ty = otherwise.ty) :
    f (Strategy.caseChain ty branches otherwise) =
      Strategy.caseChain ty (branches.map fun branch => (f branch.1, f branch.2)) (f otherwise) := by
  induction branches with
  | nil => exact h.coerce hotherwise ty
  | cons branch rest ih =>
      obtain ⟨htest, hresult⟩ := hbranches branch List.mem_cons_self
      have hrest := ih fun branch hmem => hbranches branch (List.mem_cons_of_mem _ hmem)
      change f (choose (branch.1.coerce .boolean) (branch.2.coerce ty)
        (Strategy.caseChain ty rest otherwise)) = choose ((f branch.1).coerce .boolean)
          ((f branch.2).coerce ty) (Strategy.caseChain ty _ (f otherwise))
      unfold choose
      rw [h.conditional, hrest, h.coerce htest, h.coerce hresult, ty_coerce, ty_coerce]

omit h in
theorem pairUp?_map {α β : Type} (k : α → β) (items : List α) :
    pairUp? (items.map k) =
      (pairUp? items).map fun (pairs, last) => (pairs.map fun pair => (k pair.1, k pair.2), k last) := by
  fun_induction pairUp? items with
  | case1 => rfl
  | case2 only => rfl
  | case3 first second rest ih =>
      rw [List.map_cons, List.map_cons, pairUp?, ih, Option.map_map, Option.map_map]
      rfl

/-- A strategy that calls no runtime function sees the number and the types of its operands only. -/
theorem assemble?_of_ne {strategy : Strategy} (hstrategy : ∀ method, strategy ≠ .runtimeCall method)
    (ty : HostType) {args : List Expr} (hargs : ∀ arg ∈ args, (f arg).ty = arg.ty) :
    strategy.assemble? ty (args.map f) = (strategy.assemble? ty args).map f := by
  cases strategy with
  | runtimeCall method => exact absurd rfl (hstrategy method)
  | fold op =>
      match args with
      | [] => rfl
      | [only] => rfl
      | first :: second :: rest =>
          have hunbox : ((second :: rest).map f).map Expr.unbox =
              ((second :: rest).map Expr.unbox).map f := by
            rw [List.map_map, List.map_map]
            refine List.map_congr_left fun arg harg => ?_
            exact (h.unbox (hargs arg (List.mem_cons_of_mem _ harg))).1.symm
          obtain ⟨hfirst, hty⟩ := h.unbox (hargs first List.mem_cons_self)
          change some _ = some _
          rw [h.foldl_operation op _ hty, ← hunbox, hfirst]
          rfl
  | unary op =>
      match args with
      | [] => rfl
      | [operand] =>
          obtain ⟨hoperand, hty⟩ := h.unbox (hargs operand List.mem_cons_self)
          change some _ = some _
          rw [h.unary, ← hoperand, hty]
      | first :: second :: rest => rfl
  | nullTest holdsForValues =>
      match args with
      | [] => rfl
      | [operand] =>
          have hty := hargs operand List.mem_cons_self
          have hnull : f .null = .null := h.constant _ _
          change some _ = some _
          rw [hty]
          split
          · rw [boolean, h.constant]
          · split
            · rw [notEqual, notEqual, h.operation hty, hnull]
            · rw [equal, equal, h.operation hty, hnull]
      | first :: second :: rest => rfl
  | case =>
      change (pairUp? (args.map f)).map _ = ((pairUp? args).map _).map f
      rw [pairUp?_map, Option.map_map, Option.map_map]
      refine Option.map_congr fun pairs hpairs => ?_
      obtain ⟨branches, otherwise⟩ := pairs
      obtain ⟨hmem, hlast⟩ := Compositional.mem_of_pairUp? hpairs
      exact (h.caseChain ty (fun branch hbranch => ⟨hargs _ (hmem branch hbranch).1,
        hargs _ (hmem branch hbranch).2⟩) (hargs _ hlast)).symm
  | cast =>
      match args with
      | [] => rfl
      | [operand] =>
          change some _ = some _
          rw [h.coerce (hargs operand List.mem_cons_self)]
      | first :: second :: rest => rfl

theorem lowerLiteral (adapter : TypeAdapter) (value : Value) (ty : LogicalType) :
    f (lowerLiteral adapter value ty) = RowCode.lowerLiteral adapter value ty := by
  unfold RowCode.lowerLiteral
  dsimp only
  split
  · exact h.constant _ _
  · split
    · rw [h.construct, List.map_singleton, h.constant]
    · exact h.constant _ _

theorem fieldOf {layout : RowLayout} {row : Expr} (hty : (f row).ty = row.ty) (index : Nat) :
    layout.fieldOf (f row) index = (layout.fieldOf row index).map f := by
  unfold RowLayout.fieldOf
  cases layout.fieldTypes[index]? with
  | none => rfl
  | some ty =>
      have helement : (f (row.elementAt index)).ty = (row.elementAt index).ty := by
        rw [h.elementAt hty, Expr.elementAt, Expr.elementAt, hty]
        rfl
      change Except.ok _ = Except.ok _
      rw [h.coerce helement, h.elementAt hty]

end KeepsShape

theorem homomorphism_replace (σ : String → Option Expr) : Homomorphism (replace σ) where
  constant _ _ := rfl
  call _ _ _ _ := by rw [replace, replaceAll_eq]
  staticCall _ _ _ _ := by rw [replace, replaceAll_eq]
  construct _ _ := by rw [replace, replaceAll_eq]
  binary _ _ _ _ := rfl
  unary _ _ _ := rfl
  conditional _ _ _ _ := rfl
  cast _ _ := rfl
  element _ _ _ := rfl

namespace Homomorphism

variable {f g : Expr → Expr}

theorem id : Homomorphism id where
  constant _ _ := rfl
  call _ _ _ _ := by rw [List.map_id]; rfl
  staticCall _ _ _ _ := by rw [List.map_id]; rfl
  construct _ _ := by rw [List.map_id]; rfl
  binary _ _ _ _ := rfl
  unary _ _ _ := rfl
  conditional _ _ _ _ := rfl
  cast _ _ := rfl
  element _ _ _ := rfl

theorem comp (hg : Homomorphism g) (hf : Homomorphism f) : Homomorphism (g ∘ f) where
  constant _ _ := by rw [Function.comp_apply, hf.constant, hg.constant]
  call _ _ _ _ := by rw [Function.comp_apply, hf.call, hg.call, List.map_map]; rfl
  staticCall _ _ _ _ := by rw [Function.comp_apply, hf.staticCall, hg.staticCall, List.map_map]
  construct _ _ := by rw [Function.comp_apply, hf.construct, hg.construct, List.map_map]
  binary _ _ _ _ := by rw [Function.comp_apply, hf.binary, hg.binary]; rfl
  unary _ _ _ := by rw [Function.comp_apply, hf.unary, hg.unary]; rfl
  conditional _ _ _ _ := by rw [Function.comp_apply, hf.conditional, hg.conditional]; rfl
  cast _ _ := by rw [Function.comp_apply, hf.cast, hg.cast]; rfl
  element _ _ _ := by rw [Function.comp_apply, hf.element, hg.element]; rfl

theorem iterate (hf : Homomorphism f) (n : Nat) : Homomorphism f^[n] := by
  induction n with
  | zero => exact .id
  | succ n ih => exact ih.comp hf

theorem compositional_eq (hf : Homomorphism f) (hg : Homomorphism g) :
    Compositional fun e => f e = g e where
  constant _ _ := by rw [hf.constant, hg.constant]
  call _ _ _ htarget hargs := by
    rw [hf.call, hg.call, htarget, List.map_congr_left hargs]
  staticCall _ _ _ _ hargs := by rw [hf.staticCall, hg.staticCall, List.map_congr_left hargs]
  construct _ _ hargs := by rw [hf.construct, hg.construct, List.map_congr_left hargs]
  binary _ _ _ _ hleft hright := by rw [hf.binary, hg.binary, hleft, hright]
  unary _ _ _ hoperand := by rw [hf.unary, hg.unary, hoperand]
  conditional _ htest htrue hfalse := by
    rw [hf.conditional, hg.conditional, htest, htrue, hfalse]
  cast _ hoperand := by rw [hf.cast, hg.cast, hoperand]
  element _ _ harray := by rw [hf.element, hg.element, harray]

variable (h : Homomorphism f)

include h

theorem compositional_image {P : Expr → Prop} (hP : Compositional P) :
    Compositional fun e => P (f e) where
  constant _ _ := by
    rw [h.constant]
    exact hP.constant _ _
  call _ _ _ htarget hargs := by
    rw [h.call]
    exact hP.call _ _ htarget (List.forall_mem_map.mpr hargs)
  staticCall _ _ _ _ hargs := by
    rw [h.staticCall]
    exact hP.staticCall _ _ _ (List.forall_mem_map.mpr hargs)
  construct _ _ hargs := by
    rw [h.construct]
    exact hP.construct _ (List.forall_mem_map.mpr hargs)
  binary _ _ _ _ hleft hright := by
    rw [h.binary]
    exact hP.binary _ _ hleft hright
  unary _ _ _ hoperand := by
    rw [h.unary]
    exact hP.unary _ _ hoperand
  conditional _ htest htrue hfalse := by
    rw [h.conditional]
    exact hP.conditional _ htest htrue hfalse
  cast _ hoperand := by
    rw [h.cast]
    exact hP.cast _ hoperand
  element _ _ harray := by
    rw [h.element]
    exact hP.element _ _ harray

theorem ty_eq {e : Expr} (hfirst : e.FirstOrder) (hvars : ∀ v ∈ e.vars, (f (.var v)).ty = v.ty) :
    (f e).ty = e.ty := by
  cases e with
  | constant value ty => rw [h.constant]
  | var v => exact hvars v List.mem_cons_self
  | call target method args ty => rw [h.call]; rfl
  | staticCall owner method args ty => rw [h.staticCall]; rfl
  | construct ty args => rw [h.construct]; rfl
  | binary op left right ty => rw [h.binary]; rfl
  | unary op operand ty => rw [h.unary]; rfl
  | conditional test ifTrue ifFalse ty => rw [h.conditional]; rfl
  | cast operand ty => rw [h.cast]; rfl
  | element array index ty => rw [h.element]; rfl
  | lambda => exact hfirst.elim

/-- **Strategies do not look into their operands.** They see their number and their types. -/
theorem assemble? (strategy : Strategy) (ty : HostType) {args : List Expr}
    (hargs : ∀ arg ∈ args, (f arg).ty = arg.ty) :
    strategy.assemble? ty (args.map f) = (strategy.assemble? ty args).map f := by
  by_cases hcall : ∃ method, strategy = .runtimeCall method
  · obtain ⟨method, rfl⟩ := hcall
    change some _ = some _
    rw [runtimeCall, runtimeCall, h.staticCall]
  · exact h.assemble?_of_ne (fun method hmethod => hcall ⟨method, hmethod⟩) ty hargs

end Homomorphism

end RowCode.Expr
