import RowCode.Lowering.Input
import RowCode.Lowering.Literal
import RowCode.Lowering.Strategy

/-!
# How expressions are put together

Lowering builds an expression from the expressions of the operands with everything the host language
has but variables and function literals. A property that each of these constructors keeps is
*compositional*; coercions, strategies and field accesses then keep it as well, and an expression
without function literals has it as soon as its variables do. It is enough for lowering if the property
is kept with the methods, classes and constants that lowering takes.
-/

namespace RowCode.Expr

/-! The variables that occur in an expression, in the order they are written. -/

mutual

def vars : Expr → List Variable
  | constant _ _ => []
  | var v => [v]
  | call target _ args _ => vars target ++ varsOfAll args
  | staticCall _ _ args _ => varsOfAll args
  | construct _ args => varsOfAll args
  | binary _ left right _ => vars left ++ vars right
  | unary _ operand _ => vars operand
  | conditional test ifTrue ifFalse _ => vars test ++ vars ifTrue ++ vars ifFalse
  | cast operand _ => vars operand
  | element array _ _ => vars array
  | lambda _ body => vars body

def varsOfAll : List Expr → List Variable
  | [] => []
  | e :: rest => vars e ++ varsOfAll rest

end

theorem varsOfAll_eq (es : List Expr) : varsOfAll es = es.flatMap vars := by
  induction es with
  | nil => rfl
  | cons e rest ih => rw [varsOfAll, ih, List.flatMap_cons]

/-! An expression is first-order if no function literal occurs in it. -/

mutual

def FirstOrder : Expr → Prop
  | constant _ _ => True
  | var _ => True
  | call target _ args _ => FirstOrder target ∧ AllFirstOrder args
  | staticCall _ _ args _ => AllFirstOrder args
  | construct _ args => AllFirstOrder args
  | binary _ left right _ => FirstOrder left ∧ FirstOrder right
  | unary _ operand _ => FirstOrder operand
  | conditional test ifTrue ifFalse _ =>
    FirstOrder test ∧ FirstOrder ifTrue ∧ FirstOrder ifFalse
  | cast operand _ => FirstOrder operand
  | element array _ _ => FirstOrder array
  | lambda _ _ => False

def AllFirstOrder : List Expr → Prop
  | [] => True
  | e :: rest => FirstOrder e ∧ AllFirstOrder rest

end

theorem allFirstOrder_iff (es : List Expr) : AllFirstOrder es ↔ ∀ e ∈ es, FirstOrder e := by
  induction es with
  | nil => simp [AllFirstOrder]
  | cons e rest ih => simp [AllFirstOrder, ih]

/-- A property that an expression has if its operands have it. -/
structure Compositional (P : Expr → Prop) : Prop where
  constant (value : Value) (ty : HostType) : P (.constant value ty)
  call {target : Expr} (method : String) {args : List Expr} (ty : HostType) : P target →
    (∀ arg ∈ args, P arg) → P (.call target method args ty)
  staticCall (owner method : String) {args : List Expr} (ty : HostType) : (∀ arg ∈ args, P arg) →
    P (.staticCall owner method args ty)
  construct (ty : HostType) {args : List Expr} : (∀ arg ∈ args, P arg) → P (.construct ty args)
  binary (op : BinaryOp) {left right : Expr} (ty : HostType) : P left → P right →
    P (.binary op left right ty)
  unary (op : UnaryOp) {operand : Expr} (ty : HostType) : P operand → P (.unary op operand ty)
  conditional {test ifTrue ifFalse : Expr} (ty : HostType) : P test → P ifTrue → P ifFalse →
    P (.conditional test ifTrue ifFalse ty)
  cast {operand : Expr} (ty : HostType) : P operand → P (.cast operand ty)
  element {array : Expr} (index : Nat) (ty : HostType) : P array → P (.element array index ty)

/-- The same, as long as called methods and their classes are among the `words`, and constants among
the `values`. -/
structure CompositionalOver (words : String → Prop) (values : Value → Prop) (P : Expr → Prop) :
    Prop where
  constant {value : Value} (ty : HostType) : values value → P (.constant value ty)
  call {target : Expr} {method : String} {args : List Expr} (ty : HostType) : words method →
    P target → (∀ arg ∈ args, P arg) → P (.call target method args ty)
  staticCall {owner method : String} {args : List Expr} (ty : HostType) : words owner →
    words method → (∀ arg ∈ args, P arg) → P (.staticCall owner method args ty)
  construct (ty : HostType) {args : List Expr} : (∀ arg ∈ args, P arg) → P (.construct ty args)
  binary (op : BinaryOp) {left right : Expr} (ty : HostType) : P left → P right →
    P (.binary op left right ty)
  unary (op : UnaryOp) {operand : Expr} (ty : HostType) : P operand → P (.unary op operand ty)
  conditional {test ifTrue ifFalse : Expr} (ty : HostType) : P test → P ifTrue → P ifFalse →
    P (.conditional test ifTrue ifFalse ty)
  cast {operand : Expr} (ty : HostType) : P operand → P (.cast operand ty)
  element {array : Expr} (index : Nat) (ty : HostType) : P array → P (.element array index ty)

/-- What lowering adds on its own: methods of boxes, the class of the runtime, and the constants of
null tests. -/
structure AddedByLowering (words : String → Prop) (values : Value → Prop) : Prop where
  valueMethod (p : Primitive) : words p.valueMethod
  runtimeClass : words runtimeClass
  null : values .null
  boolean (b : Bool) : values (.boolean b)

theorem Compositional.over {P : Expr → Prop} (h : Compositional P) (words : String → Prop)
    (values : Value → Prop) : CompositionalOver words values P where
  constant ty _ := h.constant _ ty
  call ty _ htarget hargs := h.call _ ty htarget hargs
  staticCall ty _ _ hargs := h.staticCall _ _ ty hargs
  construct ty _ hargs := h.construct ty hargs
  binary op _ _ ty hleft hright := h.binary op ty hleft hright
  unary op _ ty hoperand := h.unary op ty hoperand
  conditional ty htest htrue hfalse := h.conditional ty htest htrue hfalse
  cast ty hoperand := h.cast ty hoperand
  element index ty harray := h.element index ty harray

theorem compositional_vars (S : Variable → Prop) : Compositional fun e => ∀ v ∈ e.vars, S v where
  constant _ _ := by simp [vars]
  call _ _ _ htarget hargs := by
    simp only [vars, varsOfAll_eq, List.mem_append, List.mem_flatMap]
    rintro v (hv | ⟨arg, harg, hv⟩)
    · exact htarget v hv
    · exact hargs arg harg v hv
  staticCall _ _ _ _ hargs := by
    simp only [vars, varsOfAll_eq, List.mem_flatMap]
    rintro v ⟨arg, harg, hv⟩
    exact hargs arg harg v hv
  construct _ _ hargs := by
    simp only [vars, varsOfAll_eq, List.mem_flatMap]
    rintro v ⟨arg, harg, hv⟩
    exact hargs arg harg v hv
  binary _ _ _ _ hleft hright := by
    simp only [vars, List.mem_append]
    rintro v (hv | hv)
    · exact hleft v hv
    · exact hright v hv
  unary _ _ _ hoperand := hoperand
  conditional _ htest htrue hfalse := by
    simp only [vars, List.mem_append]
    rintro v ((hv | hv) | hv)
    · exact htest v hv
    · exact htrue v hv
    · exact hfalse v hv
  cast _ hoperand := hoperand
  element _ _ harray := harray

theorem compositional_firstOrder : Compositional FirstOrder where
  constant _ _ := trivial
  call _ _ _ htarget hargs := ⟨htarget, (allFirstOrder_iff _).mpr hargs⟩
  staticCall _ _ _ _ hargs := (allFirstOrder_iff _).mpr hargs
  construct _ _ hargs := (allFirstOrder_iff _).mpr hargs
  binary _ _ _ _ hleft hright := ⟨hleft, hright⟩
  unary _ _ _ hoperand := hoperand
  conditional _ htest htrue hfalse := ⟨htest, htrue, hfalse⟩
  cast _ hoperand := hoperand
  element _ _ harray := harray

theorem Compositional.and {P Q : Expr → Prop} (hP : Compositional P) (hQ : Compositional Q) :
    Compositional fun e => P e ∧ Q e where
  constant _ _ := ⟨hP.constant _ _, hQ.constant _ _⟩
  call _ _ _ htarget hargs := ⟨hP.call _ _ htarget.1 fun arg harg => (hargs arg harg).1,
    hQ.call _ _ htarget.2 fun arg harg => (hargs arg harg).2⟩
  staticCall _ _ _ _ hargs := ⟨hP.staticCall _ _ _ fun arg harg => (hargs arg harg).1,
    hQ.staticCall _ _ _ fun arg harg => (hargs arg harg).2⟩
  construct _ _ hargs := ⟨hP.construct _ fun arg harg => (hargs arg harg).1,
    hQ.construct _ fun arg harg => (hargs arg harg).2⟩
  binary _ _ _ _ hleft hright := ⟨hP.binary _ _ hleft.1 hright.1, hQ.binary _ _ hleft.2 hright.2⟩
  unary _ _ _ hoperand := ⟨hP.unary _ _ hoperand.1, hQ.unary _ _ hoperand.2⟩
  conditional _ htest htrue hfalse := ⟨hP.conditional _ htest.1 htrue.1 hfalse.1,
    hQ.conditional _ htest.2 htrue.2 hfalse.2⟩
  cast _ hoperand := ⟨hP.cast _ hoperand.1, hQ.cast _ hoperand.2⟩
  element _ _ harray := ⟨hP.element _ _ harray.1, hQ.element _ _ harray.2⟩

namespace Compositional

variable {P : Expr → Prop} (h : Compositional P)

include h

/-- **From the variables to the whole.** -/
theorem of_firstOrder : (e : Expr) → e.FirstOrder → (∀ v ∈ e.vars, P (.var v)) → P e
  | .constant value ty, _, _ => h.constant value ty
  | .var v, _, hvars => hvars v List.mem_cons_self
  | .call target method args ty, hfirst, hvars => by
      simp only [vars, varsOfAll_eq, List.mem_append, List.mem_flatMap] at hvars
      refine h.call method ty ?_ fun arg harg => ?_
      · exact of_firstOrder target hfirst.1 fun v hv => hvars v (Or.inl hv)
      · exact of_firstOrder arg ((allFirstOrder_iff args).mp hfirst.2 arg harg) fun v hv =>
          hvars v (Or.inr ⟨arg, harg, hv⟩)
  | .staticCall owner method args ty, hfirst, hvars => by
      simp only [vars, varsOfAll_eq, List.mem_flatMap] at hvars
      refine h.staticCall owner method ty fun arg harg => ?_
      exact of_firstOrder arg ((allFirstOrder_iff args).mp hfirst arg harg) fun v hv =>
        hvars v ⟨arg, harg, hv⟩
  | .construct ty args, hfirst, hvars => by
      simp only [vars, varsOfAll_eq, List.mem_flatMap] at hvars
      refine h.construct ty fun arg harg => ?_
      exact of_firstOrder arg ((allFirstOrder_iff args).mp hfirst arg harg) fun v hv =>
        hvars v ⟨arg, harg, hv⟩
  | .binary op left right ty, hfirst, hvars => by
      simp only [vars, List.mem_append] at hvars
      exact h.binary op ty (of_firstOrder left hfirst.1 fun v hv => hvars v (Or.inl hv))
        (of_firstOrder right hfirst.2 fun v hv => hvars v (Or.inr hv))
  | .unary op operand ty, hfirst, hvars => h.unary op ty (of_firstOrder operand hfirst hvars)
  | .conditional test ifTrue ifFalse ty, hfirst, hvars => by
      simp only [vars, List.mem_append] at hvars
      exact h.conditional ty (of_firstOrder test hfirst.1 fun v hv => hvars v (Or.inl (Or.inl hv)))
        (of_firstOrder ifTrue hfirst.2.1 fun v hv => hvars v (Or.inl (Or.inr hv)))
        (of_firstOrder ifFalse hfirst.2.2 fun v hv => hvars v (Or.inr hv))
  | .cast operand ty, hfirst, hvars => h.cast ty (of_firstOrder operand hfirst hvars)
  | .element array index ty, hfirst, hvars =>
      h.element index ty (of_firstOrder array hfirst hvars)
termination_by e => sizeOf e
decreasing_by
  all_goals first
    | (simp_wf; omega)
    | (simp_wf; have := List.sizeOf_lt_of_mem ‹_ ∈ _›; omega)

end Compositional

theorem Compositional.mem_of_pairUp? {α : Type} {items : List α} {pairs : List (α × α)} {last : α}
    (hpairs : pairUp? items = some (pairs, last)) :
    (∀ pair ∈ pairs, pair.1 ∈ items ∧ pair.2 ∈ items) ∧ last ∈ items := by
  fun_induction pairUp? items generalizing pairs with
  | case1 => simp at hpairs
  | case2 only => simp_all
  | case3 first second rest ih =>
      obtain ⟨⟨pairs', last'⟩, hrest, heq⟩ := Option.map_eq_some_iff.mp hpairs
      obtain ⟨rfl, rfl⟩ := Prod.mk.inj heq
      obtain ⟨hmem, hlast⟩ := ih hrest
      refine ⟨?_, by simp [hlast]⟩
      intro pair hpair
      rcases List.mem_cons.mp hpair with rfl | hpair
      · simp
      · simp [hmem pair hpair]

namespace CompositionalOver

variable {words : String → Prop} {values : Value → Prop} {P : Expr → Prop}
  (h : CompositionalOver words values P) (hadded : AddedByLowering words values)

include h hadded

theorem readAs {e : Expr} (he : P e) (p : Primitive) : P (e.readAs p) := by
  unfold Expr.readAs
  split
  · exact h.call _ (hadded.valueMethod p) (h.cast _ he) (by simp)
  · split
    · exact h.cast _ he
    · exact h.call _ (hadded.valueMethod p) he (by simp)

theorem coerce {e : Expr} (he : P e) (target : HostType) : P (e.coerce target) := by
  unfold Expr.coerce
  split
  · exact he
  · split
    · exact h.cast _ he
    · split
      · exact h.readAs hadded he _
      · exact h.cast _ he

theorem unbox {e : Expr} (he : P e) : P e.unbox := by
  unfold Expr.unbox
  split
  · exact h.coerce hadded he _
  · exact he

omit hadded in
theorem foldl_operation (op : BinaryOp) {first : Expr} {rest : List Expr} (hfirst : P first)
    (hrest : ∀ e ∈ rest, P e) : P (rest.foldl (operation op) first) := by
  induction rest generalizing first with
  | nil => exact hfirst
  | cons e rest ih =>
      refine ih ?_ fun e he => hrest e (List.mem_cons_of_mem _ he)
      exact h.binary op _ hfirst (hrest e List.mem_cons_self)

theorem caseChain (ty : HostType) {branches : List (Expr × Expr)} {otherwise : Expr}
    (hbranches : ∀ branch ∈ branches, P branch.1 ∧ P branch.2) (hotherwise : P otherwise) :
    P (Strategy.caseChain ty branches otherwise) := by
  induction branches with
  | nil => exact h.coerce hadded hotherwise ty
  | cons branch rest ih =>
      obtain ⟨htest, hresult⟩ := hbranches branch List.mem_cons_self
      refine h.conditional _ (h.coerce hadded htest _) (h.coerce hadded hresult ty) ?_
      exact ih fun branch hmem => hbranches branch (List.mem_cons_of_mem _ hmem)

/-- **Strategies compose.** What a strategy assembles has the property if its operands do. -/
theorem assemble? {strategy : Strategy} {ty : HostType} {args : List Expr} {e : Expr}
    (hmethod : ∀ method, strategy = .runtimeCall method → words method)
    (hargs : ∀ arg ∈ args, P arg) (he : strategy.assemble? ty args = some e) : P e := by
  unfold Strategy.assemble? at he
  split at he
  · obtain rfl := Option.some.inj he
    exact h.staticCall _ hadded.runtimeClass (hmethod _ rfl) hargs
  · obtain rfl := Option.some.inj he
    have hfirst := hargs _ List.mem_cons_self
    refine h.foldl_operation _ (h.unbox hadded hfirst) fun e he => ?_
    obtain ⟨arg, harg, rfl⟩ := List.mem_map.mp he
    exact h.unbox hadded (hargs arg (List.mem_cons_of_mem _ harg))
  · obtain rfl := Option.some.inj he
    exact h.unary _ _ (h.unbox hadded (hargs _ List.mem_cons_self))
  · obtain rfl := Option.some.inj he
    have hoperand := hargs _ List.mem_cons_self
    split
    · exact h.constant _ (hadded.boolean _)
    · split <;> exact h.binary _ _ hoperand (h.constant _ hadded.null)
  · obtain ⟨⟨branches, otherwise⟩, hpairs, rfl⟩ := Option.map_eq_some_iff.mp he
    obtain ⟨hmem, hlast⟩ := Compositional.mem_of_pairUp? hpairs
    refine h.caseChain hadded ty (fun branch hbranch => ?_) (hargs otherwise hlast)
    exact ⟨hargs _ (hmem branch hbranch).1, hargs _ (hmem branch hbranch).2⟩
  · obtain rfl := Option.some.inj he
    exact h.coerce hadded (hargs _ List.mem_cons_self) ty
  · simp at he

theorem lowerLiteral (adapter : TypeAdapter) {value : Value} (ty : LogicalType)
    (hvalue : values value) (htext : values (.string value.canonicalText)) :
    P (lowerLiteral adapter value ty) := by
  unfold RowCode.lowerLiteral
  dsimp only
  split
  · exact h.constant _ hadded.null
  · split
    · refine h.construct _ fun arg harg => ?_
      obtain rfl := List.mem_singleton.mp harg
      exact h.constant _ htext
    · exact h.constant _ hvalue

theorem fieldOf {layout : RowLayout} {row e : Expr} {index : Nat} (hrow : P row)
    (he : layout.fieldOf row index = .ok e) : P e := by
  unfold RowLayout.fieldOf at he
  split at he
  · obtain rfl := Except.ok.inj he
    exact h.coerce hadded (h.element _ _ hrow) _
  · simp at he

end CompositionalOver

theorem addedByLowering_trivial : AddedByLowering (fun _ => True) (fun _ => True) :=
  ⟨fun _ => trivial, trivial, trivial, fun _ => trivial⟩

namespace Compositional

variable {P : Expr → Prop} (h : Compositional P)

include h

theorem assemble? {strategy : Strategy} {ty : HostType} {args : List Expr} {e : Expr}
    (hargs : ∀ arg ∈ args, P arg) (he : strategy.assemble? ty args = some e) : P e :=
  (h.over _ _).assemble? addedByLowering_trivial (fun _ _ => trivial) hargs he

theorem lowerLiteral (adapter : TypeAdapter) (value : Value) (ty : LogicalType) :
    P (lowerLiteral adapter value ty) :=
  (h.over _ _).lowerLiteral addedByLowering_trivial adapter ty trivial trivial

theorem fieldOf {layout : RowLayout} {row e : Expr} {index : Nat} (hrow : P row)
    (he : layout.fieldOf row index = .ok e) : P e :=
  (h.over _ _).fieldOf addedByLowering_trivial hrow he

end Compositional

end RowCode.Expr
