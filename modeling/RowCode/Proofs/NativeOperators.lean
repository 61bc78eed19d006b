import RowCode.Proofs.Replacement
import RowCode.Proofs.Typing

/-!
# Runtime functions as host operators

The runtime functions of logic and comparison, and the host operators that do the same. Rewriting
calls of the former into the latter, bottom up, commutes with what the standard table assembles: the
result is what the native table assembles from rewritten operands, if it assembles anything.
-/

namespace RowCode

namespace Expr

/-- The operator that the runtime function folds over its arguments. -/
def foldedOperator? (method : String) : Option BinaryOp :=
  match method with
  | "and" => some .andAlso
  | "or" => some .orElse
  | "lt" => some .lessThan
  | "le" => some .lessThanOrEqual
  | "gt" => some .greaterThan
  | "ge" => some .greaterThanOrEqual
  | "eq" => some .equal
  | "ne" => some .notEqual
  | _ => none

/-- A call of a runtime function by host operators: negation of one argument, or a fold over two or
more, each without its box. -/
def hostOperation? (method : String) : List Expr → Option Expr
  | [operand] => if method = "not" then some (.unary .not operand.unbox operand.unbox.ty) else none
  | first :: second :: rest => (foldedOperator? method).map fun op =>
    ((second :: rest).map unbox).foldl (operation op) first.unbox
  | _ => none

def hostCall (owner method : String) (args : List Expr) (ty : HostType) : Expr :=
  if owner = runtimeClass then (hostOperation? method args).getD (.staticCall owner method args ty)
  else .staticCall owner method args ty

/-! An expression with host operators in place of calls of runtime functions. -/

mutual

def native : Expr → Expr
  | constant value ty => constant value ty
  | var v => var v
  | call target method args ty => call (native target) method (nativeAll args) ty
  | staticCall owner method args ty => hostCall owner method (nativeAll args) ty
  | construct ty args => construct ty (nativeAll args)
  | binary op left right ty => binary op (native left) (native right) ty
  | unary op operand ty => unary op (native operand) ty
  | conditional test ifTrue ifFalse ty =>
    conditional (native test) (native ifTrue) (native ifFalse) ty
  | cast operand ty => cast (native operand) ty
  | element array index ty => element (native array) index ty
  | lambda parameters body => lambda parameters (native body)

def nativeAll : List Expr → List Expr
  | [] => []
  | e :: rest => native e :: nativeAll rest

end

theorem nativeAll_eq (es : List Expr) : nativeAll es = es.map native := by
  induction es with
  | nil => rfl
  | cons e rest ih => rw [nativeAll, ih, List.map_cons]

theorem native_staticCall (owner method : String) (args : List Expr) (ty : HostType) :
    (staticCall owner method args ty).native = hostCall owner method (args.map native) ty := by
  rw [native, nativeAll_eq]

theorem keepsShape_native : KeepsShape native where
  constant _ _ := rfl
  call _ _ _ _ := by rw [native, nativeAll_eq]
  construct _ _ := by rw [native, nativeAll_eq]
  binary _ _ _ _ := rfl
  unary _ _ _ := rfl
  conditional _ _ _ _ := rfl
  cast _ _ := rfl
  element _ _ _ := rfl

/-! ### Variables are left alone -/

theorem foldl_operation_ne_var (op : BinaryOp) (first second : Expr) (rest : List Expr)
    (v : Variable) : ((second :: rest).foldl (operation op) first).agrees (.var v) = false := by
  induction rest generalizing first second with
  | nil => rfl
  | cons third rest ih => exact ih (operation op first second) third

theorem hostCall_ne_var (owner method : String) (args : List Expr) (ty : HostType) (v : Variable) :
    (hostCall owner method args ty).agrees (.var v) = false := by
  unfold hostCall
  split
  · cases hoperation : hostOperation? method args with
    | none => rfl
    | some e =>
        unfold hostOperation? at hoperation
        split at hoperation
        · split at hoperation
          · obtain rfl := Option.some.inj hoperation
            rfl
          · cases hoperation
        · obtain ⟨op, -, rfl⟩ := Option.map_eq_some_iff.mp hoperation
          exact foldl_operation_ne_var op _ _ _ v
        · cases hoperation
  · rfl

/-- Only a variable is the same as a variable, before and after. -/
theorem agrees_native_var (e : Expr) (v : Variable) :
    e.native.agrees (.var v) = e.agrees (.var v) := by
  cases e with
  | staticCall owner method args ty =>
      rw [native_staticCall, hostCall_ne_var]
      rfl
  | constant | var | call | construct | binary | unary | conditional | cast | element | lambda => rfl

end Expr

/-! ### What the tables assemble -/

namespace OperatorTable

/-- An operator that the native table treats in its own way is a fold or a negation. -/
theorem of_predicateMethod? {op : Operator} {method : String}
    (hmethod : predicateMethod? op = some method) :
    (∃ hostOp, nativeStrategy? op = some (.fold hostOp) ∧
        Expr.foldedOperator? method = some hostOp ∧ hostOp.isBoolean = true) ∨
      op = .not ∧ method = "not" ∧ nativeStrategy? op = some (.unary .not) := by
  cases op <;> cases hmethod <;> first
    | exact .inl ⟨_, rfl, rfl, rfl⟩
    | exact .inr ⟨rfl, rfl, rfl⟩

theorem nativeStrategy?_eq_none {op : Operator} (hmethod : predicateMethod? op = none) :
    nativeStrategy? op = none := by
  cases op <;> first | rfl | cases hmethod

/-- No other runtime function has a host operator. -/
theorem hostOperation?_eq_none {op : Operator} {method : String}
    (hcommon : commonStrategy? op = some (.runtimeCall method)) (args : List Expr) :
    Expr.hostOperation? method args = none := by
  have hmethod : method ≠ "not" ∧ Expr.foldedOperator? method = none := by
    cases op <;> cases hcommon <;> exact ⟨by decide, rfl⟩
  match args with
  | [] => rfl
  | [operand] => exact if_neg hmethod.1
  | first :: second :: rest => rw [Expr.hostOperation?, hmethod.2, Option.map_none]

variable {op : Operator} {strategy : Strategy} {ty : HostType} {args args' : List Expr} {e e' : Expr}

/-- What the standard table assembles has a type that its operands do not matter for. -/
theorem ty_eq_of_standard (hstrategy : standard.strategy? op = some strategy)
    (he : strategy.assemble? ty args = some e) (he' : strategy.assemble? ty args' = some e') :
    e'.ty = e.ty := by
  have hty := Strategy.ty_assemble? he
  have hty' := Strategy.ty_assemble? he'
  cases strategy with
  | runtimeCall | case | cast | nullTest => exact hty'.trans hty.symm
  | fold | unary => cases op <;> cases hstrategy

/-- Where the tables have the same strategy, it commutes with rewriting. -/
theorem assemble?_native (hmethod : predicateMethod? op = none)
    (hstrategy : standard.strategy? op = some strategy) (ty : HostType)
    (hargs : ∀ arg ∈ args, arg.native.ty = arg.ty) :
    strategy.assemble? ty (args.map Expr.native) = (strategy.assemble? ty args).map Expr.native := by
  by_cases hcall : ∃ method, strategy = .runtimeCall method
  · obtain ⟨method, rfl⟩ := hcall
    have hcommon : commonStrategy? op = some (.runtimeCall method) := by
      rwa [strategy?, hmethod, Option.map_none, Option.none_or] at hstrategy
    change some _ = some _
    rw [Expr.runtimeCall, Expr.runtimeCall, Expr.native_staticCall, Expr.hostCall, if_pos rfl,
      hostOperation?_eq_none hcommon, Option.getD_none]
  · exact Expr.keepsShape_native.assemble?_of_ne (fun method h => hcall ⟨method, h⟩) ty hargs

theorem assemble?_fold {method : String} {hostOp : BinaryOp}
    (hmethod : Expr.foldedOperator? method = some hostOp) (ty : HostType) (hargs : 2 ≤ args.length) :
    Strategy.assemble? (.fold hostOp) ty (args.map Expr.native) =
      some (Expr.runtimeCall method args ty).native := by
  match args with
  | [] | [_] => simp at hargs
  | first :: second :: rest =>
      rw [Expr.runtimeCall, Expr.native_staticCall, Expr.hostCall, if_pos rfl]
      simp only [List.map_cons, Expr.hostOperation?, hmethod, Option.map_some, Option.getD_some]
      rfl

theorem assemble?_not (operand : Expr) (ty : HostType) :
    Strategy.assemble? (.unary .not) ty [operand.native] =
      some (Expr.runtimeCall "not" [operand] ty).native := by
  rw [Expr.runtimeCall, Expr.native_staticCall, Expr.hostCall, if_pos rfl]
  rfl

end OperatorTable

end RowCode
