import Mathlib.Tactic.Tauto
import RowCode.Host.Block
import RowCode.Proofs.DecimalReading

/-!
# When expressions agree

Floating-point constants agree when they denote the same number: one that is no number does not agree
with itself, and the two zeros agree. Every other constant agrees with itself alone. So expressions
agree when all their constants are numbers, as far as they are floating-point ones, and they are equal
but for the signs of zeros; without floating-point constants, they agree when they are equal.
-/

namespace RowCode

theorem Decimal.text_inj {d e : Decimal} : d.text = e.text ↔ d = e := by
  refine ⟨fun h => ?_, congrArg _⟩
  have hread := d.ofText?_text
  rw [h, e.ofText?_text] at hread
  exact (Option.some.inj hread).symm

/-- Replacing all elements of a kind by one of that kind leaves the kind as it is. -/
theorem apply_ite_of_kind {α : Type} (p : α → Bool) {z : α} (hz : p z = true) (x : α) :
    p (if p x = true then z else x) = p x := by
  by_cases hx : p x = true
  · rw [if_pos hx, hz, hx]
  · rw [if_neg hx]

/-- It makes those elements equal that are equal or both of the kind. -/
theorem eq_or_both_iff {α : Type} (p : α → Bool) {z : α} (hz : p z = true) {x y : α} :
    x = y ∨ p x = true ∧ p y = true ↔
      (if p x = true then z else x) = if p y = true then z else y := by
  constructor
  · rintro (rfl | ⟨hx, hy⟩)
    · rfl
    · rw [if_pos hx, if_pos hy]
  · intro heq
    have hkinds := congrArg p heq
    rw [apply_ite_of_kind p hz, apply_ite_of_kind p hz] at hkinds
    by_cases hx : p x = true
    · exact .inr ⟨hx, hkinds ▸ hx⟩
    · rw [if_neg hx, if_neg (hkinds ▸ hx)] at heq
      exact .inl heq

namespace Single

def isZero (x : Single) : Bool := x.magnitude = .finite 0 format.minExponent

/-- A zero without its sign, and any other number as it is. -/
def unsignZero (x : Single) : Single := if x.isZero then ⟨0⟩ else x

theorem magnitude_unsignZero (x : Single) : x.unsignZero.magnitude = x.magnitude := by
  unfold unsignZero
  split
  · rename_i hzero
    rw [of_decide_eq_true hzero]
    rfl
  · rfl

theorem agrees_iff {x y : Single} :
    x.agrees y = true ↔ x.magnitude ≠ .nan ∧ x.unsignZero = y.unsignZero := by
  rw [agrees, decide_eq_true_iff, unsignZero, unsignZero, ← eq_or_both_iff isZero rfl]
  refine and_congr_right fun _ => or_congr_right ?_
  rw [isZero, isZero, decide_eq_true_iff, decide_eq_true_iff]
  exact and_congr_right fun hzero => by rw [hzero, eq_comm]

end Single

namespace Double

def isZero (x : Double) : Bool := x.magnitude = .finite 0 format.minExponent

def unsignZero (x : Double) : Double := if x.isZero then ⟨0⟩ else x

theorem magnitude_unsignZero (x : Double) : x.unsignZero.magnitude = x.magnitude := by
  unfold unsignZero
  split
  · rename_i hzero
    rw [of_decide_eq_true hzero]
    rfl
  · rfl

theorem agrees_iff {x y : Double} :
    x.agrees y = true ↔ x.magnitude ≠ .nan ∧ x.unsignZero = y.unsignZero := by
  rw [agrees, decide_eq_true_iff, unsignZero, unsignZero, ← eq_or_both_iff isZero rfl]
  refine and_congr_right fun _ => or_congr_right ?_
  rw [isZero, isZero, decide_eq_true_iff, decide_eq_true_iff]
  exact and_congr_right fun hzero => by rw [hzero, eq_comm]

end Double

namespace Value

def isFloating : Value → Bool
  | .float _ | .double _ => true
  | _ => false

def isNaN : Value → Bool
  | .float x => x.magnitude = .nan
  | .double x => x.magnitude = .nan
  | _ => false

def isZero : Value → Bool
  | .float x => x.isZero
  | .double x => x.isZero
  | _ => false

def unsignZero : Value → Value
  | .float x => .float x.unsignZero
  | .double x => .double x.unsignZero
  | v => v

variable {v w : Value}

theorem isNaN_unsignZero (v : Value) : v.unsignZero.isNaN = v.isNaN := by
  cases v with
  | float x => rw [unsignZero, isNaN, isNaN, x.magnitude_unsignZero]
  | double x => rw [unsignZero, isNaN, isNaN, x.magnitude_unsignZero]
  | null | boolean | int8 | int16 | int32 | int64 | decimal | string => rfl

theorem isZero_unsignZero (v : Value) : v.unsignZero.isZero = v.isZero := by
  cases v with
  | float x => simp only [unsignZero, isZero, Single.isZero, x.magnitude_unsignZero]
  | double x => simp only [unsignZero, isZero, Double.isZero, x.magnitude_unsignZero]
  | null | boolean | int8 | int16 | int32 | int64 | decimal | string => rfl

theorem unsignZero_of_not_isZero (h : v.isZero = false) : v.unsignZero = v := by
  cases v with
  | float x => exact congrArg float (if_neg (Bool.eq_false_iff.mp h))
  | double x => exact congrArg double (if_neg (Bool.eq_false_iff.mp h))
  | null | boolean | int8 | int16 | int32 | int64 | decimal | string => rfl

theorem not_special_of_not_floating (h : v.isFloating = false) :
    v.isNaN = false ∧ v.isZero = false := by
  cases v with
  | float | double => cases h
  | null | boolean | int8 | int16 | int32 | int64 | decimal | string => exact ⟨rfl, rfl⟩

theorem agrees_iff : v.agrees w = true ↔ v.isNaN = false ∧ v.unsignZero = w.unsignZero := by
  unfold agrees
  split
  · simp only [Single.agrees_iff, isNaN, unsignZero, float.injEq, decide_eq_false_iff_not, ne_eq]
  · simp only [Double.agrees_iff, isNaN, unsignZero, double.injEq, decide_eq_false_iff_not, ne_eq]
  · simp only [decide_eq_true_eq, Decimal.text_inj, isNaN, unsignZero, decimal.injEq, true_and]
  · rename_i hfloats hdoubles _
    rw [decide_eq_true_eq]
    cases v with
    | float x =>
        cases w with
        | float y => exact absurd rfl (hfloats x y rfl)
        | _ => simp [unsignZero]
    | double x =>
        cases w with
        | double y => exact absurd rfl (hdoubles x y rfl)
        | _ => simp [unsignZero]
    | _ => cases w <;> simp [unsignZero, isNaN]

end Value

namespace Expr

mutual

/-- The constants of an expression, from left to right. -/
def constants : Expr → List Value
  | constant value _ => [value]
  | var _ => []
  | call target _ args _ => constants target ++ constantsOfAll args
  | staticCall _ _ args _ => constantsOfAll args
  | construct _ args => constantsOfAll args
  | binary _ left right _ => constants left ++ constants right
  | unary _ operand _ => constants operand
  | conditional test ifTrue ifFalse _ =>
    constants test ++ constants ifTrue ++ constants ifFalse
  | cast operand _ => constants operand
  | element array _ _ => constants array
  | lambda _ body => constants body

def constantsOfAll : List Expr → List Value
  | [] => []
  | e :: rest => constants e ++ constantsOfAll rest

end

mutual

/-- The expression with no zero signed. -/
def unsignZeros : Expr → Expr
  | constant value ty => constant value.unsignZero ty
  | var v => var v
  | call target method args ty => call (unsignZeros target) method (unsignAll args) ty
  | staticCall owner method args ty => staticCall owner method (unsignAll args) ty
  | construct ty args => construct ty (unsignAll args)
  | binary op left right ty => binary op (unsignZeros left) (unsignZeros right) ty
  | unary op operand ty => unary op (unsignZeros operand) ty
  | conditional test ifTrue ifFalse ty =>
    conditional (unsignZeros test) (unsignZeros ifTrue) (unsignZeros ifFalse) ty
  | cast operand ty => cast (unsignZeros operand) ty
  | element array index ty => element (unsignZeros array) index ty
  | lambda parameters body => lambda parameters (unsignZeros body)

def unsignAll : List Expr → List Expr
  | [] => []
  | e :: rest => unsignZeros e :: unsignAll rest

end

theorem ty_unsignZeros : (e : Expr) → e.unsignZeros.ty = e.ty
  | lambda parameters body => by rw [unsignZeros, ty, ty, ty_unsignZeros body]
  | constant _ _ | var _ | call _ _ _ _ | staticCall _ _ _ _ | construct _ _ | binary _ _ _ _
  | unary _ _ _ | conditional _ _ _ _ | cast _ _ | element _ _ _ => by simp only [unsignZeros, ty]

mutual

theorem constants_unsignZeros : (e : Expr) →
    e.unsignZeros.constants = e.constants.map Value.unsignZero
  | constant _ _ => by simp [unsignZeros, constants]
  | var _ => by simp [unsignZeros, constants]
  | call target _ args _ => by
      simp [unsignZeros, constants, constants_unsignZeros target, constantsOfAll_unsignAll args]
  | staticCall _ _ args _ => by simp [unsignZeros, constants, constantsOfAll_unsignAll args]
  | construct _ args => by simp [unsignZeros, constants, constantsOfAll_unsignAll args]
  | binary _ left right _ => by
      simp [unsignZeros, constants, constants_unsignZeros left, constants_unsignZeros right]
  | unary _ operand _ => by simp [unsignZeros, constants, constants_unsignZeros operand]
  | conditional test ifTrue ifFalse _ => by
      simp [unsignZeros, constants, constants_unsignZeros test, constants_unsignZeros ifTrue,
        constants_unsignZeros ifFalse]
  | cast operand _ => by simp [unsignZeros, constants, constants_unsignZeros operand]
  | element array _ _ => by simp [unsignZeros, constants, constants_unsignZeros array]
  | lambda _ body => by simp [unsignZeros, constants, constants_unsignZeros body]

theorem constantsOfAll_unsignAll : (es : List Expr) →
    constantsOfAll (unsignAll es) = (constantsOfAll es).map Value.unsignZero
  | [] => by simp [unsignAll, constantsOfAll]
  | e :: rest => by
      simp [unsignAll, constantsOfAll, constants_unsignZeros e, constantsOfAll_unsignAll rest]

end

/-- Whether every floating-point constant is a number, so that the expression agrees with itself. -/
def Comparable (e : Expr) : Prop := ∀ v ∈ e.constants, v.isNaN = false

def ZeroFree (e : Expr) : Prop := ∀ v ∈ e.constants, v.isZero = false

def FloatFree (e : Expr) : Prop := ∀ v ∈ e.constants, v.isFloating = false

mutual

theorem unsignZeros_of_zeroFree : (e : Expr) → e.ZeroFree → e.unsignZeros = e
  | constant value ty, h => by
      have hvalue : value.isZero = false := h value List.mem_cons_self
      rw [unsignZeros, Value.unsignZero_of_not_isZero hvalue]
  | var v, _ => by rw [unsignZeros]
  | call target method args ty, h => by
      obtain ⟨htarget, hargs⟩ := List.forall_mem_append.mp h
      rw [unsignZeros, unsignZeros_of_zeroFree target htarget, unsignAll_of_zeroFree args hargs]
  | staticCall owner method args ty, h => by rw [unsignZeros, unsignAll_of_zeroFree args h]
  | construct ty args, h => by rw [unsignZeros, unsignAll_of_zeroFree args h]
  | binary op left right ty, h => by
      obtain ⟨hleft, hright⟩ := List.forall_mem_append.mp h
      rw [unsignZeros, unsignZeros_of_zeroFree left hleft, unsignZeros_of_zeroFree right hright]
  | unary op operand ty, h => by rw [unsignZeros, unsignZeros_of_zeroFree operand h]
  | conditional test ifTrue ifFalse ty, h => by
      obtain ⟨hboth, hifFalse⟩ := List.forall_mem_append.mp h
      obtain ⟨htest, hifTrue⟩ := List.forall_mem_append.mp hboth
      rw [unsignZeros, unsignZeros_of_zeroFree test htest,
        unsignZeros_of_zeroFree ifTrue hifTrue, unsignZeros_of_zeroFree ifFalse hifFalse]
  | cast operand ty, h => by rw [unsignZeros, unsignZeros_of_zeroFree operand h]
  | element array index ty, h => by rw [unsignZeros, unsignZeros_of_zeroFree array h]
  | lambda parameters body, h => by rw [unsignZeros, unsignZeros_of_zeroFree body h]

theorem unsignAll_of_zeroFree : (es : List Expr) →
    (∀ v ∈ constantsOfAll es, v.isZero = false) → unsignAll es = es
  | [], _ => by rw [unsignAll]
  | e :: rest, h => by
      obtain ⟨he, hrest⟩ := List.forall_mem_append.mp h
      rw [unsignAll, unsignZeros_of_zeroFree e he, unsignAll_of_zeroFree rest hrest]

end

theorem comparable_unsignZeros {e : Expr} : e.unsignZeros.Comparable ↔ e.Comparable := by
  simp only [Comparable, constants_unsignZeros, List.forall_mem_map, Value.isNaN_unsignZero]

/-- Without zeros, an expression is only equal to itself, also when zeros may be signed. -/
theorem unsignZeros_eq_iff {e e' : Expr} (h : e'.ZeroFree) :
    e.unsignZeros = e'.unsignZeros ↔ e = e' := by
  constructor
  · intro heq
    have hsame := congrArg constants heq
    rw [unsignZeros_of_zeroFree e' h, constants_unsignZeros] at hsame
    have hfree : e.ZeroFree := by
      intro v hv
      rw [← v.isZero_unsignZero]
      exact h _ (hsame ▸ List.mem_map_of_mem hv)
    rwa [unsignZeros_of_zeroFree e hfree, unsignZeros_of_zeroFree e' h] at heq
  · exact congrArg unsignZeros

mutual

/-- **Agreement.** Floating-point constants are numbers, and all is the same but the signs of zeros. -/
theorem agrees_iff {e e' : Expr} :
    e.agrees e' = true ↔ e.Comparable ∧ e.unsignZeros = e'.unsignZeros := by
  cases e with
  | constant v t =>
      cases e' with
      | constant w u =>
          simp only [agrees, Bool.and_eq_true, decide_eq_true_eq, Value.agrees_iff, Comparable,
            constants, List.forall_mem_singleton, unsignZeros, constant.injEq, and_assoc]
      | _ => simp [agrees, unsignZeros]
  | var x =>
      cases e' with
      | var y => simp [agrees, Comparable, constants, unsignZeros]
      | _ => simp [agrees, unsignZeros]
  | call x m xs t =>
      cases e' with
      | call y n ys u =>
          simp only [agrees, Bool.and_eq_true, decide_eq_true_eq, agrees_iff, allAgree_iff, Comparable, constants,
            List.forall_mem_append, unsignZeros, call.injEq]
          tauto
      | _ => simp [agrees, unsignZeros]
  | staticCall c m xs t =>
      cases e' with
      | staticCall d n ys u =>
          simp only [agrees, Bool.and_eq_true, decide_eq_true_eq, allAgree_iff, Comparable, constants,
            unsignZeros, staticCall.injEq]
          tauto
      | _ => simp [agrees, unsignZeros]
  | construct t xs =>
      cases e' with
      | construct u ys =>
          simp only [agrees, Bool.and_eq_true, decide_eq_true_eq, allAgree_iff, Comparable, constants,
            unsignZeros, construct.injEq]
          tauto
      | _ => simp [agrees, unsignZeros]
  | binary o x y t =>
      cases e' with
      | binary p z w u =>
          simp only [agrees, Bool.and_eq_true, decide_eq_true_eq, agrees_iff, Comparable, constants,
            List.forall_mem_append, unsignZeros, binary.injEq]
          tauto
      | _ => simp [agrees, unsignZeros]
  | unary o x t =>
      cases e' with
      | unary p y u =>
          simp only [agrees, Bool.and_eq_true, decide_eq_true_eq, agrees_iff, Comparable, constants,
            unsignZeros, unary.injEq]
          tauto
      | _ => simp [agrees, unsignZeros]
  | conditional a x y t =>
      cases e' with
      | conditional b z w u =>
          simp only [agrees, Bool.and_eq_true, decide_eq_true_eq, agrees_iff, Comparable, constants,
            List.forall_mem_append, unsignZeros, conditional.injEq]
          tauto
      | _ => simp [agrees, unsignZeros]
  | cast x t =>
      cases e' with
      | cast y u =>
          simp only [agrees, Bool.and_eq_true, decide_eq_true_eq, agrees_iff, Comparable, constants,
            unsignZeros, cast.injEq]
          tauto
      | _ => simp [agrees, unsignZeros]
  | element x i t =>
      cases e' with
      | element y j u =>
          simp only [agrees, Bool.and_eq_true, decide_eq_true_eq, agrees_iff, Comparable, constants,
            unsignZeros, element.injEq]
          tauto
      | _ => simp [agrees, unsignZeros]
  | lambda ps x =>
      cases e' with
      | lambda qs y =>
          simp only [agrees, Bool.and_eq_true, decide_eq_true_eq, agrees_iff, Comparable, constants,
            unsignZeros, lambda.injEq]
          tauto
      | _ => simp [agrees, unsignZeros]

theorem allAgree_iff {es es' : List Expr} :
    allAgree es es' = true ↔
      (∀ v ∈ constantsOfAll es, v.isNaN = false) ∧ unsignAll es = unsignAll es' := by
  cases es with
  | nil => cases es' <;> simp [allAgree, constantsOfAll, unsignAll]
  | cons e es =>
      cases es' with
      | nil => simp [allAgree, unsignAll]
      | cons e' es' =>
          simp only [allAgree, Bool.and_eq_true, agrees_iff, allAgree_iff, Comparable,
            constantsOfAll, List.forall_mem_append, unsignAll, List.cons.injEq]
          tauto

end

theorem FloatFree.comparable {e : Expr} (h : e.FloatFree) : e.Comparable := fun v hv =>
  (Value.not_special_of_not_floating (h v hv)).1

theorem FloatFree.zeroFree {e : Expr} (h : e.FloatFree) : e.ZeroFree := fun v hv =>
  (Value.not_special_of_not_floating (h v hv)).2

theorem agrees_iff_eq {e e' : Expr} (h : e'.FloatFree) : e.agrees e' = true ↔ e = e' := by
  rw [agrees_iff, unsignZeros_eq_iff h.zeroFree, and_iff_right_iff_imp]
  rintro rfl
  exact h.comparable

theorem floatFree_var (v : Variable) : (var v).FloatFree := List.forall_mem_nil _

theorem agrees_var_iff {e : Expr} {v : Variable} : e.agrees (var v) = true ↔ e = var v :=
  agrees_iff_eq (floatFree_var v)

end Expr

/-! ### Variables that hold an expression -/

namespace Block

variable {b : Block} {e : Expr} {v : Variable}

/-- Whether `v` is a final variable of the block, with `e` as its initial value. -/
def Holds (b : Block) (v : Variable) (e : Expr) : Prop := ⟨v, e, true⟩ ∈ b.statements

theorem exists_of_holder?_eq_some (hholder : b.holder? e = some v) :
    ∃ init, b.Holds v init ∧ init.agrees e = true := by
  obtain ⟨⟨target, init, isFinal⟩, hd, rfl⟩ := Option.map_eq_some_iff.mp hholder
  have hboth := List.find?_some hd
  obtain ⟨rfl, hagrees⟩ := Bool.and_eq_true_iff.mp hboth
  exact ⟨init, List.mem_of_find?_eq_some hd, hagrees⟩

theorem holder?_eq_none : b.holder? e = none ↔ ∀ v init, b.Holds v init → init.agrees e = false := by
  rw [holder?, Option.map_eq_none_iff, List.find?_eq_none]
  constructor
  · intro h v init hholds
    exact Bool.eq_false_iff.mpr fun hagrees => h _ hholds hagrees
  · rintro h ⟨target, init, isFinal⟩ hd hboth
    obtain ⟨rfl, hagrees⟩ := Bool.and_eq_true_iff.mp hboth
    exact absurd hagrees (Bool.eq_false_iff.mp (h target init hd))

theorem holds_of_holder?_eq_some (he : e.FloatFree) (hholder : b.holder? e = some v) :
    b.Holds v e := by
  obtain ⟨init, hholds, hagrees⟩ := exists_of_holder?_eq_some hholder
  exact (Expr.agrees_iff_eq he).mp hagrees ▸ hholds

theorem holder?_eq_none_iff (he : e.FloatFree) : b.holder? e = none ↔ ∀ v, ¬ b.Holds v e := by
  simp only [holder?_eq_none, Bool.eq_false_iff, ne_eq, Expr.agrees_iff_eq he]
  constructor
  · exact fun h v hholds => h v e hholds rfl
  · rintro h v init hholds rfl
    exact h v hholds

theorem holds_append (he : e.FloatFree) (suggestion : String) :
    (b.append suggestion e).2.Holds (b.append suggestion e).1 e := by
  unfold append
  cases hholder : b.holder? e with
  | some v => exact holds_of_holder?_eq_some he hholder
  | none =>
      rw [Holds, statements_declareFinal]
      exact List.mem_append_right _ List.mem_cons_self

theorem append_of_holds (he : e.FloatFree) (hheld : ∃ v, b.Holds v e) (suggestion : String) :
    (b.append suggestion e).2 = b := by
  unfold append
  cases hholder : b.holder? e with
  | some v => rfl
  | none =>
      obtain ⟨v, hv⟩ := hheld
      exact absurd hv ((holder?_eq_none_iff he).mp hholder v)

theorem append_of_not_holds (he : e.FloatFree) (hheld : ∀ v, ¬ b.Holds v e)
    (suggestion : String) : b.append suggestion e = b.declareFinal suggestion e := by
  rw [append, (holder?_eq_none_iff he).mpr hheld]

theorem holds_declareFinal_iff {suggestion : String} {init : Expr} :
    (∃ v, (b.declareFinal suggestion init).2.Holds v e) ↔ (∃ v, b.Holds v e) ∨ e = init := by
  constructor
  · rintro ⟨v, hv⟩
    rw [Holds, statements_declareFinal] at hv
    rcases List.mem_append.mp hv with hv | hv
    · exact .inl ⟨v, hv⟩
    · exact .inr (Declaration.mk.inj (List.mem_singleton.mp hv)).2.1
  · rintro (⟨v, hv⟩ | rfl)
    · exact ⟨v, List.mem_append_left _ hv⟩
    · exact ⟨_, List.mem_append_right _ List.mem_cons_self⟩

end Block

end RowCode
