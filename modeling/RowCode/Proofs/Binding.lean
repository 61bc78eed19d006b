import RowCode.Proofs.LiteralCode
import RowCode.Proofs.Quotation
import RowCode.Proofs.ReservedNames

/-!
# What an appended expression is bound to

An expression is bound to a variable that already holds one that agrees with it, or else to a new
variable. Agreement does not tell the two zeros apart, so that the variable may hold the expression with
other signs of zeros, which are other code. It does not look at the variable either, so that the variable
has the type of the expression only as far as declarations have the types of what they hold. And an
expression with a constant that is no number is bound anew each time.
-/

namespace RowCode

/-! ### Signs of zeros in code -/

/-- The sign of a zero is the first thing that is written. -/
theorem BinaryFormat.negative_of_displayText_append {f : BinaryFormat} {exponent : Int}
    (hzero : f.positionalText 0 exponent = ['0']) {negative negative' : Bool}
    {rest rest' : List Char} (heq : f.displayText negative (.finite 0 exponent) ++ rest =
      f.displayText negative' (.finite 0 exponent) ++ rest') : negative = negative' := by
  cases negative with
  | true =>
      cases negative' with
      | true => rfl
      | false => simp [displayText, hzero] at heq
  | false =>
      cases negative' with
      | true => simp [displayText, hzero] at heq
      | false => rfl

namespace Value

theorem eq_of_constant_append {v w : Value} (h : v.unsignZero = w.unsignZero) {ty : HostType}
    {rest rest' : List Char}
    (heq : (Text.constant v ty).toList ++ rest = (Text.constant w ty).toList ++ rest') : v = w := by
  by_cases hv : v.isZero = true
  · have hw : w.isZero = true := by rw [← w.isZero_unsignZero, ← h, v.isZero_unsignZero, hv]
    cases v with
    | float x =>
        cases w with
        | float y =>
            have hx : x.magnitude = .finite 0 Single.format.minExponent := of_decide_eq_true hv
            have hy : y.magnitude = .finite 0 Single.format.minExponent := of_decide_eq_true hw
            have hdigits : Single.format.positionalText 0 Single.format.minExponent = ['0'] := by
              decide
            simp only [Text.constant, Text.special, Single.text, hx, hy, Option.getD_none,
              String.toList_append, String.toList_ofList, List.append_assoc] at heq
            have hsign := BinaryFormat.negative_of_displayText_append hdigits heq
            exact congrArg float (Single.eq_of_magnitude_eq hsign (hx.trans hy.symm) (by simp [hx]))
        | _ => cases h
    | double x =>
        cases w with
        | double y =>
            have hx : x.magnitude = .finite 0 Double.format.minExponent := of_decide_eq_true hv
            have hy : y.magnitude = .finite 0 Double.format.minExponent := of_decide_eq_true hw
            have hdigits : Double.format.positionalText 0 Double.format.minExponent = ['0'] := by
              decide
            simp only [Text.constant, Text.special, Double.text, hx, hy, Option.getD_none,
              String.toList_append, String.toList_ofList, List.append_assoc] at heq
            have hsign := BinaryFormat.negative_of_displayText_append hdigits heq
            exact congrArg double (Double.eq_of_magnitude_eq hsign (hx.trans hy.symm) (by simp [hx]))
        | _ => cases h
    | null | boolean | int8 | int16 | int32 | int64 | decimal | string => cases hv
  · have hw : ¬ w.isZero = true := by rwa [← w.isZero_unsignZero, ← h, v.isZero_unsignZero]
    rwa [unsignZero_of_not_isZero (Bool.eq_false_iff.mpr hv),
      unsignZero_of_not_isZero (Bool.eq_false_iff.mpr hw)] at h

end Value

namespace Expr

theorem needsParens_unsignZeros (e : Expr) : e.unsignZeros.needsParens = e.needsParens := by
  cases e with
  | constant | var | call | staticCall | construct | binary | unary | conditional | cast | element
  | lambda => simp only [unsignZeros, needsParens]

/-- Whatever follows, the texts of the expressions differ where the expressions differ. -/
def ToldApart (x y : Expr) : Prop :=
  ∀ rest rest' : List Char, x.text.toList ++ rest = y.text.toList ++ rest' → x = y ∧ rest = rest'

theorem ToldApart.guarded {x y : Expr} (h : x.ToldApart y) (hsame : x.unsignZeros = y.unsignZeros)
    {rest rest' : List Char} (heq : (Text.guarded x.needsParens x.text).toList ++ rest =
      (Text.guarded y.needsParens y.text).toList ++ rest') : x = y ∧ rest = rest' := by
  have hparens : x.needsParens = y.needsParens := by
    rw [← needsParens_unsignZeros x, hsame, needsParens_unsignZeros]
  rw [hparens, Text.toList_guarded, Text.toList_guarded] at heq
  simp only [List.append_assoc, List.append_cancel_left_eq] at heq
  obtain ⟨rfl, hrest⟩ := h _ _ heq
  exact ⟨rfl, List.append_cancel_left hrest⟩

theorem toList_argumentList_cons (e : Expr) (es : List Expr) :
    (argumentList (e :: es)).toList = '(' :: (e.text.toList ++ argumentsAfter es) :=
  toList_argumentList [] es e

theorem argumentsAfter_cons (e : Expr) (es : List Expr) :
    argumentsAfter (e :: es) = [',', ' '] ++ (e.text.toList ++ argumentsAfter es) := by
  simp only [argumentsAfter, List.flatMap_cons, List.append_assoc]

mutual

/-- **Code tells the signs of zeros.** -/
theorem toldApart {e e' : Expr} (h : e.unsignZeros = e'.unsignZeros) : e.ToldApart e' := by
  intro rest rest' heq
  cases e with
  | constant v t =>
      cases e' with
      | constant w u =>
          simp only [unsignZeros, constant.injEq] at h
          obtain ⟨hvalue, rfl⟩ := h
          rw [text, text] at heq
          obtain rfl := Value.eq_of_constant_append hvalue heq
          exact ⟨rfl, List.append_cancel_left heq⟩
      | _ => simp [unsignZeros] at h
  | var x =>
      cases e' with
      | var y =>
          simp only [unsignZeros, var.injEq] at h
          subst h
          exact ⟨rfl, List.append_cancel_left heq⟩
      | _ => simp [unsignZeros] at h
  | call x m xs t =>
      cases e' with
      | call y n ys u =>
          simp only [unsignZeros, call.injEq] at h
          obtain ⟨htarget, rfl, hargs, rfl⟩ := h
          simp only [text, String.toList_append, List.append_assoc] at heq
          obtain ⟨rfl, hafter⟩ := (toldApart htarget).guarded htarget heq
          simp only [List.append_cancel_left_eq] at hafter
          obtain ⟨rfl, hrest⟩ := toldApart_argumentList hargs hafter
          exact ⟨rfl, hrest⟩
      | _ => simp [unsignZeros] at h
  | staticCall c m xs t =>
      cases e' with
      | staticCall d n ys u =>
          simp only [unsignZeros, staticCall.injEq] at h
          obtain ⟨rfl, rfl, hargs, rfl⟩ := h
          simp only [text, String.toList_append, List.append_assoc,
            List.append_cancel_left_eq] at heq
          obtain ⟨rfl, hrest⟩ := toldApart_argumentList hargs heq
          exact ⟨rfl, hrest⟩
      | _ => simp [unsignZeros] at h
  | construct t xs =>
      cases e' with
      | construct u ys =>
          simp only [unsignZeros, construct.injEq] at h
          obtain ⟨rfl, hargs⟩ := h
          simp only [text, String.toList_append, List.append_assoc,
            List.append_cancel_left_eq] at heq
          obtain ⟨rfl, hrest⟩ := toldApart_argumentList hargs heq
          exact ⟨rfl, hrest⟩
      | _ => simp [unsignZeros] at h
  | binary o x y t =>
      cases e' with
      | binary p z w u =>
          simp only [unsignZeros, binary.injEq] at h
          obtain ⟨rfl, hleft, hright, rfl⟩ := h
          simp only [text, String.toList_append, List.append_assoc] at heq
          obtain ⟨rfl, hafter⟩ := (toldApart hleft).guarded hleft heq
          simp only [List.append_cancel_left_eq] at hafter
          obtain ⟨rfl, hrest⟩ := (toldApart hright).guarded hright hafter
          exact ⟨rfl, hrest⟩
      | _ => simp [unsignZeros] at h
  | unary o x t =>
      cases e' with
      | unary p y u =>
          simp only [unsignZeros, unary.injEq] at h
          obtain ⟨rfl, hoperand, rfl⟩ := h
          simp only [text, String.toList_append, List.append_assoc,
            List.append_cancel_left_eq] at heq
          obtain ⟨rfl, hrest⟩ := (toldApart hoperand).guarded hoperand heq
          exact ⟨rfl, hrest⟩
      | _ => simp [unsignZeros] at h
  | conditional a x y t =>
      cases e' with
      | conditional b z w u =>
          simp only [unsignZeros, conditional.injEq] at h
          obtain ⟨htest, hifTrue, hifFalse, rfl⟩ := h
          simp only [text, String.toList_append, List.append_assoc] at heq
          obtain ⟨rfl, hafter⟩ := (toldApart htest).guarded htest heq
          simp only [List.append_cancel_left_eq] at hafter
          obtain ⟨rfl, hlast⟩ := (toldApart hifTrue).guarded hifTrue hafter
          simp only [List.append_cancel_left_eq] at hlast
          obtain ⟨rfl, hrest⟩ := (toldApart hifFalse).guarded hifFalse hlast
          exact ⟨rfl, hrest⟩
      | _ => simp [unsignZeros] at h
  | cast x t =>
      cases e' with
      | cast y u =>
          simp only [unsignZeros, cast.injEq] at h
          obtain ⟨hoperand, rfl⟩ := h
          simp only [text, String.toList_append, List.append_assoc,
            List.append_cancel_left_eq] at heq
          obtain ⟨rfl, hrest⟩ := (toldApart hoperand).guarded hoperand heq
          exact ⟨rfl, hrest⟩
      | _ => simp [unsignZeros] at h
  | element x i t =>
      cases e' with
      | element y j u =>
          simp only [unsignZeros, element.injEq] at h
          obtain ⟨harray, rfl, rfl⟩ := h
          simp only [text, String.toList_append, List.append_assoc] at heq
          obtain ⟨rfl, hafter⟩ := (toldApart harray).guarded harray heq
          simp only [List.append_cancel_left_eq] at hafter
          exact ⟨rfl, hafter⟩
      | _ => simp [unsignZeros] at h
  | lambda ps x =>
      cases e' with
      | lambda qs y =>
          simp only [unsignZeros, lambda.injEq] at h
          obtain ⟨rfl, hbody⟩ := h
          simp only [text, String.toList_append, List.append_assoc,
            List.append_cancel_left_eq] at heq
          obtain ⟨rfl, hrest⟩ := toldApart hbody _ _ heq
          exact ⟨rfl, hrest⟩
      | _ => simp [unsignZeros] at h

theorem toldApart_argumentList {es es' : List Expr} (h : unsignAll es = unsignAll es')
    {rest rest' : List Char}
    (heq : (argumentList es).toList ++ rest = (argumentList es').toList ++ rest') :
    es = es' ∧ rest = rest' := by
  cases es with
  | nil =>
      cases es' with
      | nil => exact ⟨rfl, List.append_cancel_left heq⟩
      | cons => simp [unsignAll] at h
  | cons e es =>
      cases es' with
      | nil => simp [unsignAll] at h
      | cons e' es' =>
          simp only [unsignAll, List.cons.injEq] at h
          rw [toList_argumentList_cons, toList_argumentList_cons, List.cons_append,
            List.cons_append, List.append_assoc, List.append_assoc] at heq
          obtain ⟨rfl, hafter⟩ := toldApart h.1 _ _ (List.tail_eq_of_cons_eq heq)
          obtain ⟨rfl, hrest⟩ := toldApart_argumentsAfter h.2 hafter
          exact ⟨rfl, hrest⟩

theorem toldApart_argumentsAfter {es es' : List Expr} (h : unsignAll es = unsignAll es')
    {rest rest' : List Char} (heq : argumentsAfter es ++ rest = argumentsAfter es' ++ rest') :
    es = es' ∧ rest = rest' := by
  cases es with
  | nil =>
      cases es' with
      | nil => exact ⟨rfl, List.append_cancel_left heq⟩
      | cons => simp [unsignAll] at h
  | cons e es =>
      cases es' with
      | nil => simp [unsignAll] at h
      | cons e' es' =>
          simp only [unsignAll, List.cons.injEq] at h
          rw [argumentsAfter_cons, argumentsAfter_cons, List.append_assoc, List.append_assoc,
            List.append_assoc, List.append_assoc] at heq
          obtain ⟨rfl, hafter⟩ := toldApart h.1 _ _ (List.append_cancel_left heq)
          obtain ⟨rfl, hrest⟩ := toldApart_argumentsAfter h.2 hafter
          exact ⟨rfl, hrest⟩

end

end Expr

/-! ### Appending -/

namespace Block

variable {b : Block} {e : Expr}

/-- Final variables have the types of what they hold. -/
def Typed (b : Block) : Prop := ∀ v init, b.Holds v init → v.ty = init.ty

/-- Whether the expression is held by a final variable, up to the signs of zeros. -/
def HoldsUnsigned (b : Block) (e : Expr) : Prop :=
  ∃ v init, b.Holds v init ∧ init.unsignZeros = e.unsignZeros

theorem Tidy.eq_of_name_eq (h : b.Tidy) {d d' : Declaration} (hd : d ∈ b.statements)
    (hd' : d' ∈ b.statements) (hname : d.name = d'.name) : d = d' :=
  List.inj_on_of_nodup_map h.distinct hd hd' hname

theorem holds_declareFinal (suggestion : String) :
    (b.declareFinal suggestion e).2.Holds (b.declareFinal suggestion e).1 e := by
  rw [Holds, statements_declareFinal]
  exact List.mem_append_right _ List.mem_cons_self

theorem holder?_eq_none_iff_unsigned :
    b.holder? e = none ↔ ¬ (e.Comparable ∧ b.HoldsUnsigned e) := by
  rw [holder?_eq_none]
  constructor
  · rintro h ⟨hcomparable, v, init, hholds, hsame⟩
    have hinit : init.Comparable := by
      rwa [← Expr.comparable_unsignZeros, hsame, Expr.comparable_unsignZeros]
    exact absurd (Expr.agrees_iff.mpr ⟨hinit, hsame⟩) (Bool.eq_false_iff.mp (h v init hholds))
  · intro h v init hholds
    refine Bool.eq_false_iff.mpr fun hagrees => h ?_
    obtain ⟨hinit, hsame⟩ := Expr.agrees_iff.mp hagrees
    refine ⟨?_, v, init, hholds, hsame⟩
    rwa [← Expr.comparable_unsignZeros, ← hsame, Expr.comparable_unsignZeros]

theorem Typed.append (h : b.Typed) (suggestion : String) (e : Expr) :
    (b.append suggestion e).2.Typed := by
  unfold Block.append
  cases b.holder? e with
  | some v => exact h
  | none =>
      intro w init hholds
      rw [Holds, statements_declareFinal] at hholds
      rcases List.mem_append.mp hholds with hold | hlast
      · exact h w init hold
      · obtain ⟨rfl, rfl, -⟩ := Declaration.mk.inj (List.mem_singleton.mp hlast)
        rfl

/-- **What appending returns** is a final variable that holds the expression, up to the signs of zeros. -/
theorem exists_holds_append (suggestion : String) (e : Expr) :
    ∃ init, (b.append suggestion e).2.Holds (b.append suggestion e).1 init ∧
      init.unsignZeros = e.unsignZeros := by
  unfold append
  cases hholder : b.holder? e with
  | some v =>
      obtain ⟨init, hholds, hagrees⟩ := exists_of_holder?_eq_some hholder
      exact ⟨init, hholds, (Expr.agrees_iff.mp hagrees).2⟩
  | none => exact ⟨e, holds_declareFinal suggestion, rfl⟩

/-- The block only grows by a declaration of the expression, and not where the expression is held. -/
theorem append_eq (b : Block) (suggestion : String) (e : Expr) :
    (e.Comparable ∧ b.HoldsUnsigned e ∧ (b.append suggestion e).2 = b) ∨
      (¬ (e.Comparable ∧ b.HoldsUnsigned e) ∧
        b.append suggestion e = b.declareFinal suggestion e) := by
  by_cases hheld : e.Comparable ∧ b.HoldsUnsigned e
  · cases hholder : b.holder? e with
    | some v => exact .inl ⟨hheld.1, hheld.2, by rw [append, hholder]⟩
    | none => exact absurd hheld (holder?_eq_none_iff_unsigned.mp hholder)
  · refine .inr ⟨hheld, ?_⟩
    rw [append, holder?_eq_none_iff_unsigned.mpr hheld]

/-- **Appending binds an expression up to the signs of its zeros.** In a block in which names are
reserved and declared once, and then again in the block that results, the variable that is returned is
final. Its only declaration has the initial value that was given, up to the signs of zeros, and so of
the same type; the code is that of what was given only if the two are equal. Earlier declarations are
unchanged. At most one is added: none if the expression is already held up to the signs of zeros and its
floating-point constants are numbers, and else one of the expression as it was given. The variable has
the type of the expression if this holds of what the block declares already. -/
theorem append_binds_up_to_zeros (h : b.Tidy) (suggestion : String) (e : Expr) :
    (b.append suggestion e).2.Tidy ∧
    (∃ init, (b.append suggestion e).2.Holds (b.append suggestion e).1 init ∧
      (∀ d ∈ (b.append suggestion e).2.statements, d.name = (b.append suggestion e).1.name →
        d = ⟨(b.append suggestion e).1, init, true⟩) ∧
      init.unsignZeros = e.unsignZeros ∧ init.ty = e.ty ∧ (init.text = e.text ↔ init = e)) ∧
    (e.Comparable ∧ b.HoldsUnsigned e → (b.append suggestion e).2 = b) ∧
    (¬ (e.Comparable ∧ b.HoldsUnsigned e) →
      (b.append suggestion e).2.statements =
        b.statements ++ [⟨(b.append suggestion e).1, e, true⟩] ∧
      (b.append suggestion e).1.name ∉ b.names ∧ (b.append suggestion e).1.ty = e.ty) ∧
    (b.Typed → (b.append suggestion e).2.Typed ∧ (b.append suggestion e).1.ty = e.ty) ∧
    (e.ZeroFree → (b.append suggestion e).2.Holds (b.append suggestion e).1 e ∧
      (e.Comparable → (∃ v, b.Holds v e) → (b.append suggestion e).2 = b)) := by
  have htidy := h.append suggestion e
  obtain ⟨init, hholds, hsame⟩ := b.exists_holds_append suggestion e
  have hty : init.ty = e.ty := by
    rw [← Expr.ty_unsignZeros init, hsame, Expr.ty_unsignZeros]
  have hkept (hheld : e.Comparable ∧ b.HoldsUnsigned e) : (b.append suggestion e).2 = b := by
    rcases b.append_eq suggestion e with ⟨-, -, heq⟩ | ⟨hnot, -⟩
    · exact heq
    · exact absurd hheld hnot
  refine ⟨htidy, ⟨init, hholds, fun d hd hname => htidy.eq_of_name_eq hd hholds hname, hsame, hty, ?_⟩,
    hkept, fun hnot => ?_, fun htyped => ?_, fun hzeros => ?_⟩
  · constructor
    · intro htext
      have hchars : init.text.toList ++ [] = e.text.toList ++ [] := by rw [htext]
      exact (Expr.toldApart hsame [] [] hchars).1
    · exact congrArg Expr.text
  · rcases b.append_eq suggestion e with ⟨hcomparable, hheld, -⟩ | ⟨-, heq⟩
    · exact absurd ⟨hcomparable, hheld⟩ hnot
    · rw [heq]
      exact ⟨b.statements_declareFinal suggestion e, b.name_declareFinal_not_mem suggestion e, rfl⟩
  · have htyped' := htyped.append suggestion e
    exact ⟨htyped', (htyped' _ _ hholds).trans hty⟩
  · obtain rfl := (Expr.unsignZeros_eq_iff hzeros).mp hsame
    exact ⟨hholds, fun hcomparable ⟨v, hv⟩ => hkept ⟨hcomparable, v, init, hv, rfl⟩⟩

def positiveZero : Expr := .constant (.double ⟨0⟩) (.primitive .double)

def negativeZero : Expr := .constant (.double ⟨0x8000000000000000⟩) (.primitive .double)

def notANumber : Expr := .constant (.double ⟨0x7ff8000000000000⟩) (.primitive .double)

/-- A block with a negative zero, and with a boolean that is declared as an object. -/
def zeroAndFlag : Block where
  statements := [⟨⟨"zero", .primitive .double⟩, negativeZero, true⟩,
    ⟨⟨"flag", .object⟩, .boolean true, true⟩]
  names := ["zero", "flag"]

theorem tidy_zeroAndFlag : zeroAndFlag.Tidy where
  covered := by simp [Covered, zeroAndFlag, Declaration.name]
  distinct := by decide

theorem zero_is_bound_up_to_sign :
    zeroAndFlag.Tidy ∧ (zeroAndFlag.append "v" positiveZero).2 = zeroAndFlag ∧
      ∃ init, zeroAndFlag.Holds ⟨"zero", .primitive .double⟩ init ∧
        init.unsignZeros = positiveZero.unsignZeros := by
  have hbinds := append_binds_up_to_zeros tidy_zeroAndFlag "v" positiveZero
  have hcomparable : positiveZero.Comparable := by
    intro v hv
    obtain rfl := List.mem_singleton.mp hv
    rfl
  have hheld : zeroAndFlag.HoldsUnsigned positiveZero := ⟨_, negativeZero, List.mem_cons_self, rfl⟩
  refine ⟨tidy_zeroAndFlag, hbinds.2.2.1 ⟨hcomparable, hheld⟩, ?_⟩
  obtain ⟨init, hholds, -, hsame, -⟩ := hbinds.2.1
  exact ⟨init, hholds, hsame⟩

/-- A zero is bound to the negative one, which is written in another way. What is no number is bound
twice, and the boolean is bound to the object. -/
theorem zero_is_bound_to_negative_zero :
    zeroAndFlag.Tidy ∧
      (zeroAndFlag.append "v" positiveZero = (⟨"zero", .primitive .double⟩, zeroAndFlag) ∧
        ¬ zeroAndFlag.Holds ⟨"zero", .primitive .double⟩ positiveZero ∧
        negativeZero.text = "-0D" ∧ positiveZero.text = "0D") ∧
      ((zeroAndFlag.append "v" notANumber).2.Holds ⟨"v", .primitive .double⟩ notANumber ∧
        ((zeroAndFlag.append "v" notANumber).2.append "w" notANumber).2.length = 4) ∧
      (zeroAndFlag.append "v" (.boolean true)).1 = ⟨"flag", .object⟩ := by
  refine ⟨tidy_zeroAndFlag, ⟨rfl, ?_, ?_, ?_⟩, ⟨?_, rfl⟩, rfl⟩
  · intro hholds
    simp [Holds, zeroAndFlag, positiveZero, negativeZero] at hholds
  · rw [negativeZero, Expr.text]
    rfl
  · rw [positiveZero, Expr.text]
    rfl
  · exact List.mem_append_right _ List.mem_cons_self

end Block

end RowCode
