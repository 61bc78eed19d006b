import RowCode.Proofs.CodeNumbers
import RowCode.Proofs.JsonNumbers

/-!
# What literals are printed as

Strings apart, a literal is printed as one word: letters and digits, points and signs, whatever kind
of number or name it is. No other character can get into a digest that way.
-/

namespace RowCode.Printing

/-- The characters of numbers, and of the names of values. -/
def isPlain (c : Char) : Bool := c.isAlphanum || c = '.' || c = '-' || c = '+'

/-- Whether a literal that is no string can be printed like this. -/
structure IsPrinted (cs : List Char) : Prop where
  ne_nil : cs ≠ []
  plain : ∀ c ∈ cs, isPlain c = true

theorem isPlain_of_isDigit {c : Char} (hc : c.isDigit = true) : isPlain c = true := by
  simp [isPlain, Char.isAlphanum, hc]

theorem isPrinted_of_all {cs : List Char} (hne : cs ≠ []) (hall : cs.all isPlain = true) :
    IsPrinted cs :=
  ⟨hne, List.all_eq_true.mp hall⟩

theorem isPrinted_append {left right : List Char} (hleft : ∀ c ∈ left, isPlain c = true)
    (hright : IsPrinted right) : IsPrinted (left ++ right) :=
  ⟨List.append_ne_nil_of_right_ne_nil left hright.ne_nil,
    List.forall_mem_append.mpr ⟨hleft, hright.plain⟩⟩

theorem isPlain_sign (negative : Bool) :
    ∀ c ∈ (if negative then ['-'] else [] : List Char), isPlain c = true := by
  cases negative with
  | true => exact List.forall_mem_singleton.mpr rfl
  | false => exact List.forall_mem_nil _

theorem isPrinted_decimalDigits (n : Nat) : IsPrinted (decimalDigits n) :=
  ⟨decimalDigits_ne_nil n, fun _ hc => isPlain_of_isDigit (isDigit_of_mem_decimalDigits hc)⟩

theorem isPrinted_numeralText {whole fraction : List Char} (hne : whole ≠ [])
    (hwhole : ∀ c ∈ whole, c.isDigit = true) (hfraction : ∀ c ∈ fraction, c.isDigit = true) :
    IsPrinted (numeralText whole fraction) := by
  refine ⟨List.append_ne_nil_of_left_ne_nil hne _, List.forall_mem_append.mpr
    ⟨fun c hc => isPlain_of_isDigit (hwhole c hc), fun c hc => ?_⟩⟩
  split at hc
  · cases hc
  · rcases List.mem_cons.mp hc with rfl | hc
    · decide
    · exact isPlain_of_isDigit (hfraction c hc)

theorem isPrinted_placePoint {digits : List Char} (hne : digits ≠ [])
    (hdigits : ∀ c ∈ digits, c.isDigit = true) (point : Int) :
    IsPrinted (placePoint digits point) := by
  obtain ⟨hwhole, hfraction⟩ := isDigit_of_mem_pointParts hdigits point
  rw [placePoint_eq hne]
  exact isPrinted_numeralText (pointParts_fst_ne_nil hne) hwhole hfraction

theorem isPrinted_signedExponent (e : Int) : IsPrinted (signedExponent e) := by
  rw [signedExponent, ← List.singleton_append]
  refine isPrinted_append (List.forall_mem_singleton.mpr ?_) (isPrinted_decimalDigits e.natAbs)
  split
  · decide
  · decide

theorem isPrinted_finiteText (coefficient : Nat) (exponent : Int) :
    IsPrinted (Decimal.finiteText coefficient exponent) := by
  have hne := decimalDigits_ne_nil coefficient
  have hdigits : ∀ c ∈ decimalDigits coefficient, c.isDigit = true :=
    fun _ => isDigit_of_mem_decimalDigits
  unfold Decimal.finiteText
  simp only
  split
  · exact isPrinted_placePoint hne hdigits _
  · rw [leadingPoint_eq, ← List.singleton_append, ← List.append_assoc]
    refine isPrinted_append (List.forall_mem_append.mpr ⟨?_, List.forall_mem_singleton.mpr rfl⟩)
      (isPrinted_signedExponent _)
    exact (isPrinted_numeralText (by simp [hne]) (fun c hc => hdigits c (List.mem_of_mem_take hc))
      fun c hc => hdigits c (List.mem_of_mem_drop hc)).plain

theorem isPrinted_decimal (d : Decimal) : IsPrinted d.chars := by
  cases d with
  | finite negative coefficient exponent _ =>
      exact isPrinted_append (isPlain_sign negative) (isPrinted_finiteText coefficient exponent)
  | infinite negative =>
      exact isPrinted_append (isPlain_sign negative) (isPrinted_of_all (by decide) (by decide))
  | nan negative signaling payload _ =>
      rw [Decimal.chars, List.append_assoc, List.append_assoc]
      refine isPrinted_append (isPlain_sign negative) (isPrinted_append ?_ ⟨by simp, ?_⟩)
      · cases signaling with
        | true => exact List.forall_mem_singleton.mpr rfl
        | false => exact List.forall_mem_nil _
      · refine List.forall_mem_append.mpr ⟨List.all_eq_true.mp (by decide), fun c hc => ?_⟩
        exact isPlain_of_isDigit (Decimal.isDigit_of_mem_payloadDigits hc)

theorem isPrinted_displayText (f : BinaryFormat) (negative : Bool) (magnitude : Magnitude) :
    IsPrinted (f.displayText negative magnitude) := by
  cases magnitude with
  | finite significand exponent =>
      obtain ⟨digits, point, htext, hne, hdigits⟩ :=
        f.positionalText_eq_placePoint significand exponent
      refine isPrinted_append (isPlain_sign negative) ?_
      rw [htext]
      exact isPrinted_placePoint hne hdigits point
  | infinite =>
      exact isPrinted_append (isPlain_sign negative) (isPrinted_of_all (by decide) (by decide))
  | nan =>
      rw [BinaryFormat.displayText]
      exact isPrinted_of_all (by decide) (by decide)

theorem isPrinted_int (i : Int) : IsPrinted (toString i).toList := by
  have hchars : (toString i).toList =
      (if decide (i < 0) then ['-'] else []) ++ decimalDigits i.natAbs := by
    rw [JsonNumber.toList_toString_int, JsonNumber.chars, JsonNumber.ofInteger]
    simp only [JsonNumber.fractionChars, JsonNumber.exponentChars, List.append_nil]
  rw [hchars]
  exact isPrinted_append (isPlain_sign _) (isPrinted_decimalDigits _)

/-- A literal that is no string is printed as one word of plain characters. -/
theorem isPrinted_text {v : Value} (hv : ∀ s, v ≠ .string s) : IsPrinted v.text.toList := by
  cases v with
  | string s => exact absurd rfl (hv s)
  | null => exact isPrinted_of_all (by decide) (by decide)
  | boolean b =>
      cases b with
      | true => exact isPrinted_of_all (by decide) (by decide)
      | false => exact isPrinted_of_all (by decide) (by decide)
  | int8 n => exact isPrinted_int n.toInt
  | int16 n => exact isPrinted_int n.toInt
  | int32 n => exact isPrinted_int n.toInt
  | int64 n => exact isPrinted_int n.toInt
  | float x =>
      have htext : (Value.float x).text.toList = _ := String.toList_ofList
      rw [htext]
      exact isPrinted_displayText _ _ _
  | double x =>
      have htext : (Value.double x).text.toList = _ := String.toList_ofList
      rw [htext]
      exact isPrinted_displayText _ _ _
  | decimal d =>
      have htext : (Value.decimal d).text.toList = _ := String.toList_ofList
      rw [htext]
      exact isPrinted_decimal d

end RowCode.Printing
