import RowCode.Proofs.CodeTokens
import RowCode.Proofs.RoundingIntervals

/-!
# Numbers in code

What a number is written as is read to its end, and tells the number: the last letter tells the
width, and the digits tell the rest.
-/

namespace RowCode

theorem isNumber_parts {whole fraction exponent width : List Char} (hne : whole ≠ [])
    (hwhole : ∀ c ∈ whole, c.isDigit = true) (hfraction : ∀ c ∈ fraction, c.isDigit = true)
    (hexponent : exponent = [] ∨ ∃ e, exponent = 'E' :: signedExponent e)
    (hwidth : width = [] ∨ ∃ c ∈ ['L', 'F', 'D'], width = [c]) :
    IsNumber (numeralText whole fraction ++ (exponent ++ width)) := by
  refine ⟨whole, if fraction = [] then [] else '.' :: fraction, exponent, width, ?_, hne, hwhole,
    ?_, ?_, hwidth⟩
  · rw [numeralText, List.append_assoc]
  · by_cases hnil : fraction = []
    · exact .inl (if_pos hnil)
    · exact .inr ⟨fraction, if_neg hnil, hnil, hfraction⟩
  · rcases hexponent with rfl | ⟨e, rfl⟩
    · exact .inl rfl
    · exact .inr ⟨_, decimalDigits e.natAbs, rfl, fun _ => isDigit_of_mem_decimalDigits⟩

theorem isNumber_placePoint {digits width : List Char} (hdigits : ∀ c ∈ digits, c.isDigit = true)
    (hne : digits ≠ []) (point : Int) (hwidth : width = [] ∨ ∃ c ∈ ['L', 'F', 'D'], width = [c]) :
    IsNumber (placePoint digits point ++ width) := by
  obtain ⟨hwhole, hfraction⟩ := isDigit_of_mem_pointParts hdigits point
  rw [placePoint_eq hne, ← List.nil_append width]
  exact isNumber_parts (pointParts_fst_ne_nil hne) hwhole hfraction (.inl rfl) hwidth

theorem BinaryFormat.positionalText_eq_placePoint (f : BinaryFormat) (significand : Nat)
    (exponent : Int) :
    ∃ digits point, f.positionalText significand exponent = placePoint digits point ∧
      digits ≠ [] ∧ ∀ c ∈ digits, c.isDigit = true := by
  refine ⟨(f.digitsAndPoint .up significand exponent).1,
    (f.digitsAndPoint .up significand exponent).2, rfl, ?_⟩
  unfold digitsAndPoint
  split
  · exact ⟨List.cons_ne_nil _ _, List.forall_mem_singleton.mpr (by decide)⟩
  · exact ⟨decimalDigits_ne_nil _, fun _ => isDigit_of_mem_decimalDigits⟩

theorem isNumber_positionalText (f : BinaryFormat) (significand : Nat) (exponent : Int) {c : Char}
    (hc : c ∈ ['L', 'F', 'D']) : IsNumber (f.positionalText significand exponent ++ [c]) := by
  obtain ⟨digits, point, htext, hne, hdigits⟩ :=
    f.positionalText_eq_placePoint significand exponent
  rw [htext]
  exact isNumber_placePoint hdigits hne point (.inr ⟨c, hc, rfl⟩)

namespace Numeral

theorem isNumber_chars (n : Numeral) : IsNumber n.chars := by
  cases n with
  | plain coefficient exponent =>
      have hdigits : ∀ c ∈ decimalDigits coefficient, c.isDigit = true :=
        fun _ => isDigit_of_mem_decimalDigits
      have hne := decimalDigits_ne_nil coefficient
      unfold chars Decimal.finiteText
      simp only
      split
      · rw [← List.append_nil (placePoint _ _)]
        exact isNumber_placePoint hdigits hne _ (.inl rfl)
      · rw [leadingPoint_eq, ← List.append_nil (_ :: signedExponent _)]
        refine isNumber_parts ?_ (fun c hc => hdigits c (List.mem_of_mem_take hc))
          (fun c hc => hdigits c (List.mem_of_mem_drop hc)) (.inr ⟨_, rfl⟩) (.inl rfl)
        simp [hne]
  | long n =>
      have hnumber : IsNumber (numeralText (decimalDigits n) [] ++ ([] ++ ['L'])) :=
        isNumber_parts (decimalDigits_ne_nil n) (fun _ => isDigit_of_mem_decimalDigits) (by simp)
          (.inl rfl) (.inr ⟨'L', by simp, rfl⟩)
      simpa [numeralText, chars] using hnumber
  | single significand exponent => exact isNumber_positionalText _ _ _ (by simp)
  | double significand exponent => exact isNumber_positionalText _ _ _ (by simp)

/-! The last letter of a number tells its width. -/

def isMark (c : Char) : Bool := c = 'L' || c = 'F' || c = 'D'

def mark : Numeral → List Char
  | plain _ _ => []
  | long _ => ['L']
  | single _ _ => ['F']
  | double _ _ => ['D']

theorem isMark_of_isDigit {c : Char} (hc : c.isDigit = true) : isMark c = false := by
  refine eq_false_of_ne_true fun hmark => ?_
  have hmarks : c = 'L' ∨ c = 'F' ∨ c = 'D' := by simpa [isMark, or_assoc] using hmark
  rcases hmarks with rfl | rfl | rfl
  · exact absurd hc (by decide)
  · exact absurd hc (by decide)
  · exact absurd hc (by decide)

theorem filter_digits {digits : List Char} (hdigits : ∀ c ∈ digits, c.isDigit = true) :
    digits.filter isMark = [] :=
  List.filter_eq_nil_iff.mpr fun c hc => by simp [isMark_of_isDigit (hdigits c hc)]

theorem filter_numeralText {whole fraction : List Char} (hwhole : ∀ c ∈ whole, c.isDigit = true)
    (hfraction : ∀ c ∈ fraction, c.isDigit = true) :
    (numeralText whole fraction).filter isMark = [] := by
  have hpoint : isMark '.' = false := by decide
  rw [numeralText, List.filter_append, filter_digits hwhole, List.nil_append]
  split
  · rfl
  · rw [List.filter_cons, hpoint, filter_digits hfraction, if_neg Bool.false_ne_true]

theorem filter_placePoint {digits : List Char} (hdigits : ∀ c ∈ digits, c.isDigit = true)
    (hne : digits ≠ []) (point : Int) : (placePoint digits point).filter isMark = [] := by
  obtain ⟨hwhole, hfraction⟩ := isDigit_of_mem_pointParts hdigits point
  rw [placePoint_eq hne, filter_numeralText hwhole hfraction]

theorem filter_positionalText (f : BinaryFormat) (significand : Nat) (exponent : Int) :
    (f.positionalText significand exponent).filter isMark = [] := by
  obtain ⟨digits, point, htext, hne, hdigits⟩ :=
    f.positionalText_eq_placePoint significand exponent
  rw [htext, filter_placePoint hdigits hne]

theorem filter_signedExponent (e : Int) : ('E' :: signedExponent e).filter isMark = [] := by
  have hdigits : (decimalDigits e.natAbs).filter isMark = [] :=
    filter_digits fun _ => isDigit_of_mem_decimalDigits
  unfold signedExponent
  by_cases hneg : e < 0
  · simp [hneg, hdigits, isMark]
  · simp [hneg, hdigits, isMark]

theorem filter_chars (n : Numeral) : n.chars.filter isMark = n.mark := by
  cases n with
  | plain coefficient exponent =>
      have hdigits : ∀ c ∈ decimalDigits coefficient, c.isDigit = true :=
        fun _ => isDigit_of_mem_decimalDigits
      unfold chars Decimal.finiteText
      simp only
      split
      · exact filter_placePoint hdigits (decimalDigits_ne_nil _) _
      · rw [List.filter_append, filter_signedExponent, leadingPoint_eq, List.append_nil]
        exact filter_numeralText (fun c hc => hdigits c (List.mem_of_mem_take hc))
          (fun c hc => hdigits c (List.mem_of_mem_drop hc))
  | long n =>
      rw [chars, List.filter_append, filter_digits fun _ => isDigit_of_mem_decimalDigits]
      rfl
  | single significand exponent =>
      rw [chars, List.filter_append, filter_positionalText]
      rfl
  | double significand exponent =>
      rw [chars, List.filter_append, filter_positionalText]
      rfl

theorem plain_eq_of_finiteText_eq {coefficient coefficient' : Nat} {exponent exponent' : Int}
    (h : Decimal.Representable coefficient exponent)
    (h' : Decimal.Representable coefficient' exponent')
    (htext : Decimal.finiteText coefficient exponent = Decimal.finiteText coefficient' exponent') :
    plain coefficient exponent = plain coefficient' exponent' := by
  have hread : Decimal.ofChars? (Decimal.finiteText coefficient exponent) =
      some (.finite false coefficient exponent h) :=
    Decimal.ofChars?_chars (.finite false _ _ h)
  have hread' : Decimal.ofChars? (Decimal.finiteText coefficient' exponent') =
      some (.finite false coefficient' exponent' h') :=
    Decimal.ofChars?_chars (.finite false _ _ h')
  rw [htext, hread', Option.some_inj] at hread
  obtain ⟨-, rfl, rfl⟩ := Decimal.finite.inj hread
  rfl

/-- **Numbers that are written alike are the same.** -/
theorem eq_of_chars_eq {n n' : Numeral} (hn : n.Occurs) (hn' : n'.Occurs)
    (h : n.chars = n'.chars) : n = n' := by
  have hmark : n.mark = n'.mark := by rw [← filter_chars, h, filter_chars]
  cases n with
  | plain coefficient exponent =>
      cases n' with
      | plain coefficient' exponent' => exact plain_eq_of_finiteText_eq hn hn' h
      | long _ | single _ _ | double _ _ => simp [mark] at hmark
  | long n =>
      cases n' with
      | long n' =>
          have hdigits : decimalDigits n = decimalDigits n' := List.append_cancel_right h
          rw [← digitsValue_decimalDigits n, hdigits, digitsValue_decimalDigits]
      | plain _ _ | single _ _ | double _ _ => simp [mark] at hmark
  | single significand exponent =>
      cases n' with
      | single significand' exponent' =>
          obtain ⟨x, hx⟩ := hn
          obtain ⟨y, hy⟩ := hn'
          obtain ⟨rfl, rfl⟩ := Single.eq_of_positionalText_eq hx hy (List.append_cancel_right h)
          rfl
      | plain _ _ | long _ | double _ _ => simp [mark] at hmark
  | double significand exponent =>
      cases n' with
      | double significand' exponent' =>
          obtain ⟨x, hx⟩ := hn
          obtain ⟨y, hy⟩ := hn'
          obtain ⟨rfl, rfl⟩ := Double.eq_of_positionalText_eq hx hy (List.append_cancel_right h)
          rfl
      | plain _ _ | long _ | single _ _ => simp [mark] at hmark

end Numeral

end RowCode
