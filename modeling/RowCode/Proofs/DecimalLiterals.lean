import Mathlib.Algebra.Field.Rat
import Mathlib.Tactic.NormNum
import RowCode.Lowering.Literal
import RowCode.Proofs.CodeWriting
import RowCode.Proofs.Printing
import RowCode.Proofs.StoredPrograms
import RowCode.Proofs.Typing

/-!
# Literals of exact numbers

A literal of type DECIMAL is rebuilt from a text, which is read back as the same decimal. The text is
a numeral of the value of the literal if that is finite. The infinities and what is not a number are
literals of the type as well, and their names are no numerals.
-/

namespace RowCode

namespace Decimal

/-! ### Numerals -/

/-- Whether the text is a numeral of this value: digits with at most one point among them, to which a
sign and an exponent may be added. -/
def Denotes (cs : List Char) (value : ℚ) : Prop :=
  ∃ negative whole fraction written,
    cs = signText negative ++ (numeralText whole fraction ++ exponentText written) ∧ whole ≠ [] ∧
      (∀ c ∈ whole, c.isDigit = true) ∧ (∀ c ∈ fraction, c.isDigit = true) ∧
      value = (if negative then -1 else 1) * digitsValue (whole ++ fraction) *
        10 ^ (written.getD 0 - fraction.length)

/-- The number that a decimal is, if it is finite. -/
def value? : Decimal → Option ℚ
  | .finite negative coefficient exponent _ =>
    some ((if negative then -1 else 1) * coefficient * 10 ^ exponent)
  | .infinite _ => none
  | .nan _ _ _ _ => none

theorem splitSign_numeralText {whole : List Char} (negative : Bool) (hne : whole ≠ [])
    (hwhole : ∀ c ∈ whole, c.isDigit = true) (fraction rest : List Char) :
    splitSign (signText negative ++ (numeralText whole fraction ++ rest)) =
      (negative, numeralText whole fraction ++ rest) := by
  obtain ⟨c, tail, rfl⟩ := List.exists_cons_of_ne_nil hne
  refine splitSign_signText negative fun d hd => ?_
  obtain rfl : c = d := Option.some.inj hd
  have hdigit := hwhole c List.mem_cons_self
  constructor <;> rintro rfl <;> exact absurd hdigit (by decide)

theorem exponentText_inj {written written' : Option Int}
    (h : exponentText written = exponentText written') : written = written' := by
  cases written with
  | none =>
      cases written' with
      | none => rfl
      | some e => cases h
  | some e =>
      cases written' with
      | none => cases h
      | some e' =>
          obtain ⟨hsign, hdigits⟩ := List.cons.inj (List.cons.inj h).2
          have habs : e.natAbs = e'.natAbs := by
            rw [← digitsValue_decimalDigits e.natAbs, hdigits, digitsValue_decimalDigits]
          have hnegative : e < 0 ↔ e' < 0 := by
            split at hsign <;> split at hsign <;>
              first | omega | exact absurd hsign (by decide)
          exact congrArg some (by omega)

theorem Denotes.unique {cs : List Char} {value value' : ℚ} (h : Denotes cs value)
    (h' : Denotes cs value') : value = value' := by
  obtain ⟨negative, whole, fraction, written, hcs, hne, hwhole, hfraction, rfl⟩ := h
  obtain ⟨negative', whole', fraction', written', hcs', hne', hwhole', hfraction', rfl⟩ := h'
  have hsplit := splitSign_numeralText negative hne hwhole fraction (exponentText written)
  rw [← hcs, hcs', splitSign_numeralText negative' hne' hwhole'] at hsplit
  obtain ⟨rfl, hnumeral⟩ := Prod.mk.inj hsplit
  have hparts := splitNumeral_numeralText hwhole hfraction (endsNumeral_exponentText written)
  rw [← hnumeral, splitNumeral_numeralText hwhole' hfraction' (endsNumeral_exponentText written')]
    at hparts
  obtain ⟨rfl, hrest⟩ := Prod.mk.inj hparts
  obtain ⟨rfl, hexponent⟩ := Prod.mk.inj hrest
  rw [exponentText_inj hexponent]

theorem denotes_of_finite (negative : Bool) {coefficient : Nat} {exponent : Int}
    (h : Representable coefficient exponent) :
    Denotes (finite negative coefficient exponent h).chars
      ((if negative then -1 else 1) * coefficient * 10 ^ exponent) := by
  obtain ⟨whole, fraction, written, htext, hne, hwhole, hfraction, hvalue, hscale, -⟩ :=
    finiteText_eq coefficient exponent
  refine ⟨negative, whole, fraction, written, ?_, hne, hwhole, hfraction, ?_⟩
  · rw [chars, htext]
  · rw [hvalue, hscale]

/-- What has no digits is named by a word. -/
theorem not_denotes_of_letter {c : Char} {rest : List Char} {value : ℚ} (negative : Bool)
    (hc : c ≠ '-' ∧ c ≠ '+' ∧ c.isDigit = false) :
    ¬ Denotes (signText negative ++ c :: rest) value := by
  rintro ⟨negative', whole, fraction, written, hcs, hne, hwhole, -⟩
  have hsplit : splitSign (signText negative ++ c :: rest) = (negative, c :: rest) := by
    refine splitSign_signText negative fun d hd => ?_
    obtain rfl : c = d := Option.some.inj hd
    exact ⟨hc.1, hc.2.1⟩
  rw [hcs, splitSign_numeralText negative' hne hwhole] at hsplit
  obtain ⟨d, tail, rfl⟩ := List.exists_cons_of_ne_nil hne
  obtain rfl : d = c := (List.cons.inj (Prod.mk.inj hsplit).2).1
  exact Bool.false_ne_true (hc.2.2.symm.trans (hwhole d List.mem_cons_self))

/-- **Text of decimals.** The text of a finite decimal is a numeral of its value, and of no other. The
text of any other decimal is no numeral. -/
theorem denotes_text_iff {d : Decimal} {value : ℚ} :
    Denotes d.text.toList value ↔ d.value? = some value := by
  rw [text, String.toList_ofList]
  cases d with
  | finite negative coefficient exponent h =>
      have hdenotes := denotes_of_finite negative h
      constructor
      · intro hvalue
        exact congrArg some (hdenotes.unique hvalue)
      · rintro hvalue
        rwa [← Option.some.inj hvalue]
  | infinite negative =>
      refine ⟨fun hvalue => absurd hvalue (not_denotes_of_letter negative (by decide)), ?_⟩
      intro hvalue
      cases hvalue
  | nan negative signaling payload hpayload =>
      constructor
      · intro hvalue
        rw [chars, List.append_assoc, List.append_assoc] at hvalue
        cases signaling with
        | false => exact absurd hvalue (not_denotes_of_letter (c := 'N') negative (by decide))
        | true => exact absurd hvalue (not_denotes_of_letter (c := 's') negative (by decide))
      · intro hvalue
        cases hvalue

end Decimal

/-! ### Literals -/

namespace Value

/-- The decimal that the value is in a DECIMAL column. An integer has scale zero. -/
inductive IsDecimal : Value → Decimal → Prop where
  | decimal (d : Decimal) : IsDecimal (.decimal d) d
  | integer {v : Value} {i : Int} (h : v.integer? = some i)
      (representable : Decimal.Representable i.natAbs 0) :
      IsDecimal v (.finite (i < 0) i.natAbs 0 representable)

theorem representable_of_integer? {v : Value} {i : Int} (h : v.integer? = some i) :
    Decimal.Representable i.natAbs 0 := by
  have hbounds : -2 ^ 63 ≤ i ∧ i < 2 ^ 63 := by
    cases v with
    | int8 n =>
        obtain rfl := Option.some.inj h
        have hlow := n.le_toInt
        have hhigh := n.toInt_lt
        omega
    | int16 n =>
        obtain rfl := Option.some.inj h
        have hlow := n.le_toInt
        have hhigh := n.toInt_lt
        omega
    | int32 n =>
        obtain rfl := Option.some.inj h
        have hlow := n.le_toInt
        have hhigh := n.toInt_lt
        omega
    | int64 n =>
        obtain rfl := Option.some.inj h
        exact ⟨n.le_toInt, n.toInt_lt⟩
    | null | boolean | float | double | decimal | string => cases h
  have hlt : i.natAbs < 10 ^ Decimal.precision := by
    simp only [Decimal.precision]
    omega
  exact ⟨hlt, by decide, by decide⟩

theorem canonicalText_of_integer? {v : Value} {i : Int} (h : v.integer? = some i) :
    v.canonicalText = toString i := by
  cases v with
  | int8 | int16 | int32 | int64 => exact congrArg toString (Option.some.inj h)
  | null | boolean | float | double | decimal | string => cases h

/-- An integer is written like the decimal that it is. -/
theorem IsDecimal.text {v : Value} {d : Decimal} (h : v.IsDecimal d) : v.canonicalText = d.text := by
  cases h with
  | decimal => rfl
  | integer h representable =>
      rw [canonicalText_of_integer? h, ← String.toList_inj, Token.toList_ofDecimal,
        Token.toList_ofInteger]
      rfl

theorem exists_isDecimal {v : Value} (hfits : v.fits .decimal = true) (hv : v ≠ .null) :
    ∃ d, v.IsDecimal d := by
  cases v with
  | null => exact absurd rfl hv
  | decimal d => exact ⟨d, .decimal d⟩
  | int8 n => exact ⟨_, .integer rfl (representable_of_integer? (v := .int8 n) rfl)⟩
  | int16 n => exact ⟨_, .integer rfl (representable_of_integer? (v := .int16 n) rfl)⟩
  | int32 n => exact ⟨_, .integer rfl (representable_of_integer? (v := .int32 n) rfl)⟩
  | int64 n => exact ⟨_, .integer rfl (representable_of_integer? (v := .int64 n) rfl)⟩
  | boolean | float | double | string => cases hfits

end Value

theorem lowerLiteral_of_decimal {v : Value} {ty : LogicalType} (hty : ty.dataType = .decimal)
    (hv : v ≠ .null) : lowerLiteral .standard v ty =
      .construct .decimal [.constant (.string v.canonicalText) .string] := by
  have hhost : TypeAdapter.standard ty = .decimal := by
    simp only [TypeAdapter.standard, hty]
  rw [lowerLiteral, hhost, if_neg (mt Value.isNull_iff.mp hv)]
  rfl

/-- What has only plain characters is quoted as it is. -/
theorem Text.literal_of_plain {s : String} (hs : ∀ c ∈ s.toList, Printing.isPlain c = true) :
    Text.literal s = "\"" ++ s ++ "\"" := by
  have hescape : ∀ c ∈ s.toList, Text.escape c = [c] := by
    intro c hc
    have hplain := hs c hc
    unfold Text.escape
    split <;> first | rfl | exact absurd hplain (by decide)
  rw [Text.literal, List.flatMap_congr hescape, List.flatMap_singleton', ← String.toList_inj]
  simp

theorem Program.fits_of_has {p : Program} {v : Value} {ty : LogicalType}
    (h : p.Has (.literal v ty)) : v.fits ty.dataType = true := by
  obtain ⟨node, hnode, hpart⟩ := List.mem_flatMap.mp (mem_of_has h)
  rcases List.mem_append.mp hnode with hexpr | houtput
  · obtain ⟨position, hposition⟩ := List.mem_iff_getElem?.mp hexpr
    exact p.wellFormed.sound position node hposition _ hpart
  · obtain ⟨index, outputTy, rfl, -⟩ := Program.of_mem_outputs houtput
    rw [Node.nodes_localRef, List.mem_singleton] at hpart
    cases hpart

/-- The program that projects a literal. -/
def Program.ofLiteral (v : Value) (ty : LogicalType) (h : v.fits ty.dataType = true) : Program where
  inputRowType := []
  exprs := [.literal v ty]
  projects := [.localRef 0 ty]
  condition := none
  faultless := by
    simp [ProgramParts.fault?, ProgramParts.outputs, Node.exprFault?, Node.fault?, Node.ownFault?,
      Node.outputFault?, h]

theorem Program.has_ofLiteral (v : Value) (ty : LogicalType) (h : v.fits ty.dataType = true) :
    (ofLiteral v ty h).Has (.literal v ty) :=
  ⟨.root (.expr 0), rfl⟩

/-- **DECIMAL literals are rebuilt.** A literal of type DECIMAL in a program that is not null is a
decimal, or an integer as a decimal of scale zero. It is rebuilt from the text of the decimal, which is
read as this decimal and is a numeral of its value if it is finite. If it is not, the text is no
numeral. -/
theorem Program.decimal_literals_are_rebuilt (p : Program) (v : Value) (ty : LogicalType)
    (hliteral : p.Has (.literal v ty)) (hty : ty.dataType = .decimal) (hv : v ≠ .null) :
    ∃ d, v.IsDecimal d ∧
      lowerLiteral .standard v ty =
        .construct .decimal [.constant (.string v.canonicalText) .string] ∧
      (lowerLiteral .standard v ty).text = "new BigDecimal(\"" ++ v.canonicalText ++ "\")" ∧
      Decimal.ofText? v.canonicalText = some d ∧
      ∀ value, Decimal.Denotes v.canonicalText.toList value ↔ d.value? = some value := by
  have hfits := Program.fits_of_has hliteral
  rw [hty] at hfits
  obtain ⟨d, hd⟩ := Value.exists_isDecimal hfits hv
  have hcode := lowerLiteral_of_decimal hty hv
  have htext := hd.text
  refine ⟨d, hd, hcode, ?_, ?_, fun value => ?_⟩
  · have hplain : ∀ c ∈ v.canonicalText.toList, Printing.isPlain c = true := by
      rw [htext, Decimal.text, String.toList_ofList]
      exact (Printing.isPrinted_decimal d).plain
    rw [hcode, Expr.text, Expr.argumentList, Expr.texts, Expr.texts, Expr.text, Text.constant,
      Text.literal_of_plain hplain, ← String.toList_inj]
    simp [HostType.text]
  · rw [htext, Decimal.ofText?_text]
  · rw [htext]
    exact Decimal.denotes_text_iff

/-- Minus fifteen hundred, known to the tens. -/
def fifteenHundred : Decimal := .finite true 150 1 (by decide)

theorem fifteenHundred_is_rebuilt :
    (lowerLiteral .standard (.decimal fifteenHundred) (.notNull .decimal)).text =
        "new BigDecimal(\"-1.50E+3\")" ∧
      Decimal.ofText? "-1.50E+3" = some fifteenHundred ∧
      Decimal.Denotes "-1.50E+3".toList (-1500) := by
  have htext : (Value.decimal fifteenHundred).canonicalText = "-1.50E+3" := by rfl
  obtain ⟨d, hd, -, hcode, hread, hvalue⟩ := Program.decimal_literals_are_rebuilt _ _ _
    (Program.has_ofLiteral (.decimal fifteenHundred) (.notNull .decimal) rfl) rfl
    (by simp)
  rw [htext] at hcode hread hvalue
  obtain rfl : fifteenHundred = d := by
    cases hd with
    | decimal => rfl
    | integer h => cases h
  refine ⟨hcode, hread, (hvalue _).mpr ?_⟩
  norm_num [fifteenHundred, Decimal.value?]

/-- **An infinity is rebuilt from what is no numeral.** It is accepted as a literal of type DECIMAL. -/
theorem infinity_is_no_numeral :
    ∃ p : Program, p.Has (.literal (.decimal (.infinite false)) (.notNull .decimal)) ∧
      lowerLiteral .standard (.decimal (.infinite false)) (.notNull .decimal) =
        .construct .decimal [.constant (.string "Infinity") .string] ∧
      ∀ value, ¬ Decimal.Denotes "Infinity".toList value := by
  refine ⟨_, Program.has_ofLiteral _ _ rfl, rfl, fun value hvalue => ?_⟩
  have hnone := (Decimal.denotes_text_iff (d := .infinite false)).mp hvalue
  cases hnone

end RowCode
