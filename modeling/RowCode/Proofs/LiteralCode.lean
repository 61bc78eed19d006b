import RowCode.Proofs.Agreement
import RowCode.Proofs.CodeReceivers
import RowCode.Proofs.DecimalLiterals

/-!
# Literals that are written alike

The code of a literal tells its value, and mostly its kind: casts, suffixes, quotes and the classes of
special numbers keep the kinds apart. Only decimals have no mark of their own. In a DECIMAL column they
are rebuilt from their text, like integers, and in an ANY column a decimal without a fraction is
written like an integer.
-/

namespace RowCode

/-! ### Floating-point numbers -/

namespace BinaryFormat

theorem eq_infinityBits_of_magnitude {f : BinaryFormat} {bits : Nat}
    (h : f.magnitude bits = .infinite) : bits = f.infinityBits := by
  unfold magnitude at h
  simp only at h
  split at h
  · assumption
  · split at h
    · cases h
    · split at h
      · cases h
      · cases h

theorem eq_of_magnitude_eq {f : BinaryFormat} {bits bits' : Nat}
    (h : f.magnitude bits = f.magnitude bits') (hnan : f.magnitude bits ≠ .nan) : bits = bits' := by
  cases hmagnitude : f.magnitude bits with
  | finite significand exponent =>
      rw [← bitsOf_magnitude hmagnitude, ← bitsOf_magnitude (h.symm.trans hmagnitude)]
  | infinite =>
      rw [eq_infinityBits_of_magnitude hmagnitude,
        eq_infinityBits_of_magnitude (h.symm.trans hmagnitude)]
  | nan => exact absurd hmagnitude hnan

end BinaryFormat

theorem Single.eq_of_magnitude_eq {x y : Single} (hsign : x.negative = y.negative)
    (h : x.magnitude = y.magnitude) (hnan : x.magnitude ≠ .nan) : x = y := by
  have hsignBit : Single.format.signBit = 2 ^ 31 := rfl
  have hrest := BinaryFormat.eq_of_magnitude_eq h hnan
  have hbits : x.bits.toNat = y.bits.toNat := by
    have hx := x.bits.toNat_lt
    have hy := y.bits.toNat_lt
    rw [negative, negative, decide_eq_decide] at hsign
    rw [hsignBit] at hsign hrest
    omega
  exact congrArg Single.mk (UInt32.toNat_inj.mp hbits)

theorem Double.eq_of_magnitude_eq {x y : Double} (hsign : x.negative = y.negative)
    (h : x.magnitude = y.magnitude) (hnan : x.magnitude ≠ .nan) : x = y := by
  have hsignBit : Double.format.signBit = 2 ^ 63 := rfl
  have hrest := BinaryFormat.eq_of_magnitude_eq h hnan
  have hbits : x.bits.toNat = y.bits.toNat := by
    have hx := x.bits.toNat_lt
    have hy := y.bits.toNat_lt
    rw [negative, negative, decide_eq_decide] at hsign
    rw [hsignBit] at hsign hrest
    omega
  exact congrArg Double.mk (UInt64.toNat_inj.mp hbits)

/-! ### Code of constants -/

namespace Value

theorem isDecimal_of_text_eq {n : Int32} {d : Decimal}
    (h : (int32 n).canonicalText = (decimal d).canonicalText) : (int32 n).IsDecimal d := by
  obtain ⟨d', hd'⟩ := exists_isDecimal (v := .int32 n) rfl (by simp)
  obtain rfl : d' = d := Decimal.text_inj.mp (hd'.text.symm.trans h)
  exact hd'

/-- Whether neither is a number, in the same precision. -/
inductive BothNaN : Value → Value → Prop where
  | single {x y : Single} (hx : x.magnitude = .nan) (hy : y.magnitude = .nan) :
      BothNaN (.float x) (.float y)
  | double {x y : Double} (hx : x.magnitude = .nan) (hy : y.magnitude = .nan) :
      BothNaN (.double x) (.double y)

/-- Whether one is an integer of 32 bits, and the other is the decimal that the integer is. -/
inductive SameWhole : Value → Value → Prop where
  | integer {n : Int32} {d : Decimal} (h : (int32 n).IsDecimal d) : SameWhole (.int32 n) (.decimal d)
  | decimal {n : Int32} {d : Decimal} (h : (int32 n).IsDecimal d) : SameWhole (.decimal d) (.int32 n)

/-- The type that the code of the value has. The code of an integer of 32 bits is that of a decimal. -/
def codeType? : Value → Option DataType
  | .int32 _ => some .decimal
  | v => v.dataType?

end Value

namespace Numeral

def dataType : Numeral → DataType
  | plain _ _ => .decimal
  | long _ => .bigInt
  | single _ _ => .real
  | double _ _ => .double

end Numeral

namespace Code

/-- The type of the constants that have this code. -/
def dataType? : Code → Option DataType
  | boolean _ => some .boolean
  | numeral n => some n.dataType
  | unary _ (numeral n) => some n.dataType
  | cast (numeral _) (.primitive .byte) => some .tinyInt
  | cast (unary _ _) (.primitive .byte) => some .tinyInt
  | cast (numeral _) (.primitive .short) => some .smallInt
  | cast (unary _ _) (.primitive .short) => some .smallInt
  | field (name owner) _ => if owner = "Float" then some .real else some .double
  | name _ => some .decimal
  | unary _ (name _) => some .decimal
  | string _ => some .varchar
  | _ => none

theorem dataType?_signed (negative : Bool) (n : Numeral) :
    (signed negative (numeral n)).dataType? = some n.dataType := by
  cases negative with
  | true => rfl
  | false => rfl

theorem dataType?_ofConstant (v : Value) (ty : HostType) :
    (ofConstant v ty).dataType? = v.codeType? := by
  cases v with
  | null =>
      change (if ty = .object then null else cast null ty).dataType? = none
      split
      · rfl
      · rfl
  | boolean b => rfl
  | int8 n =>
      rw [ofConstant, ofInteger, signed]
      split
      · rfl
      · rfl
  | int16 n =>
      rw [ofConstant, ofInteger, signed]
      split
      · rfl
      · rfl
  | int32 n => exact dataType?_signed _ _
  | int64 n => exact dataType?_signed _ _
  | float x =>
      rw [ofConstant]
      cases x.magnitude with
      | finite => exact dataType?_signed _ _
      | infinite => rfl
      | nan => rfl
  | double x =>
      rw [ofConstant]
      cases x.magnitude with
      | finite => exact dataType?_signed _ _
      | infinite => rfl
      | nan => rfl
  | decimal d =>
      cases d with
      | finite negative coefficient exponent => exact dataType?_signed _ _
      | infinite negative => cases negative <;> rfl
      | nan negative signaling payload => cases negative <;> rfl
  | string s => rfl

theorem signed_inj {negative negative' : Bool} {n n' : Numeral}
    (h : signed negative (numeral n) = signed negative' (numeral n')) :
    negative = negative' ∧ n = n' := by
  cases negative with
  | true =>
      cases negative' with
      | true => exact ⟨rfl, numeral.inj (unary.inj h).2⟩
      | false => cases h
  | false =>
      cases negative' with
      | true => cases h
      | false => exact ⟨rfl, numeral.inj h⟩

theorem ofInteger_inj {i j : Int} (h : ofInteger i = ofInteger j) : i = j := by
  obtain ⟨hsign, hnumeral⟩ := signed_inj h
  have habs := (Numeral.plain.inj hnumeral).1
  rw [decide_eq_decide] at hsign
  omega

/-- A floating-point number has the code of another if they are no numbers, or if they are the same. -/
theorem ofFloat_inj {owner : String} {numeral : Nat → Int → Numeral}
    (hnumeral : ∀ {m e m' e'}, numeral m e = numeral m' e' → m = m' ∧ e = e')
    {negative negative' : Bool} {magnitude magnitude' : Magnitude}
    (h : ofFloat owner numeral negative magnitude = ofFloat owner numeral negative' magnitude') :
    magnitude = magnitude' ∧ (magnitude ≠ .nan → negative = negative') := by
  cases magnitude with
  | finite significand exponent =>
      cases magnitude' with
      | finite significand' exponent' =>
          obtain ⟨rfl, hsame⟩ := signed_inj h
          obtain ⟨rfl, rfl⟩ := hnumeral hsame
          exact ⟨rfl, fun _ => rfl⟩
      | infinite => cases negative <;> cases h
      | nan => cases negative <;> cases h
  | infinite =>
      cases magnitude' with
      | finite => cases negative' <;> cases h
      | infinite =>
          have hsame := (field.inj h).2
          cases negative <;> cases negative' <;> simp_all
      | nan =>
          have hsame := (field.inj h).2
          cases negative <;> simp_all
  | nan =>
      cases magnitude' with
      | finite => cases negative' <;> cases h
      | infinite =>
          have hsame := (field.inj h).2
          cases negative' <;> simp_all
      | nan => exact ⟨rfl, fun hnan => absurd rfl hnan⟩

end Code

namespace Value

variable {v w : Value}

/-- **Constants that are written alike.** They are the same, or neither is a number, or one is an
integer and the other the decimal that the integer is. -/
theorem alike_of_text_eq {ty : HostType} (htext : Text.constant v ty = Text.constant w ty) :
    v = w ∨ v.BothNaN w ∨ v.SameWhole w := by
  have hcode : Code.ofConstant v ty = Code.ofConstant w ty := by
    have hsame : (Expr.constant v ty).text = (Expr.constant w ty).text := by
      rw [Expr.text, Expr.text, htext]
    have hcode := Expr.code_eq_of_text_eq (by simp [Expr.names]) (by simp [Expr.names])
      (by simp [Expr.receivers]) (by simp [Expr.receivers]) hsame
    rwa [Expr.code, Expr.code] at hcode
  have hkind : v.codeType? = w.codeType? := by
    rw [← Code.dataType?_ofConstant v ty, hcode, Code.dataType?_ofConstant]
  cases v with
  | null =>
      cases w with
      | null => exact .inl rfl
      | _ => cases hkind
  | boolean b =>
      cases w with
      | boolean c => exact .inl (congrArg boolean (Code.boolean.inj hcode))
      | _ => cases hkind
  | int8 n =>
      cases w with
      | int8 m =>
          have hsame := Code.ofInteger_inj (Code.cast.inj hcode).1
          exact .inl (congrArg int8 (Int8.toInt_inj.mp hsame))
      | _ => cases hkind
  | int16 n =>
      cases w with
      | int16 m =>
          have hsame := Code.ofInteger_inj (Code.cast.inj hcode).1
          exact .inl (congrArg int16 (Int16.toInt_inj.mp hsame))
      | _ => cases hkind
  | int32 n =>
      cases w with
      | int32 m => exact .inl (congrArg int32 (Int32.toInt_inj.mp (Code.ofInteger_inj hcode)))
      | decimal d =>
          have hd : (int32 n).IsDecimal d := isDecimal_of_text_eq htext
          exact .inr (.inr (.integer hd))
      | _ => cases hkind
  | int64 n =>
      cases w with
      | int64 m =>
          obtain ⟨hsign, hnumeral⟩ := Code.signed_inj hcode
          have habs := Numeral.long.inj hnumeral
          rw [decide_eq_decide] at hsign
          exact .inl (congrArg int64 (Int64.toInt_inj.mp (by omega)))
      | _ => cases hkind
  | float x =>
      cases w with
      | float y =>
          obtain ⟨hmagnitude, hsign⟩ := Code.ofFloat_inj Numeral.single.inj hcode
          by_cases hnan : x.magnitude = .nan
          · exact .inr (.inl (.single hnan (hmagnitude.symm.trans hnan)))
          · exact .inl (congrArg float (Single.eq_of_magnitude_eq (hsign hnan) hmagnitude hnan))
      | _ => cases hkind
  | double x =>
      cases w with
      | double y =>
          obtain ⟨hmagnitude, hsign⟩ := Code.ofFloat_inj Numeral.double.inj hcode
          by_cases hnan : x.magnitude = .nan
          · exact .inr (.inl (.double hnan (hmagnitude.symm.trans hnan)))
          · exact .inl (congrArg double (Double.eq_of_magnitude_eq (hsign hnan) hmagnitude hnan))
      | _ => cases hkind
  | decimal d =>
      cases w with
      | int32 n =>
          have hd : (int32 n).IsDecimal d := isDecimal_of_text_eq htext.symm
          exact .inr (.inr (.decimal hd))
      | decimal d' => exact .inl (congrArg decimal (Decimal.text_inj.mp htext))
      | _ => cases hkind
  | string s =>
      cases w with
      | string t => exact .inl (congrArg string (Code.string.inj hcode))
      | _ => cases hkind

theorem text_eq_of_alike {ty : HostType} (h : v = w ∨ v.BothNaN w ∨ v.SameWhole w) :
    Text.constant v ty = Text.constant w ty := by
  rcases h with rfl | (⟨hx, hy⟩ | ⟨hx, hy⟩) | (hd | hd)
  · rfl
  · simp [Text.constant, Text.special, hx, hy]
  · simp [Text.constant, Text.special, hx, hy]
  · exact hd.text
  · exact hd.text.symm

theorem canonicalText_eq_null_iff (hfits : v.fits .decimal = true) :
    v.canonicalText = "null" ↔ v = .null := by
  constructor
  · intro htext
    by_contra hnull
    obtain ⟨d, hd⟩ := exists_isDecimal hfits hnull
    have hread := d.ofText?_text
    rw [← hd.text, htext] at hread
    have hnone : Decimal.ofText? "null" = none := by decide
    cases hread.symm.trans hnone
  · rintro rfl
    rfl

end Value

/-! ### Code of literals -/

section Literals

variable {v w : Value} {ty : LogicalType}

theorem text_lowerLiteral (hty : ty.dataType ≠ .decimal) :
    (lowerLiteral .standard v ty).text = Text.constant v (TypeAdapter.standard ty).box := by
  have hhost : (TypeAdapter.standard ty).isArbitraryPrecision = false := by
    obtain ⟨dataType, nullable⟩ := ty
    cases dataType with
    | decimal => exact absurd rfl hty
    | _ => cases nullable <;> rfl
  unfold lowerLiteral
  by_cases hnull : v = .null
  · subst hnull
    change (Expr.constant .null _).text = _
    rw [Expr.text]
  · simp only [mt Value.isNull_iff.mp hnull, hhost, Bool.false_eq_true, if_false]
    rw [Expr.text]
    cases v with
    | null => exact absurd rfl hnull
    | _ => rfl

theorem isClosed_lowerLiteral (v : Value) (ty : LogicalType) :
    (lowerLiteral .standard v ty).names = [] ∧ (lowerLiteral .standard v ty).receivers = [] := by
  unfold lowerLiteral
  simp only
  split
  · simp [Expr.nullOf, Expr.names, Expr.receivers]
  · split
    · simp [Expr.names, Expr.namesOfAll, Expr.receivers, Expr.receiversOfAll]
    · simp [Expr.names, Expr.receivers]

theorem code_lowerLiteral_eq
    (htext : (lowerLiteral .standard v ty).text = (lowerLiteral .standard w ty).text) :
    (lowerLiteral .standard v ty).code = (lowerLiteral .standard w ty).code := by
  obtain ⟨hnames, hreceivers⟩ := isClosed_lowerLiteral v ty
  obtain ⟨hnames', hreceivers'⟩ := isClosed_lowerLiteral w ty
  exact Expr.code_eq_of_text_eq (by simp [hnames]) (by simp [hnames']) (by simp [hreceivers])
    (by simp [hreceivers']) htext

/-- A literal that has the code of null is null. -/
theorem eq_null_of_text_lowerLiteral_eq (hty : ty.dataType = .decimal)
    (htext : (lowerLiteral .standard .null ty).text = (lowerLiteral .standard w ty).text) :
    w = .null := by
  by_contra hnull
  have hhost : TypeAdapter.standard ty = .decimal := by
    simp only [TypeAdapter.standard, hty]
  have hcode := code_lowerLiteral_eq htext
  rw [lowerLiteral_of_decimal hty hnull, lowerLiteral, hhost] at hcode
  simp [Value.isNull, Value.dataType?, Expr.nullOf, Expr.code, Code.ofConstant, HostType.box] at hcode

theorem canonicalText_eq_of_text_lowerLiteral_eq (hty : ty.dataType = .decimal)
    (htext : (lowerLiteral .standard v ty).text = (lowerLiteral .standard w ty).text) :
    v.canonicalText = w.canonicalText := by
  by_cases hv : v = .null
  · subst hv
    rw [eq_null_of_text_lowerLiteral_eq hty htext]
  · by_cases hw : w = .null
    · subst hw
      exact absurd (eq_null_of_text_lowerLiteral_eq hty htext.symm) hv
    · have hcode := code_lowerLiteral_eq htext
      rw [lowerLiteral_of_decimal hty hv, lowerLiteral_of_decimal hty hw] at hcode
      simpa [Expr.code, Expr.codes, Code.ofConstant] using hcode

theorem text_lowerLiteral_eq_of_canonicalText_eq (hty : ty.dataType = .decimal)
    (hv : v.fits .decimal = true) (hw : w.fits .decimal = true)
    (h : v.canonicalText = w.canonicalText) :
    (lowerLiteral .standard v ty).text = (lowerLiteral .standard w ty).text := by
  by_cases hnull : v = .null
  · have hnull' : w = .null := by
      rw [← Value.canonicalText_eq_null_iff hw, ← h, Value.canonicalText_eq_null_iff hv]
      exact hnull
    rw [hnull, hnull']
  · have hnull' : w ≠ .null := by
      rw [ne_eq, ← Value.canonicalText_eq_null_iff hw, ← h, Value.canonicalText_eq_null_iff hv]
      exact hnull
    rw [lowerLiteral_of_decimal hty hnull, lowerLiteral_of_decimal hty hnull', h]

/-- A column that admits decimals is DECIMAL or ANY. -/
theorem eq_any_of_sameWhole (hty : ty.dataType ≠ .decimal) (hv : v.fits ty.dataType = true)
    (hw : w.fits ty.dataType = true) (h : v.SameWhole w) : ty.dataType = .any := by
  have hadmits {d : Decimal} (hd : (Value.decimal d).fits ty.dataType = true) :
      ty.dataType = .any := by
    cases hkind : ty.dataType with
    | any => rfl
    | decimal => exact absurd hkind hty
    | _ =>
        rw [hkind] at hd
        cases hd
  cases h with
  | integer => exact hadmits hw
  | decimal => exact hadmits hv

/-- **Literals that are written alike.** Two literals of a type have the same code just in these cases:
they are the same; neither is a number; the type is DECIMAL and their texts are the same; or the type
is ANY, one is an integer of 32 bits, and the other is the decimal that the integer is. -/
theorem literals_written_alike_iff (hv : v.fits ty.dataType = true) (hw : w.fits ty.dataType = true) :
    (lowerLiteral .standard v ty).text = (lowerLiteral .standard w ty).text ↔
      v = w ∨ v.BothNaN w ∨ (ty.dataType = .decimal ∧ v.canonicalText = w.canonicalText) ∨
        (ty.dataType = .any ∧ v.SameWhole w) := by
  by_cases hty : ty.dataType = .decimal
  · constructor
    · exact fun htext => .inr (.inr (.inl ⟨hty, canonicalText_eq_of_text_lowerLiteral_eq hty htext⟩))
    · rw [hty] at hv hw
      rintro (rfl | hnan | ⟨-, hsame⟩ | ⟨hany, -⟩)
      · rfl
      · cases hnan <;> cases hv
      · exact text_lowerLiteral_eq_of_canonicalText_eq hty hv hw hsame
      · cases hty.symm.trans hany
  · rw [text_lowerLiteral hty, text_lowerLiteral hty]
    constructor
    · intro htext
      rcases Value.alike_of_text_eq htext with hsame | hnan | hwhole
      · exact .inl hsame
      · exact .inr (.inl hnan)
      · exact .inr (.inr (.inr ⟨eq_any_of_sameWhole hty hv hw hwhole, hwhole⟩))
    · rintro (hsame | hnan | ⟨hdecimal, -⟩ | ⟨-, hwhole⟩)
      · exact Value.text_eq_of_alike (.inl hsame)
      · exact Value.text_eq_of_alike (.inr (.inl hnan))
      · exact absurd hdecimal hty
      · exact Value.text_eq_of_alike (.inr (.inr hwhole))

/-- Two numbers that are none, with different bits. -/
theorem nans_are_written_alike :
    let nan : Value := .double ⟨0x7ff8000000000000⟩
    let negative : Value := .double ⟨0xfff8000000000001⟩
    nan ≠ negative ∧ (lowerLiteral .standard nan (.notNull .double)).text =
      (lowerLiteral .standard negative (.notNull .double)).text := by
  intro nan negative
  refine ⟨by decide, ?_⟩
  exact (literals_written_alike_iff (by decide) (by decide)).mpr
    (.inr (.inl (.double (by decide) (by decide))))

/-- **An ANY column does not tell one from the decimal one.** -/
theorem one_is_written_like_decimal :
    let one : Value := .int32 1
    let decimal : Value := .decimal (.finite false 1 0 (by decide))
    one.fits .any = true ∧ decimal.fits .any = true ∧ one.dataType? ≠ decimal.dataType? ∧
      (lowerLiteral .standard one (.notNull .any)).text =
        (lowerLiteral .standard decimal (.notNull .any)).text := by
  intro one decimal
  refine ⟨rfl, rfl, by decide, ?_⟩
  rw [text_lowerLiteral (by decide), text_lowerLiteral (by decide)]
  exact Value.text_eq_of_alike (.inr (.inr (.integer (.integer (i := 1) rfl (by decide)))))

end Literals

end RowCode
