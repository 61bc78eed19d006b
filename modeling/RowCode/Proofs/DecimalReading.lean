import RowCode.Number.DecimalText
import RowCode.Proofs.Numerals

/-!
# Decimals are read back

The text of a decimal keeps its coefficient digit by digit and tells its exponent, so that reading
makes the same decimal again: scale, sign of zero, infinities and payloads included.
-/

namespace RowCode.Decimal

/-! ### Digits up to what follows them -/

/-- Whether the text starts with neither a digit nor a point. -/
def EndsNumeral (rest : List Char) : Prop := ∀ c ∈ rest.head?, c.isDigit = false ∧ c ≠ '.'

theorem splitDigits_append {digits rest : List Char} (hdigits : ∀ c ∈ digits, c.isDigit = true)
    (hrest : ∀ c ∈ rest.head?, c.isDigit = false) :
    splitDigits (digits ++ rest) = (digits, rest) := by
  unfold splitDigits
  rw [List.takeWhile_append_of_pos hdigits, List.dropWhile_append_of_pos hdigits]
  cases rest with
  | nil => simp
  | cons c rest => simp [hrest c rfl]

theorem splitDigits_of_digits {digits : List Char} (hdigits : ∀ c ∈ digits, c.isDigit = true) :
    splitDigits digits = (digits, []) := by
  have hsplit : splitDigits (digits ++ []) = (digits, []) := splitDigits_append hdigits (by simp)
  rwa [List.append_nil] at hsplit

theorem splitNumeral_numeralText {whole fraction rest : List Char}
    (hwhole : ∀ c ∈ whole, c.isDigit = true) (hfraction : ∀ c ∈ fraction, c.isDigit = true)
    (hrest : EndsNumeral rest) :
    splitNumeral (numeralText whole fraction ++ rest) = (whole, fraction, rest) := by
  have hends : ∀ c ∈ rest.head?, c.isDigit = false := fun c hc => (hrest c hc).1
  unfold splitNumeral numeralText
  cases fraction with
  | nil =>
      rw [if_pos rfl, List.append_nil, splitDigits_append hwhole hends]
      cases rest with
      | nil => rfl
      | cons c rest =>
          obtain ⟨-, hpoint⟩ := hrest c rfl
          simp only
          split
          · rename_i heq
            exact absurd (List.cons.inj heq).1 hpoint
          · rfl
  | cons d fraction =>
      rw [if_neg (List.cons_ne_nil d fraction), List.append_assoc, List.cons_append,
        splitDigits_append hwhole (by simp)]
      simp only [splitDigits_append hfraction hends]

/-! ### Exponents -/

theorem exponentValue_decimalDigits {n : Nat} (hn : n < 10 ^ exponentDigits) :
    exponentValue (decimalDigits n) = n := by
  have hlength : (decimalDigits n).length ≤ exponentDigits :=
    (length_decimalDigits_le_iff (by decide)).mpr hn
  have hdropped := (List.dropWhile_sublist (l := decimalDigits n) (· = '0')).length_le
  rw [exponentValue, if_neg (by omega), digitsValue_decimalDigits]

theorem readExponent_signedExponent {e : Int} (he : e.natAbs < 10 ^ exponentDigits) :
    readExponent ('E' :: signedExponent e) = some e := by
  have hsplit : splitDigits (decimalDigits e.natAbs) = (decimalDigits e.natAbs, []) :=
    splitDigits_of_digits fun _ => isDigit_of_mem_decimalDigits
  unfold readExponent signedExponent
  by_cases hneg : e < 0
  · have hback : -(e.natAbs : Int) = e := by omega
    rw [if_pos hneg]
    simp only [splitSign, hsplit, exponentValue_decimalDigits he, hback]
    simp [decimalDigits_ne_nil]
  · rw [if_neg hneg]
    simp only [splitSign, hsplit, exponentValue_decimalDigits he]
    simp [decimalDigits_ne_nil]
    omega

/-! ### Finite decimals -/

section Finite

variable {coefficient : Nat} {exponent : Int}

theorem Representable.length_le (h : Representable coefficient exponent) :
    (decimalDigits coefficient).length ≤ precision :=
  (length_decimalDigits_le_iff (by decide)).mpr h.1

/-- What can be held as it stands is neither rounded nor clamped. -/
theorem ofScaled_of_representable (negative : Bool) (h : Representable coefficient exponent) :
    ofScaled negative coefficient exponent = .finite negative coefficient exponent h := by
  have hlength := h.length_le
  obtain ⟨hlt, hleast, hgreatest⟩ := h
  have hquantum : quantum coefficient exponent = exponent := by
    unfold quantum
    omega
  have hdrop : dropDigits coefficient 0 = coefficient := by
    simpa [dropDigits] using roundQuotient_mul coefficient 1 (by decide)
  have hmin : min exponent maxExponent = exponent := by omega
  have hexcess : (exponent - maxExponent).toNat = 0 := by omega
  unfold ofScaled
  simp only [hquantum, Int.sub_self, Int.toNat_zero, hdrop, if_neg (Nat.ne_of_lt hlt)]
  unfold clamp
  simp only [hexcess, or_true, if_true, hmin]
  rw [dif_pos ⟨hlt, hleast, hgreatest⟩]

/-- Whether the text is that of digits whose point and written exponent make
`coefficient · 10 ^ exponent`. -/
def Spells (cs : List Char) (coefficient : Nat) (exponent : Int) : Prop :=
  ∃ whole fraction rest written, cs = numeralText whole fraction ++ rest ∧ whole ≠ [] ∧
    (∀ c ∈ whole, c.isDigit = true) ∧ (∀ c ∈ fraction, c.isDigit = true) ∧ EndsNumeral rest ∧
    readExponent rest = some written ∧ digitsValue (whole ++ fraction) = coefficient ∧
    written - fraction.length = exponent

theorem Spells.readFinite {cs : List Char} {negative : Bool} (hcs : Spells cs coefficient exponent)
    (h : Representable coefficient exponent) :
    readFinite negative cs = some (.finite negative coefficient exponent h) := by
  obtain ⟨whole, fraction, rest, written, rfl, hne, hwhole, hfraction, hrest, hread, rfl, rfl⟩ := hcs
  unfold Decimal.readFinite
  simp only [splitNumeral_numeralText hwhole hfraction hrest, hne, false_and, if_false, hread,
    Option.map_some, ofScaled_of_representable negative h]

theorem Spells.head {cs : List Char} (hcs : Spells cs coefficient exponent) :
    ∃ c rest, cs = c :: rest ∧ c.isDigit = true := by
  obtain ⟨whole, fraction, rest, written, rfl, hne, hwhole, -⟩ := hcs
  obtain ⟨c, tail, rfl⟩ := List.exists_cons_of_ne_nil hne
  exact ⟨c, _, rfl, hwhole c List.mem_cons_self⟩

/-- The exponent part of a numeral, which may be absent. -/
def exponentText : Option Int → List Char
  | none => []
  | some e => 'E' :: signedExponent e

theorem endsNumeral_exponentText (written : Option Int) : EndsNumeral (exponentText written) := by
  cases written with
  | none => simp [EndsNumeral, exponentText]
  | some e => simp [EndsNumeral, exponentText]

/-- The parts of the text: digits on either side of the point, and the exponent of the first digit if
that is written. -/
theorem finiteText_eq (coefficient : Nat) (exponent : Int) :
    ∃ whole fraction written, finiteText coefficient exponent =
        numeralText whole fraction ++ exponentText written ∧ whole ≠ [] ∧
      (∀ c ∈ whole, c.isDigit = true) ∧ (∀ c ∈ fraction, c.isDigit = true) ∧
      digitsValue (whole ++ fraction) = coefficient ∧
      written.getD 0 - fraction.length = exponent ∧
      ∀ e ∈ written, e = (decimalDigits coefficient).length + exponent - 1 := by
  have hdigits : ∀ c ∈ decimalDigits coefficient, c.isDigit = true :=
    fun _ => isDigit_of_mem_decimalDigits
  have hne := decimalDigits_ne_nil coefficient
  have hpositive : 0 < (decimalDigits coefficient).length := List.length_pos_iff.mpr hne
  unfold finiteText
  simp only
  split
  · -- The exponent is not above zero, so the point needs no zeros after the digits.
    have hnone : ((decimalDigits coefficient).length + exponent).toNat -
        (decimalDigits coefficient).length = 0 := by omega
    obtain ⟨hwhole, hfraction⟩ :=
      isDigit_of_mem_pointParts hdigits ((decimalDigits coefficient).length + exponent)
    refine ⟨_, _, none, ?_, pointParts_fst_ne_nil hne, hwhole, hfraction, ?_, ?_, by simp⟩
    · rw [placePoint_eq hne, exponentText, List.append_nil]
    · rw [digitsValue_pointParts, hnone, Nat.pow_zero, Nat.mul_one, digitsValue_decimalDigits]
    · rw [length_pointParts, Option.getD_none]
      omega
  · refine ⟨_, _, some _, by rw [leadingPoint_eq, exponentText], ?_,
      fun c hc => hdigits c (List.mem_of_mem_take hc),
      fun c hc => hdigits c (List.mem_of_mem_drop hc), ?_, ?_, fun e he => (Option.some.inj he).symm⟩
    · rw [ne_eq, List.take_eq_nil_iff]
      simp [hne]
    · rw [List.take_append_drop, digitsValue_decimalDigits]
    · rw [List.length_drop, Option.getD_some]
      omega

theorem spells_finiteText (h : Representable coefficient exponent) :
    Spells (finiteText coefficient exponent) coefficient exponent := by
  obtain ⟨whole, fraction, written, htext, hne, hwhole, hfraction, hvalue, hscale, hwritten⟩ :=
    finiteText_eq coefficient exponent
  cases written with
  | none =>
      exact ⟨whole, fraction, _, 0, htext, hne, hwhole, hfraction, endsNumeral_exponentText _, rfl,
        hvalue, hscale⟩
  | some e =>
      have hfar : e.natAbs < 10 ^ exponentDigits := by
        have hlength := h.length_le
        have he := hwritten e rfl
        obtain ⟨-, hleast, hgreatest⟩ := h
        simp only [minExponent, maxExponent, precision, exponentDigits] at *
        omega
      exact ⟨whole, fraction, _, e, htext, hne, hwhole, hfraction, endsNumeral_exponentText _,
        readExponent_signedExponent hfar, hvalue, hscale⟩

end Finite

/-! ### Signs and names -/

theorem splitSign_signText {cs : List Char} (negative : Bool)
    (hcs : ∀ c ∈ cs.head?, c ≠ '-' ∧ c ≠ '+') : splitSign (signText negative ++ cs) = (negative, cs) := by
  cases negative with
  | true => rfl
  | false =>
      rw [signText, if_neg Bool.false_ne_true, List.nil_append]
      unfold splitSign
      split
      · exact absurd rfl (hcs '-' rfl).1
      · exact absurd rfl (hcs '+' rfl).2
      · rfl

theorem readFinite_of_letter {c : Char} (negative : Bool) (cs : List Char)
    (hc : c.isDigit = false ∧ c ≠ '.') : readFinite negative (c :: cs) = none := by
  have hsplit : splitNumeral (numeralText [] [] ++ c :: cs) = ([], [], c :: cs) :=
    splitNumeral_numeralText (by simp) (by simp) (by simpa [EndsNumeral] using hc)
  rw [numeralText, if_pos rfl, List.append_nil, List.nil_append] at hsplit
  unfold readFinite
  simp [hsplit]

/-- The digits of a payload, of which there are none for zero. -/
def payloadDigits (payload : Nat) : List Char := if payload = 0 then [] else decimalDigits payload

theorem isDigit_of_mem_payloadDigits {payload : Nat} {c : Char} (hc : c ∈ payloadDigits payload) :
    c.isDigit = true := by
  unfold payloadDigits at hc
  split at hc
  · cases hc
  · exact isDigit_of_mem_decimalDigits hc

theorem digitsValue_payloadDigits (payload : Nat) : digitsValue (payloadDigits payload) = payload := by
  unfold payloadDigits
  split
  · rename_i hzero
    rw [hzero]
    rfl
  · exact digitsValue_decimalDigits payload

theorem toLower_of_isDigit {c : Char} (hc : c.isDigit = true) : c.toLower = c := by
  simp only [Char.isDigit, Bool.and_eq_true, decide_eq_true_eq] at hc
  apply dif_neg
  rintro ⟨hletter, -⟩
  exact absurd (UInt32.le_trans hletter hc.2) (by decide)

theorem map_toLower_payloadDigits (payload : Nat) :
    (payloadDigits payload).map Char.toLower = payloadDigits payload :=
  (List.map_congr_left fun _ hc => toLower_of_isDigit (isDigit_of_mem_payloadDigits hc)).trans
    (List.map_id _)

theorem readPayload_payloadDigits (negative signaling : Bool) {payload : Nat}
    (hpayload : payload < 10 ^ (precision - 1)) :
    readPayload negative signaling (payloadDigits payload) =
      some (.nan negative signaling payload hpayload) := by
  have hall : (payloadDigits payload).all Char.isDigit = true :=
    List.all_eq_true.mpr fun _ => isDigit_of_mem_payloadDigits
  unfold readPayload
  simp only [hall, if_true, digitsValue_payloadDigits, dif_pos hpayload]

theorem ofChars?_chars (d : Decimal) : ofChars? d.chars = some d := by
  cases d with
  | finite negative coefficient exponent h =>
      have hspells := spells_finiteText h
      obtain ⟨c, rest, hcs, hc⟩ := hspells.head
      have hsign : splitSign (signText negative ++ finiteText coefficient exponent) =
          (negative, finiteText coefficient exponent) := by
        refine splitSign_signText negative fun d hd => ?_
        rw [hcs, List.head?_cons, Option.mem_some_iff] at hd
        subst hd
        constructor <;> rintro rfl <;> exact absurd hc (by decide)
      unfold ofChars? chars
      simp only [hsign, hspells.readFinite h]
      rfl
  | infinite negative => cases negative <;> rfl
  | nan negative signaling payload hpayload =>
      have hread := readPayload_payloadDigits negative signaling hpayload
      have hlower := map_toLower_payloadDigits payload
      have hname : readFinite negative ('N' :: 'a' :: 'N' :: payloadDigits payload) = none :=
        readFinite_of_letter negative _ (by decide)
      have hsname : readFinite negative ('s' :: 'N' :: 'a' :: 'N' :: payloadDigits payload) = none :=
        readFinite_of_letter negative _ (by decide)
      change ofChars? (_ ++ payloadDigits payload) = _
      unfold ofChars?
      cases negative <;> cases signaling <;>
        simp_all [signText, splitSign, readSpecial]

theorem ofText?_text (d : Decimal) : ofText? d.text = some d := by
  rw [ofText?, text, String.toList_ofList, ofChars?_chars]

/-! ### Length -/

theorem length_finiteText_le {coefficient : Nat} {exponent : Int}
    (h : Representable coefficient exponent) : (finiteText coefficient exponent).length ≤ 80 := by
  have hlength := h.length_le
  have hpoint := length_placePoint_le (decimalDigits coefficient)
    ((decimalDigits coefficient).length + exponent)
  have hleading := length_leadingPoint_le (decimalDigits coefficient)
  have hexponent : (decimalDigits ((decimalDigits coefficient).length + exponent - 1).natAbs).length
      ≤ exponentDigits := by
    rw [length_decimalDigits_le_iff (by decide)]
    obtain ⟨-, hleast, hgreatest⟩ := h
    simp only [minExponent, maxExponent, precision, exponentDigits] at *
    omega
  simp only [precision, exponentDigits] at hlength hexponent
  unfold finiteText
  simp only
  split
  · omega
  · simp only [List.length_append, List.length_cons, signedExponent]
    omega

theorem length_chars_le (d : Decimal) : d.chars.length ≤ 81 := by
  have hsign (negative : Bool) : (signText negative).length ≤ 1 := by cases negative <;> decide
  cases d with
  | finite negative coefficient exponent h =>
      have hfinite := length_finiteText_le h
      have hone := hsign negative
      simp only [chars, List.length_append]
      omega
  | infinite negative => cases negative <;> decide
  | nan negative signaling payload hpayload =>
      have hdigits := (length_decimalDigits_le_iff (by decide)).mpr hpayload
      have hone := hsign negative
      simp only [precision] at hdigits
      simp only [chars, List.length_append]
      split <;> split <;> simp <;> omega

end RowCode.Decimal
