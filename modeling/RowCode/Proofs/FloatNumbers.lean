import RowCode.Number.BinaryText
import RowCode.Proofs.JsonNumbers
import RowCode.Proofs.NumberScaling
import RowCode.Proofs.ShortestDigits

/-!
# Floating-point numbers in files

What a file holds for a finite number is a number of the grammar, and it is made again, if only to
within the rounding of the steps that make it. A number that is not finite has no text.
-/

namespace RowCode

theorem digitsValue_lt {digits : List Char} (hdigits : ∀ c ∈ digits, c.isDigit = true) :
    digitsValue digits < 10 ^ digits.length := by
  induction digits with
  | nil => decide
  | cons d rest ih =>
      obtain ⟨hd, hrest⟩ := List.forall_mem_cons.mp hdigits
      have happend := digitsValue_append [d] rest
      have hone : digitsValue [d] ≤ 9 := by
        obtain ⟨-, hhigh⟩ := Char.isDigit_iff_toNat.mp hd
        change 10 * 0 + (d.toNat - '0'.toNat) ≤ 9
        change d.toNat ≤ 57 at hhigh
        change 10 * 0 + (d.toNat - 48) ≤ 9
        omega
      have hlt := ih hrest
      have hmul := Nat.mul_le_mul_left (10 ^ rest.length) hone
      rw [List.singleton_append] at happend
      rw [happend, List.length_cons, Nat.pow_succ]
      omega

theorem length_pointParts_fst (digits : List Char) (point : Int) :
    (pointParts digits point).1.length ≤ max 1 point.toNat := by
  unfold pointParts
  split
  · exact Nat.le_max_left _ _
  · split
    · rw [List.length_append, List.length_replicate]
      omega
    · rw [List.length_take]
      omega

namespace JsonNumber

/-- Digits with a point among them, or with an exponent. -/
def ofDigits (plain : PlainRange) (negative : Bool) (digits : List Char) (point : Int) :
    JsonNumber :=
  if plain.admits point then
    ⟨negative, (pointParts digits point).1,
      some (if (pointParts digits point).2 = [] then ['0'] else (pointParts digits point).2), none⟩
  else
    ⟨negative, digits.take 1, if digits.drop 1 = [] then none else some (digits.drop 1),
      some (point - 1 < 0, decimalDigits (point - 1).natAbs)⟩

/-- What digits look like that are printed: those of zero, or without a leading zero. -/
structure Printed (digits : List Char) (point : Int) : Prop where
  isDigit : ∀ c ∈ digits, c.isDigit = true
  leading : digits = ['0'] ∧ point = 1 ∨ ∃ d rest, digits = d :: rest ∧ d ≠ '0'

section OfDigits

variable {plain : PlainRange} {digits : List Char} {point : Int}

theorem Printed.ne_nil (h : Printed digits point) : digits ≠ [] := by
  rcases h.leading with ⟨rfl, -⟩ | ⟨d, rest, rfl, -⟩ <;> exact List.cons_ne_nil _ _

theorem dot_not_mem {cs : List Char} (hcs : ∀ c ∈ cs, c.isDigit = true) : '.' ∉ cs :=
  fun hmem => absurd (hcs _ hmem) (by decide)

theorem chars_ofDigits (h : Printed digits point) (negative : Bool) :
    (ofDigits plain negative digits point).chars =
      (if negative then ['-'] else []) ++
        if plain.admits point then
          if '.' ∈ placePoint digits point then placePoint digits point
          else placePoint digits point ++ ['.', '0']
        else leadingPoint digits ++ 'e' :: signedExponent (point - 1) := by
  have hwhole := dot_not_mem (isDigit_of_mem_pointParts h.isDigit point).1
  unfold ofDigits
  rw [placePoint_eq h.ne_nil, leadingPoint_eq]
  by_cases hplain : plain.admits point = true
  · rw [if_pos hplain, if_pos hplain]
    by_cases hfraction : (pointParts digits point).2 = []
    · simp [chars, fractionChars, exponentChars, numeralText, hfraction, hwhole]
    · simp [chars, fractionChars, exponentChars, numeralText, hfraction]
  · rw [if_neg hplain, if_neg hplain]
    generalize digits.drop 1 = fraction
    by_cases hfraction : fraction = []
    · simp [chars, fractionChars, exponentChars, numeralText, signedExponent, hfraction]
    · simp [chars, fractionChars, exponentChars, numeralText, signedExponent, hfraction]

theorem leading_pointParts (h : Printed digits point) :
    (pointParts digits point).1 = ['0'] ∨
      ∃ d rest, (pointParts digits point).1 = d :: rest ∧ d ≠ '0' := by
  unfold pointParts
  split
  · exact .inl rfl
  rcases h.leading with ⟨rfl, rfl⟩ | ⟨d, rest, rfl, hd⟩
  · exact .inl rfl
  · right
    split
    · exact ⟨d, _, rfl, hd⟩
    · obtain ⟨n, hn⟩ : ∃ n, point.toNat = n + 1 := ⟨point.toNat - 1, by omega⟩
      rw [hn, List.take_succ_cons]
      exact ⟨d, _, rfl, hd⟩

theorem wellFormed_ofDigits (h : Printed digits point) (negative : Bool) :
    (ofDigits plain negative digits point).WellFormed := by
  obtain ⟨hwhole, hfraction⟩ := isDigit_of_mem_pointParts h.isDigit point
  have hleading := leading_pointParts h
  unfold ofDigits
  generalize pointParts digits point = parts at *
  by_cases hplain : plain.admits point = true
  · rw [if_pos hplain]
    refine ⟨hwhole, hleading, ?_, by rintro _ ⟨⟩⟩
    rintro _ ⟨⟩
    split
    · exact ⟨List.cons_ne_nil _ _, List.forall_mem_singleton.mpr rfl⟩
    · exact ⟨‹_›, hfraction⟩
  · rw [if_neg hplain]
    refine ⟨fun c hc => h.isDigit c (List.mem_of_mem_take hc), ?_, ?_, ?_⟩
    · rcases h.leading with ⟨rfl, -⟩ | ⟨d, rest, rfl, hd⟩
      · exact .inl rfl
      · exact .inr ⟨d, [], rfl, hd⟩
    · simp only
      split
      · rintro _ ⟨⟩
      · rintro _ ⟨⟩
        exact ⟨‹_›, fun c hc => h.isDigit c (List.mem_of_mem_drop hc)⟩
    · rintro _ ⟨⟩
      exact ⟨decimalDigits_ne_nil _, fun c => isDigit_of_mem_decimalDigits⟩

theorem writtenExponent_ofDigits (negative : Bool) :
    (ofDigits plain negative digits point).writtenExponent =
      if plain.admits point then 0 else point - 1 := by
  unfold ofDigits
  split
  · rfl
  · simp only [writtenExponent, digitsValue_decimalDigits, decide_eq_true_eq]
    split <;> omega

theorem length_whole_ofDigits (hplain : plain.greatest ≤ 19) (negative : Bool) :
    (ofDigits plain negative digits point).whole.length ≤ 19 := by
  unfold ofDigits
  split
  · rename_i hadmits
    simp only [PlainRange.admits, Bool.and_eq_true, decide_eq_true_eq] at hadmits
    have hlength := length_pointParts_fst digits point
    simp only
    omega
  · simp only [List.length_take]
    omega

/-- Without an exponent, a zero is written after the point if nothing else is. -/
theorem rational_ofDigits_plain (hdigits : digits ≠ []) (hplain : plain.admits point = true)
    (negative : Bool) : (ofDigits plain negative digits point).rational =
      digitsValue digits * 10 ^ (point - digits.length) := by
  have hten : (10 : ℚ) ≠ 0 := by norm_num
  have hpos := List.length_pos_iff.mpr hdigits
  have hvalue : digitsValue ((pointParts digits point).1 ++ (pointParts digits point).2) = _ :=
    digitsValue_pointParts
  have hlength : (pointParts digits point).2.length = _ := length_pointParts
  unfold ofDigits
  rw [if_pos hplain]
  generalize pointParts digits point = parts at *
  simp only [rational, fractionDigits, writtenExponent, Option.getD_some]
  by_cases hfraction : parts.2 = []
  · rw [if_pos hfraction]
    rw [hfraction, List.append_nil] at hvalue
    rw [hfraction, List.length_nil] at hlength
    have hexponent : point - digits.length = (point.toNat - digits.length : Nat) := by omega
    have hzero : digitsValue (parts.1 ++ ['0']) = 10 * digitsValue parts.1 := by
      rw [digitsValue_append]
      rfl
    rw [hzero, hvalue, hexponent, zpow_natCast]
    push_cast
    rw [List.length_singleton]
    norm_num
    ring
  · rw [if_neg hfraction]
    have hrest := List.length_pos_iff.mpr hfraction
    have hexponent : (0 : Int) - parts.2.length = point - digits.length := by omega
    have hnone : point.toNat - digits.length = 0 := by omega
    rw [hvalue, hexponent, hnone, Nat.pow_zero, Nat.mul_one]

theorem rational_ofDigits_exponent (hdigits : digits ≠ []) (hplain : ¬plain.admits point = true)
    (negative : Bool) : (ofDigits plain negative digits point).rational =
      digitsValue digits * 10 ^ (point - digits.length) := by
  have hpos := List.length_pos_iff.mpr hdigits
  have hfraction : (if digits.drop 1 = [] then none else some (digits.drop 1)).getD [] =
      digits.drop 1 := by
    split
    · exact (‹digits.drop 1 = []›).symm
    · rfl
  have hlength : point - 1 - ((digits.drop 1).length : Int) = point - digits.length := by
    rw [List.length_drop]
    omega
  have hwritten : (ofDigits plain negative digits point).writtenExponent =
      if plain.admits point then 0 else point - 1 := writtenExponent_ofDigits negative
  unfold ofDigits at hwritten ⊢
  rw [if_neg hplain] at hwritten ⊢
  rw [if_neg hplain] at hwritten
  rw [rational, hwritten]
  simp only [fractionDigits]
  rw [hfraction, hlength, List.take_append_drop]

theorem rational_ofDigits (hdigits : digits ≠ []) (negative : Bool) :
    (ofDigits plain negative digits point).rational =
      digitsValue digits * 10 ^ (point - digits.length) := by
  by_cases hplain : plain.admits point = true
  · exact rational_ofDigits_plain hdigits hplain negative
  · exact rational_ofDigits_exponent hdigits hplain negative

theorem integer?_ofDigits (negative : Bool) :
    (ofDigits plain negative digits point).integer? = none := by
  unfold ofDigits
  split
  · rfl
  · simp [integer?]

end OfDigits

end JsonNumber

namespace BinaryFormat

open JsonNumber

/-- The number that a file holds for a finite number. -/
def fileNumber (f : BinaryFormat) (plain : PlainRange) (negative : Bool) (significand : Nat)
    (exponent : Int) : JsonNumber :=
  .ofDigits plain negative (f.digitsAndPoint .toEven significand exponent).1
    (f.digitsAndPoint .toEven significand exponent).2

def fileNumber? (f : BinaryFormat) (plain : PlainRange) (negative : Bool) :
    Magnitude → Option JsonNumber
  | .finite significand exponent => some (f.fileNumber plain negative significand exponent)
  | _ => none

section FileNumber

variable {f : BinaryFormat} {plain : PlainRange} {significand : Nat} {exponent : Int}

/-- Numbers whose shortest digits are found. -/
structure IsModerate (significand : Nat) (exponent : Int) : Prop where
  significand_lt : significand < 2 ^ 53
  le_exponent : -1100 ≤ exponent
  exponent_le : exponent ≤ 1000

theorem printed_digitsAndPoint (h : IsModerate significand exponent) (tie : TieRule) :
    Printed (f.digitsAndPoint tie significand exponent).1
      (f.digitsAndPoint tie significand exponent).2 := by
  unfold digitsAndPoint
  split
  · exact ⟨List.forall_mem_singleton.mpr rfl, .inl ⟨rfl, rfl⟩⟩
  · rename_i hpositive
    obtain ⟨hpos, -, -⟩ := shortest_spec f tie (Nat.pos_of_ne_zero hpositive) h.significand_lt
      h.le_exponent h.exponent_le
    exact ⟨fun c => isDigit_of_mem_decimalDigits, .inr (head_decimalDigits hpos)⟩

theorem chars_fileNumber (h : IsModerate significand exponent) (negative : Bool) :
    (f.fileNumber plain negative significand exponent).chars =
      (if negative then ['-'] else []) ++ f.fileText plain significand exponent := by
  unfold fileNumber fileText
  rw [chars_ofDigits (printed_digitsAndPoint h .toEven)]

theorem wellFormed_fileNumber (h : IsModerate significand exponent) (negative : Bool) :
    (f.fileNumber plain negative significand exponent).WellFormed :=
  wellFormed_ofDigits (printed_digitsAndPoint h .toEven) negative

theorem rational_fileNumber_le (h : IsModerate significand exponent) (negative : Bool) :
    (f.fileNumber plain negative significand exponent).rational ≤
      (significand + 1 / 2) * 2 ^ exponent := by
  unfold fileNumber
  rw [rational_ofDigits (printed_digitsAndPoint h .toEven).ne_nil]
  unfold digitsAndPoint
  split
  · have hzero : digitsValue ['0'] = 0 := rfl
    rw [hzero, Nat.cast_zero, zero_mul]
    positivity
  · rename_i hpositive
    obtain ⟨-, hle, -⟩ := shortest_spec f .toEven (Nat.pos_of_ne_zero hpositive) h.significand_lt
      h.le_exponent h.exponent_le
    simp only [digitsValue_decimalDigits]
    rwa [add_sub_cancel_left]

theorem natAbs_point_le (h : IsModerate significand exponent) (tie : TieRule) :
    (f.digitsAndPoint tie significand exponent).2.natAbs ≤ 1900 := by
  unfold digitsAndPoint
  split
  · decide
  · rename_i hpositive
    obtain ⟨-, hle, hk⟩ := shortest_spec f tie (Nat.pos_of_ne_zero hpositive) h.significand_lt
      h.le_exponent h.exponent_le
    generalize f.shortest tie significand exponent = result at *
    obtain ⟨n, k⟩ := result
    have hlength : (decimalDigits n).length ≤ 1454 := by
      -- The powers are too large to be evaluated, so their exponents are kept apart.
      obtain ⟨a, ha⟩ : ∃ a : Nat, a = 1000 := ⟨1000, rfl⟩
      obtain ⟨b, hb⟩ : ∃ b : Nat, b = 400 := ⟨400, rfl⟩
      have hsum : 53 + a + b + 1 = 1454 := by omega
      rw [← hsum, length_decimalDigits_le_iff (Nat.succ_pos _)]
      have hsignificand : (significand + 1 / 2 : ℚ) ≤ 2 ^ 53 := by
        have hlt : (significand + 1 : ℚ) ≤ 2 ^ 53 := by exact_mod_cast h.significand_lt
        linarith
      have hexponent : (2 : ℚ) ^ exponent ≤ 2 ^ (a : Int) :=
        zpow_le_zpow_right₀ one_le_two (h.exponent_le.trans (by omega))
      have hscale : (10 : ℚ) ^ (-k) ≤ 10 ^ (b : Int) :=
        zpow_le_zpow_right₀ (by norm_num) (by simp only at hk; omega)
      have hbound : (n : ℚ) < 10 ^ (53 + a + b + 1) := by
        calc (n : ℚ) = n * 10 ^ k * 10 ^ (-k) := by
              rw [mul_assoc, ← zpow_add₀ (by norm_num : (10 : ℚ) ≠ 0), add_neg_cancel, zpow_zero,
                mul_one]
          _ ≤ (significand + 1 / 2) * 2 ^ exponent * 10 ^ (-k) := by gcongr
          _ ≤ 2 ^ 53 * 2 ^ (a : Int) * 10 ^ (b : Int) := by gcongr
          _ = 2 ^ 53 * 2 ^ a * 10 ^ b := by rw [zpow_natCast, zpow_natCast]
          _ ≤ 10 ^ 53 * 10 ^ a * 10 ^ b := by gcongr <;> norm_num
          _ = 10 ^ (53 + a + b) := by rw [pow_add, pow_add]
          _ < 10 ^ (53 + a + b + 1) := pow_lt_pow_right₀ (by norm_num) (Nat.lt_succ_self _)
      exact_mod_cast hbound
    simp only at hk ⊢
    omega

theorem writtenExponent_fileNumber (h : IsModerate significand exponent) (negative : Bool) :
    (f.fileNumber plain negative significand exponent).writtenExponent.natAbs ≤ exponentLimit := by
  have hlimit : 2000 ≤ exponentLimit := by decide
  unfold fileNumber
  rw [writtenExponent_ofDigits]
  split
  · exact Nat.zero_le _
  · have hpoint := natAbs_point_le (f := f) h .toEven
    omega

theorem whole_fileNumber (hplain : plain.greatest ≤ 19) (h : IsModerate significand exponent)
    (negative : Bool) :
    digitsValue (f.fileNumber plain negative significand exponent).whole ≤ unsignedMax 64 := by
  have hformed : (f.fileNumber plain negative significand exponent).WellFormed :=
    wellFormed_fileNumber h negative
  have hvalue := digitsValue_lt hformed.whole
  have hlength : (f.fileNumber plain negative significand exponent).whole.length ≤ 19 :=
    length_whole_ofDigits hplain negative
  have hpower := Nat.pow_le_pow_right (by decide : 0 < 10) hlength
  exact Nat.le_of_lt (Nat.lt_of_lt_of_le hvalue (hpower.trans (by decide)))

end FileNumber

end BinaryFormat

namespace JsonNumber

open BinaryFormat

section

variable {f : BinaryFormat} {plain : PlainRange} {significand : Nat} {exponent : Int}

theorem toDouble?_fileNumber (hplain : plain.greatest ≤ 19) (h : IsModerate significand exponent)
    (hbound : ((significand + 1 / 2) * 2 ^ exponent * (rounding * rounding) : ℚ) <
      Double.format.overflowBound) (negative : Bool) :
    (f.fileNumber plain negative significand exponent).toDouble?.isSome = true := by
  refine toDouble?_isSome (whole_fileNumber hplain h negative) (writtenExponent_fileNumber h negative)
    (lt_of_le_of_lt ?_ hbound)
  have hrounding : 0 ≤ rounding := zero_le_one.trans one_le_rounding
  gcongr
  exact rational_fileNumber_le h negative

/-- Two roundings at the scale of a greater exponent. -/
theorem mul_rounding_lt {size most bound : ℚ} {n : Nat} (hsize : size ≤ most) (hmost : 0 ≤ most)
    (hexponent : exponent ≤ n) (hfactor : most * (rounding * rounding) < bound) :
    size * 2 ^ exponent * (rounding * rounding) < bound * 2 ^ n := by
  have hrounding : 0 ≤ rounding := zero_le_one.trans one_le_rounding
  have hpower : (2 : ℚ) ^ exponent ≤ 2 ^ (n : Int) := zpow_le_zpow_right₀ one_le_two hexponent
  calc size * 2 ^ exponent * (rounding * rounding)
      ≤ most * 2 ^ (n : Int) * (rounding * rounding) := by gcongr
    _ = most * (rounding * rounding) * 2 ^ n := by
        rw [zpow_natCast]
        ring
    _ < bound * 2 ^ n := by gcongr

/-- Below the two greatest numbers both roundings may go up. -/
theorem lt_overflowBound_of_lt (hsignificand : significand < 2 ^ 53) (hexponent : exponent ≤ 971)
    (hbelow : exponent ≤ 970 ∨ significand + 2 < 2 ^ 53) :
    ((significand + 1 / 2) * 2 ^ exponent * (rounding * rounding) : ℚ) <
      Double.format.overflowBound := by
  obtain ⟨a, ha⟩ : ∃ a : Nat, a = 970 := ⟨970, rfl⟩
  have hbound : Double.format.overflowBound = (2 ^ 53 - 1 / 2) * 2 ^ (a + 1) := by
    rw [overflowBound_double, ha]
  rw [hbound]
  rcases hbelow with hexponent | hsignificand
  · have hplaces : (significand + 1 / 2 : ℚ) ≤ 2 ^ 53 := by
      have hlt : (significand + 1 : ℚ) ≤ 2 ^ 53 := by exact_mod_cast hsignificand
      linarith
    have hfactor : (2 ^ 53 * (rounding * rounding) : ℚ) < (2 ^ 53 - 1 / 2) * 2 := by
      unfold rounding
      norm_num
    calc ((significand + 1 / 2) * 2 ^ exponent * (rounding * rounding) : ℚ)
        < (2 ^ 53 - 1 / 2) * 2 * 2 ^ a :=
          mul_rounding_lt hplaces (by norm_num) (by omega) hfactor
      _ = (2 ^ 53 - 1 / 2) * 2 ^ (a + 1) := by rw [mul_assoc, ← pow_succ']
  · have hplaces : (significand + 1 / 2 : ℚ) ≤ 2 ^ 53 - 5 / 2 := by
      have hlt : (significand + 3 : ℚ) ≤ 2 ^ 53 := by exact_mod_cast hsignificand
      linarith
    have hfactor : ((2 ^ 53 - 5 / 2) * (rounding * rounding) : ℚ) < 2 ^ 53 - 1 / 2 := by
      unfold rounding
      norm_num
    exact mul_rounding_lt hplaces (by norm_num) (by omega) hfactor

/-- The two greatest numbers are made as well: their digits are rounded down. -/
theorem greatest_toDouble? (negative : Bool) :
    (Double.format.fileNumber Double.plainRange negative (2 ^ 53 - 2) 971).toDouble?.isSome = true ∧
      (Double.format.fileNumber Double.plainRange negative (2 ^ 53 - 1) 971).toDouble?.isSome =
        true := by
  cases negative <;> decide +kernel

end

end JsonNumber

/-! ### Every finite number is made -/

/-- The number that a file holds, if there is one. -/
def Double.fileNumber? (x : Double) : Option JsonNumber :=
  Double.format.fileNumber? Double.plainRange x.negative x.magnitude

def Single.fileNumber? (x : Single) : Option JsonNumber :=
  Single.format.fileNumber? Single.plainRange x.negative x.magnitude

theorem Double.bounds_of_magnitude {x : Double} {significand : Nat} {exponent : Int}
    (hx : x.magnitude = .finite significand exponent) :
    significand < 2 ^ 53 ∧ -1074 ≤ exponent ∧ exponent ≤ 971 := by
  have hleast : Double.format.minExponent = -1074 := by decide
  have hgreatest : Double.format.maxExponent = 971 := by decide
  rw [← hleast, ← hgreatest]
  exact BinaryFormat.magnitude_bounds Double.isProper_format hx

theorem Single.bounds_of_magnitude {x : Single} {significand : Nat} {exponent : Int}
    (hx : x.magnitude = .finite significand exponent) :
    significand < 2 ^ 24 ∧ -149 ≤ exponent ∧ exponent ≤ 104 := by
  have hleast : Single.format.minExponent = -149 := by decide
  have hgreatest : Single.format.maxExponent = 104 := by decide
  rw [← hleast, ← hgreatest]
  exact BinaryFormat.magnitude_bounds Single.isProper_format hx

theorem BinaryFormat.exists_of_fileNumber? {f : BinaryFormat} {plain : PlainRange} {negative : Bool}
    {magnitude : Magnitude} {n : JsonNumber} (hn : f.fileNumber? plain negative magnitude = some n) :
    ∃ significand exponent, magnitude = .finite significand exponent ∧
      n = f.fileNumber plain negative significand exponent := by
  cases magnitude with
  | finite significand exponent => exact ⟨_, _, rfl, (Option.some.inj hn).symm⟩
  | infinite | nan => cases hn

theorem BinaryFormat.signedFileText?_eq {f : BinaryFormat} {plain : PlainRange} {magnitude : Magnitude}
    (h : ∀ significand exponent, magnitude = .finite significand exponent →
      IsModerate significand exponent) (negative : Bool) :
    f.signedFileText? plain negative magnitude =
      (f.fileNumber? plain negative magnitude).map JsonNumber.chars := by
  cases magnitude with
  | finite significand exponent =>
      rw [signedFileText?, fileNumber?, Option.map_some, chars_fileNumber (h _ _ rfl)]
  | infinite | nan => rfl

theorem Double.isModerate {x : Double} {significand : Nat} {exponent : Int}
    (hx : x.magnitude = .finite significand exponent) :
    BinaryFormat.IsModerate significand exponent := by
  obtain ⟨hlt, hlow, hhigh⟩ := Double.bounds_of_magnitude hx
  exact ⟨hlt, by omega, by omega⟩

theorem Single.isModerate {x : Single} {significand : Nat} {exponent : Int}
    (hx : x.magnitude = .finite significand exponent) :
    BinaryFormat.IsModerate significand exponent := by
  obtain ⟨hlt, hlow, hhigh⟩ := Single.bounds_of_magnitude hx
  exact ⟨by omega, by omega, by omega⟩

theorem Double.fileText?_eq (x : Double) :
    x.fileText? = x.fileNumber?.map fun n => String.ofList n.chars := by
  unfold fileText? fileNumber?
  rw [BinaryFormat.signedFileText?_eq fun _ _ hx => isModerate hx, Option.map_map]
  rfl

theorem Single.fileText?_eq (x : Single) :
    x.fileText? = x.fileNumber?.map fun n => String.ofList n.chars := by
  unfold fileText? fileNumber?
  rw [BinaryFormat.signedFileText?_eq fun _ _ hx => isModerate hx, Option.map_map]
  rfl

theorem Double.wellFormed_of_fileNumber? {x : Double} {n : JsonNumber} (hn : x.fileNumber? = some n) :
    n.WellFormed := by
  obtain ⟨significand, exponent, hx, rfl⟩ := BinaryFormat.exists_of_fileNumber? hn
  exact BinaryFormat.wellFormed_fileNumber (isModerate hx) _

theorem Single.wellFormed_of_fileNumber? {x : Single} {n : JsonNumber} (hn : x.fileNumber? = some n) :
    n.WellFormed := by
  obtain ⟨significand, exponent, hx, rfl⟩ := BinaryFormat.exists_of_fileNumber? hn
  exact BinaryFormat.wellFormed_fileNumber (isModerate hx) _

/-- **Every finite number is made.** -/
theorem Double.isSome_toDouble? {x : Double} {n : JsonNumber} (hn : x.fileNumber? = some n) :
    n.toDouble?.isSome = true := by
  obtain ⟨significand, exponent, hx, rfl⟩ := BinaryFormat.exists_of_fileNumber? hn
  obtain ⟨hsignificand, -, hexponent⟩ := bounds_of_magnitude hx
  by_cases hbelow : exponent ≤ 970 ∨ significand + 2 < 2 ^ 53
  · exact JsonNumber.toDouble?_fileNumber (by decide) (isModerate hx)
      (JsonNumber.lt_overflowBound_of_lt hsignificand hexponent hbelow) _
  · obtain rfl : exponent = 971 := by omega
    have hgreatest : significand = 2 ^ 53 - 2 ∨ significand = 2 ^ 53 - 1 := by omega
    obtain ⟨hlower, hupper⟩ := JsonNumber.greatest_toDouble? x.negative
    rcases hgreatest with rfl | rfl
    · exact hlower
    · exact hupper

/-- A number in single precision is far from the greatest one in double precision. -/
theorem Single.isSome_toSingle? {x : Single} {n : JsonNumber} (hn : x.fileNumber? = some n) :
    n.toSingle?.isSome = true := by
  obtain ⟨significand, exponent, hx, rfl⟩ := BinaryFormat.exists_of_fileNumber? hn
  obtain ⟨hsignificand, -, hexponent⟩ := bounds_of_magnitude hx
  have hdouble : (Single.format.fileNumber Single.plainRange x.negative significand
      exponent).toDouble?.isSome = true :=
    JsonNumber.toDouble?_fileNumber (by decide) (isModerate hx)
      (JsonNumber.lt_overflowBound_of_lt (by omega) (by omega) (.inl (by omega))) x.negative
  unfold JsonNumber.toSingle?
  rw [BinaryFormat.fileNumber, JsonNumber.integer?_ofDigits]
  simp only
  rw [Option.isSome_map]
  exact hdouble

end RowCode
