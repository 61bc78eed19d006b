import RowCode.File.JsonNumber
import RowCode.Proofs.BinaryRounding
import RowCode.Proofs.Numerals

/-!
# Numbers that are not too large

A number in floating point is a significand times a power of ten, each of them rounded and then their
product. It is refused only if that overflows, so a number that stays below the greatest one by the
two roundings is always made.
-/

namespace RowCode

namespace BinaryFormat

variable {f : BinaryFormat}

theorem ofQuotient_finite (hf : f.IsProper) {num den : Nat} (hden : 0 < den)
    (hbound : (num / den : ℚ) < f.overflowBound) : f.ofQuotient num den < f.infinityBits := by
  rcases Nat.eq_zero_or_pos num with rfl | hnum
  · have hwidth := hf.exponents.1
    exact Nat.mul_pos (by omega) (Nat.two_pow_pos _)
  · exact (value_ofQuotient hf hnum hden hbound).1

end BinaryFormat

namespace JsonNumber

open BinaryFormat

theorem overflowBound_double : Double.format.overflowBound = (2 ^ 53 - 1 / 2) * 2 ^ 971 := by
  have hmax : Double.format.maxExponent = (971 : Nat) := by decide
  unfold overflowBound
  rw [hmax, zpow_natCast]
  rfl

/-- The factor by which one rounding may enlarge a number. -/
def rounding : ℚ := 1 + 2 ^ (-53 : Int)

theorem value_ofNat {n : Nat} (hn : 0 < n) (hbound : (n : ℚ) < Double.format.overflowBound) :
    Double.format.ofQuotient n 1 < Double.format.infinityBits ∧
      1 ≤ Double.format.value (Double.format.ofQuotient n 1) ∧
        Double.format.value (Double.format.ofQuotient n 1) ≤ n * rounding := by
  have hquotient : (n / (1 : Nat) : ℚ) = n := by norm_num
  have hone : (1 : ℚ) ≤ n := by exact_mod_cast hn
  have hnormal : (2 : ℚ) ^ (Double.format.precision - 1 + Double.format.minExponent) ≤ n := by
    refine le_trans (zpow_le_one_of_nonpos₀ one_le_two ?_) hone
    decide
  rw [← hquotient] at hbound hone hnormal
  refine ⟨(value_ofQuotient Double.isProper_format hn one_pos hbound).1,
    one_le_value_ofQuotient Double.isProper_format hn one_pos hbound hone, ?_⟩
  have hle := value_ofQuotient_le Double.isProper_format hn one_pos hbound hnormal
  rw [hquotient] at hle
  exact hle

theorem power_lt_overflowBound {e : Nat} (he : e ≤ 308) :
    (10 : ℚ) ^ e < Double.format.overflowBound := by
  have hquarter : (10 : ℚ) ^ 77 ≤ 7 / 8 * 2 ^ 256 := by norm_num
  calc (10 : ℚ) ^ e ≤ 10 ^ (77 * 4) := pow_le_pow_right₀ (by norm_num) he
    _ = (10 ^ 77) ^ 4 := pow_mul 10 77 4
    _ ≤ (7 / 8 * 2 ^ 256) ^ 4 := by gcongr
    _ = (7 / 8) ^ 4 * 2 ^ 53 * 2 ^ 971 := by
        rw [mul_pow, ← pow_mul, mul_assoc, ← pow_add]
    _ < (2 ^ 53 - 1 / 2) * 2 ^ 971 := by
        gcongr
        norm_num
    _ = Double.format.overflowBound := overflowBound_double.symm

theorem overflowBound_lt_power : Double.format.overflowBound < (10 : ℚ) ^ 309 := by
  have hquarter : (2 : ℚ) ^ 256 ≤ 12 / 10 * 10 ^ 77 := by norm_num
  calc Double.format.overflowBound = (2 ^ 53 - 1 / 2) * 2 ^ 971 := overflowBound_double
    _ < 2 ^ 53 * 2 ^ 971 := by
        gcongr
        norm_num
    _ = (2 ^ 256) ^ 4 := by rw [← pow_add, ← pow_mul]
    _ ≤ (12 / 10 * 10 ^ 77) ^ 4 := by gcongr
    _ = (12 / 10) ^ 4 * 10 ^ 308 := by rw [mul_pow, ← pow_mul]
    _ < 10 * 10 ^ 308 := by
        gcongr
        norm_num
    _ = 10 ^ 309 := (pow_succ' 10 308).symm

/-- A power of ten within reach of one step, in floating point. -/
theorem value_power {e : Nat} (he : e ≤ 308) :
    Double.format.ofQuotient (10 ^ e) 1 < Double.format.infinityBits ∧
      1 ≤ Double.format.value (Double.format.ofQuotient (10 ^ e) 1) ∧
        Double.format.value (Double.format.ofQuotient (10 ^ e) 1) ≤ 10 ^ e * rounding := by
  have hvalue := value_ofNat (n := 10 ^ e) (Nat.pow_pos (by decide))
    (by push_cast; exact power_lt_overflowBound he)
  push_cast at hvalue
  exact hvalue

theorem word_lt_overflowBound {n : Nat} (hn : n < 2 ^ 64) : (n : ℚ) < Double.format.overflowBound := by
  refine lt_trans ?_ (power_lt_overflowBound (e := 20) (by decide))
  exact_mod_cast Nat.lt_trans hn (by decide)

theorem one_le_rounding : 1 ≤ rounding := by
  unfold rounding
  norm_num

theorem value_word_le {n : Nat} (hn : n < 2 ^ 64) :
    Double.format.value (Double.format.ofQuotient n 1) ≤ n * rounding := by
  rcases Nat.eq_zero_or_pos n with rfl | hpos
  · have hzero : Double.format.magnitude (Double.format.ofQuotient 0 1) =
        .finite 0 Double.format.minExponent := by decide
    rw [value_of_magnitude hzero]
    norm_num
  · exact (value_ofNat hpos (word_lt_overflowBound hn)).2.2

/-- A product of two numbers in floating point. -/
theorem ofQuotient_mul {m n : Nat} {q r : Int}
    (hbound : (m * 2 ^ q * (n * 2 ^ r) : ℚ) < Double.format.overflowBound) :
    Double.format.ofQuotient (m * n * 2 ^ (q + r).toNat) (2 ^ (-(q + r)).toNat) <
      Double.format.infinityBits := by
  have hcast := cast_scaled_div (m * n) 1 (-(q + r))
  rw [Int.neg_neg, Nat.one_mul] at hcast
  apply ofQuotient_finite Double.isProper_format (Nat.two_pow_pos _)
  refine lt_of_eq_of_lt ?_ hbound
  rw [hcast, zpow_add₀ two_ne_zero]
  push_cast
  ring

theorem ofQuotient_div {m n : Nat} {q r : Int} (hn : 0 < n)
    (hbound : (m * 2 ^ q / (n * 2 ^ r) : ℚ) < Double.format.overflowBound) :
    Double.format.ofQuotient (m * 2 ^ (q - r).toNat) (n * 2 ^ (-(q - r)).toNat) <
      Double.format.infinityBits := by
  have hcast := cast_scaled_div m n (-(q - r))
  rw [Int.neg_neg] at hcast
  apply ofQuotient_finite Double.isProper_format (Nat.mul_pos hn (Nat.two_pow_pos _))
  refine lt_of_eq_of_lt ?_ hbound
  rw [hcast, zpow_sub₀ two_ne_zero]
  ring

theorem timesPowerOfTen_finite {bits e : Nat} (he : e ≤ 308) (hbits : bits < Double.format.infinityBits)
    (hbound : Double.format.value bits * (10 ^ e * rounding) < Double.format.overflowBound) :
    ∃ result < Double.format.infinityBits, timesPowerOfTen bits e = some result := by
  obtain ⟨hpower, -, hle⟩ := value_power he
  obtain ⟨m, q, hm⟩ := exists_magnitude hbits
  obtain ⟨n, r, hn⟩ := exists_magnitude hpower
  unfold timesPowerOfTen
  simp only [hm, hn]
  refine ⟨_, ofQuotient_mul ?_, rfl⟩
  rw [← value_of_magnitude hm, ← value_of_magnitude hn]
  exact (mul_le_mul_of_nonneg_left hle (value_nonneg bits)).trans_lt hbound

theorem overPowerOfTen_finite {bits e : Nat} (he : e ≤ 308) (hbits : bits < Double.format.infinityBits) :
    ∃ result < Double.format.infinityBits, overPowerOfTen bits e = some result := by
  obtain ⟨hpower, hone, -⟩ := value_power he
  obtain ⟨m, q, hm⟩ := exists_magnitude hbits
  obtain ⟨n, r, hn⟩ := exists_magnitude hpower
  have hpos : 0 < n := by
    rw [value_of_magnitude hn] at hone
    by_contra hzero
    obtain rfl : n = 0 := by omega
    norm_num at hone
  unfold overPowerOfTen
  simp only [hm, hn]
  refine ⟨_, ofQuotient_div hpos ?_, rfl⟩
  rw [← value_of_magnitude hm, ← value_of_magnitude hn]
  exact (div_le_self (value_nonneg bits) hone).trans_lt (value_lt_overflowBound Double.isProper_format hbits)

theorem scaleDown_isSome (fuel : Nat) {bits : Nat} (hbits : bits < Double.format.infinityBits)
    (exponent : Nat) : (scaleDown fuel bits exponent).isSome = true := by
  induction fuel generalizing bits exponent with
  | zero => rfl
  | succ fuel ih =>
      unfold scaleDown
      split
      · obtain ⟨result, -, hresult⟩ := overPowerOfTen_finite ‹_› hbits
        rw [hresult]
        rfl
      · split
        · rfl
        · obtain ⟨result, hfinite, hresult⟩ := overPowerOfTen_finite (Nat.le_refl 308) hbits
          rw [hresult]
          exact ih hfinite (exponent - 308)

/-- **Numbers are made unless they are too large.** A significand of 64 bits is scaled by any power
of ten, if twice rounding the result up leaves it below infinity. -/
theorem scale_isSome {significand : Nat} (hsignificand : significand < 2 ^ 64) {exponent : Int}
    (hbound : 0 ≤ exponent →
      (significand * rounding * (10 ^ exponent * rounding) : ℚ) < Double.format.overflowBound) :
    (scale significand exponent).isSome = true := by
  have hquotient : (significand / (1 : Nat) : ℚ) < Double.format.overflowBound := by
    rw [Nat.cast_one, div_one]
    exact word_lt_overflowBound hsignificand
  have hfinite := ofQuotient_finite Double.isProper_format one_pos hquotient
  unfold scale
  simp only
  split
  · exact scaleDown_isSome 4 hfinite exponent.natAbs
  have habs : (exponent.natAbs : Int) = exponent := by omega
  have hbound := hbound (by omega)
  rw [← habs, zpow_natCast] at hbound
  split
  · have hvalue : Double.format.value (Double.format.ofQuotient significand 1) *
        (10 ^ exponent.natAbs * rounding) < Double.format.overflowBound := by
      have hrounding : 0 ≤ rounding := zero_le_one.trans one_le_rounding
      refine lt_of_le_of_lt ?_ hbound
      gcongr
      exact value_word_le hsignificand
    obtain ⟨result, hresult, htimes⟩ := timesPowerOfTen_finite (by omega) hfinite hvalue
    rw [htimes, Option.bind_some, if_neg (Nat.ne_of_lt hresult)]
    rfl
  split
  · rfl
  · rename_i hlarge hbits
    have hpos : (1 : ℚ) ≤ significand := by
      exact_mod_cast Nat.pos_of_ne_zero fun hzero => hbits (by rw [hzero]; rfl)
    have hpower : (10 : ℚ) ^ 309 ≤ 10 ^ exponent.natAbs :=
      pow_le_pow_right₀ (by norm_num) (by omega)
    have hone := one_le_rounding
    have hproduct : (10 : ℚ) ^ 309 ≤
        significand * rounding * (10 ^ exponent.natAbs * rounding) := by
      calc (10 : ℚ) ^ 309 = 1 * 1 * (10 ^ 309 * 1) := by rw [mul_one, mul_one, one_mul]
        _ ≤ significand * rounding * (10 ^ exponent.natAbs * rounding) := by gcongr
    exact absurd (hproduct.trans_lt hbound) (not_lt_of_gt overflowBound_lt_power)

/-! ### Digits and exponents as written -/

theorem accumulate_eq {significand : Nat} {digits : List Char}
    (hfits : 10 ^ digits.length * significand + digitsValue digits ≤ unsignedMax 64) :
    accumulate significand digits =
      (10 ^ digits.length * significand + digitsValue digits, []) := by
  induction digits generalizing significand with
  | nil => simp [accumulate, digitsValue, Nat.ofDigitChars]
  | cons d rest ih =>
      have hvalue : 10 ^ (d :: rest).length * significand + digitsValue (d :: rest) =
          10 ^ rest.length * (10 * significand + digitsValue [d]) + digitsValue rest := by
        have happend := digitsValue_append [d] rest
        rw [List.singleton_append] at happend
        rw [happend, List.length_cons, Nat.pow_succ]
        ring
      rw [hvalue] at hfits ⊢
      have hnext : 10 * significand + digitsValue [d] ≤ unsignedMax 64 :=
        (Nat.le_mul_of_pos_left _ (Nat.pow_pos (by decide))).trans
          ((Nat.le_add_right _ _).trans hfits)
      rw [accumulate]
      simp only [if_pos hnext]
      exact ih hfits

theorem accumulate_spec {significand : Nat} (digits : List Char)
    (hfits : significand ≤ unsignedMax 64) :
    ∃ taken, digits = taken ++ (accumulate significand digits).2 ∧
      (accumulate significand digits).1 = 10 ^ taken.length * significand + digitsValue taken ∧
        (accumulate significand digits).1 ≤ unsignedMax 64 := by
  induction digits generalizing significand with
  | nil => exact ⟨[], rfl, by simp [accumulate, digitsValue, Nat.ofDigitChars], hfits⟩
  | cons d rest ih =>
      rw [accumulate]
      split
      · obtain ⟨taken, hdigits, hvalue, hle⟩ := ih ‹_›
        refine ⟨d :: taken, by rw [List.cons_append, ← hdigits], ?_, hle⟩
        have happend := digitsValue_append [d] taken
        rw [List.singleton_append] at happend
        rw [hvalue, happend, List.length_cons, Nat.pow_succ]
        ring
      · exact ⟨[], rfl, by simp [digitsValue, Nat.ofDigitChars], hfits⟩

/-- The digits after the point. -/
def fractionDigits (n : JsonNumber) : List Char := n.fraction.getD []

/-- The exponent that is written, or none. -/
def writtenExponent (n : JsonNumber) : Int :=
  match n.exponent with
  | none => 0
  | some (negative, digits) => if negative then -(digitsValue digits : Int) else digitsValue digits

/-- What a number is, its sign apart. -/
def rational (n : JsonNumber) : ℚ :=
  digitsValue (n.whole ++ n.fractionDigits) *
    10 ^ (n.writtenExponent - n.fractionDigits.length)

theorem scaled_eq {n : JsonNumber} (hwhole : digitsValue n.whole ≤ unsignedMax 64) :
    n.scaled = ((accumulate (digitsValue n.whole) n.fractionDigits).1,
      -((n.fractionDigits.length - (accumulate (digitsValue n.whole) n.fractionDigits).2.length :
        Nat) : Int)) := by
  have hfits : accumulate 0 n.whole = (10 ^ n.whole.length * 0 + digitsValue n.whole, []) :=
    accumulate_eq (by rwa [Nat.mul_zero, Nat.zero_add])
  rw [Nat.mul_zero, Nat.zero_add] at hfits
  unfold scaled fractionDigits
  rw [hfits]
  cases n.fraction with
  | none => rfl
  | some digits => simp

/-- Digits that do not fit are dropped. -/
theorem scaled_le {n : JsonNumber} (hwhole : digitsValue n.whole ≤ unsignedMax 64) :
    n.scaled.1 ≤ unsignedMax 64 ∧
      (n.scaled.1 * 10 ^ (n.scaled.2 + n.writtenExponent) : ℚ) ≤ n.rational := by
  obtain ⟨taken, hdigits, hvalue, hle⟩ := accumulate_spec n.fractionDigits hwhole
  rw [scaled_eq hwhole]
  refine ⟨hle, ?_⟩
  generalize (accumulate (digitsValue n.whole) n.fractionDigits).1 = significand at *
  generalize (accumulate (digitsValue n.whole) n.fractionDigits).2 = dropped at *
  have hall : 10 ^ dropped.length * significand ≤ digitsValue (n.whole ++ n.fractionDigits) := by
    rw [hdigits, ← List.append_assoc, digitsValue_append, digitsValue_append, hvalue]
    exact Nat.le_add_right _ _
  have hlength : n.fractionDigits.length = taken.length + dropped.length := by
    rw [hdigits, List.length_append]
  have hcast : ((10 ^ dropped.length : Nat) : ℚ) * significand ≤
      digitsValue (n.whole ++ n.fractionDigits) := by
    exact_mod_cast hall
  unfold rational
  rw [hlength]
  calc (significand * 10 ^ (-((taken.length + dropped.length - dropped.length : Nat) : Int) +
        n.writtenExponent) : ℚ)
      = ((10 ^ dropped.length : Nat) : ℚ) * significand *
          10 ^ (n.writtenExponent - (taken.length + dropped.length : Nat)) := by
        rw [Nat.add_sub_cancel, Nat.cast_pow, Nat.cast_ofNat, ← zpow_natCast, mul_right_comm,
          mul_comm _ (significand : ℚ), ← zpow_add₀ (by norm_num : (10 : ℚ) ≠ 0)]
        congr 2
        push_cast
        ring
    _ ≤ digitsValue (n.whole ++ n.fractionDigits) *
          10 ^ (n.writtenExponent - (taken.length + dropped.length : Nat)) := by
        gcongr

theorem saturate_le {e : Int} (he : 0 ≤ saturate e) : saturate e ≤ e := by
  unfold saturate at *
  omega

theorem toDouble?_isSome {n : JsonNumber} (hwhole : digitsValue n.whole ≤ unsignedMax 64)
    (hwritten : n.writtenExponent.natAbs ≤ exponentLimit)
    (hbound : n.rational * (rounding * rounding) < Double.format.overflowBound) :
    n.toDouble?.isSome = true := by
  obtain ⟨hfits, hle⟩ := scaled_le hwhole
  have hscale : (scale n.scaled.1 (saturate (n.scaled.2 + n.writtenExponent))).isSome = true := by
    have hword : n.scaled.1 < 2 ^ 64 := by
      unfold unsignedMax at hfits
      omega
    apply scale_isSome hword
    intro hsaturate
    refine lt_of_le_of_lt ?_ hbound
    have hrounding : 0 ≤ rounding := zero_le_one.trans one_le_rounding
    have hpower : (10 : ℚ) ^ saturate (n.scaled.2 + n.writtenExponent) ≤
        10 ^ (n.scaled.2 + n.writtenExponent) :=
      zpow_le_zpow_right₀ (by norm_num) (saturate_le hsaturate)
    calc (n.scaled.1 * rounding *
          (10 ^ saturate (n.scaled.2 + n.writtenExponent) * rounding) : ℚ)
        = n.scaled.1 * 10 ^ saturate (n.scaled.2 + n.writtenExponent) * (rounding * rounding) := by
          ring
      _ ≤ n.scaled.1 * 10 ^ (n.scaled.2 + n.writtenExponent) * (rounding * rounding) := by gcongr
      _ ≤ n.rational * (rounding * rounding) := by gcongr
  obtain ⟨negative, whole, fraction, exponent⟩ := n
  unfold toDouble?
  cases exponent with
  | none =>
      simp only [writtenExponent, Int.add_zero] at hscale
      rw [Option.isSome_map]
      exact hscale
  | some written =>
      obtain ⟨down, digits⟩ := written
      have hlimit : ¬exponentLimit < digitsValue digits := by
        simp only [writtenExponent] at hwritten
        split at hwritten <;> omega
      simp only [writtenExponent] at hscale
      rw [Option.isSome_map]
      simp only [if_neg hlimit]
      cases down with
      | true => exact hscale
      | false => exact hscale

end JsonNumber

end RowCode
