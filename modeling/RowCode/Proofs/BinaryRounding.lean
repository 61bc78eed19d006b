import Mathlib.Algebra.Order.Field.Power
import Mathlib.Algebra.Order.Field.Rat
import Mathlib.Tactic.FieldSimp
import Mathlib.Tactic.Linarith
import Mathlib.Tactic.NormNum
import Mathlib.Tactic.Positivity
import Mathlib.Tactic.Ring
import RowCode.Number.Binary

/-!
# Rounding to binary floating point

A quotient is rounded to a significand of full precision, or to a smaller one at the least exponent.
The error is at most half of the last place, so a quotient that stays clear of the greatest number
by that much is rounded to a finite one.
-/

namespace RowCode

def Magnitude.isFinite : Magnitude → Bool
  | .finite _ _ => true
  | _ => false

theorem roundQuotient_bounds (num : Nat) {den : Nat} (hden : 0 < den) :
    num / den ≤ roundQuotient num den ∧ 2 * den * roundQuotient num den ≤ 2 * num + den := by
  have hsplit := Nat.div_add_mod num den
  have hrest := Nat.mod_lt num hden
  unfold roundQuotient
  simp only
  split
  · refine ⟨Nat.le_succ _, ?_⟩
    rw [Nat.mul_assoc, Nat.mul_add]
    omega
  · refine ⟨Nat.le_refl _, ?_⟩
    rw [Nat.mul_assoc]
    omega

/-- A quotient whose scale is moved to the numerator or to the denominator. -/
theorem cast_scaled_div (num den : Nat) (e : Int) :
    ((num * 2 ^ (-e).toNat : Nat) : ℚ) / (den * 2 ^ e.toNat : Nat) = num / den * 2 ^ (-e) := by
  rcases Int.le_total 0 e with he | he
  · obtain ⟨n, rfl⟩ := Int.eq_ofNat_of_zero_le he
    have hneg : (-(n : Int)).toNat = 0 := by omega
    rw [hneg, Int.toNat_natCast, zpow_neg, zpow_natCast]
    push_cast
    rw [mul_one, ← div_eq_mul_inv, div_div]
  · obtain ⟨n, hn⟩ := Int.eq_ofNat_of_zero_le (Int.neg_nonneg_of_nonpos he)
    obtain rfl : e = -n := by omega
    have hneg : (-(n : Int)).toNat = 0 := by omega
    rw [hneg, Int.neg_neg, Int.toNat_natCast, zpow_natCast]
    push_cast
    rw [mul_one]
    ring

namespace BinaryFormat

variable (f : BinaryFormat)

/-- Whether there are bits for a significand, and enough exponents for numbers on either side of
one. -/
structure IsProper : Prop where
  precision_pos : 0 < f.precision
  exponentBits_ge : 3 ≤ f.exponentBits

/-- What finite bits denote. -/
def value (bits : Nat) : ℚ :=
  match f.magnitude bits with
  | .finite significand exponent => significand * 2 ^ exponent
  | _ => 0

/-- The weight of the least significant bit of the greatest numbers, as a power of two. -/
def maxExponent : Int := f.minExponent + (2 ^ f.exponentBits : Nat) - 3

/-- Half a place beyond the greatest number. -/
def overflowBound : ℚ := (2 ^ f.precision - 1 / 2) * 2 ^ f.maxExponent

theorem IsProper.two_pow_precision {f : BinaryFormat} (hf : f.IsProper) :
    2 ^ f.precision = 2 * 2 ^ (f.precision - 1) := by
  rw [← Nat.pow_succ', Nat.succ_eq_add_one, Nat.sub_add_cancel hf.precision_pos]

theorem IsProper.exponents {f : BinaryFormat} (hf : f.IsProper) :
    8 ≤ 2 ^ f.exponentBits ∧ f.minExponent + f.precision < 0 := by
  have hpow : 2 ^ (3 - 1) ≤ 2 ^ (f.exponentBits - 1) :=
    Nat.pow_le_pow_right two_pos (Nat.sub_le_sub_right hf.exponentBits_ge 1)
  have hdouble : 2 ^ f.exponentBits = 2 * 2 ^ (f.exponentBits - 1) := by
    rw [← Nat.pow_succ', Nat.succ_eq_add_one,
      Nat.sub_add_cancel (Nat.lt_of_lt_of_le (by decide) hf.exponentBits_ge)]
  have hcast : ((2 ^ (f.exponentBits - 1) : Nat) : Int) = 2 ^ (f.exponentBits - 1) := by
    push_cast
    rfl
  unfold minExponent
  constructor <;> omega

section Rounding

variable {f} {num den : Nat}

theorem quotient_bounds (hnum : 0 < num) (hden : 0 < den) :
    (2 : ℚ) ^ ((num.log2 : Int) - den.log2 - 1) ≤ num / den ∧
      (num / den : ℚ) < 2 ^ ((num.log2 : Int) - den.log2 + 1) := by
  have hnum' : (2 : ℚ) ^ (num.log2 : Int) ≤ num ∧ (num : ℚ) < 2 ^ ((num.log2 : Int) + 1) := by
    rw [← Nat.cast_succ, zpow_natCast, zpow_natCast]
    exact ⟨mod_cast Nat.log2_self_le (Nat.ne_of_gt hnum), mod_cast Nat.lt_log2_self⟩
  have hden' : (2 : ℚ) ^ (den.log2 : Int) ≤ den ∧ (den : ℚ) < 2 ^ ((den.log2 : Int) + 1) := by
    rw [← Nat.cast_succ, zpow_natCast, zpow_natCast]
    exact ⟨mod_cast Nat.log2_self_le (Nat.ne_of_gt hden), mod_cast Nat.lt_log2_self⟩
  have hpos : (0 : ℚ) < den := by exact_mod_cast hden
  constructor
  · rw [le_div_iff₀ hpos]
    calc (2 : ℚ) ^ ((num.log2 : Int) - den.log2 - 1) * den
        ≤ 2 ^ ((num.log2 : Int) - den.log2 - 1) * 2 ^ ((den.log2 : Int) + 1) := by
          gcongr
          exact hden'.2.le
      _ = 2 ^ (num.log2 : Int) := by
          rw [← zpow_add₀ two_ne_zero]
          congr 1
          ring
      _ ≤ num := hnum'.1
  · rw [div_lt_iff₀ hpos]
    calc (num : ℚ) < 2 ^ ((num.log2 : Int) + 1) := hnum'.2
      _ = 2 ^ ((num.log2 : Int) - den.log2 + 1) * 2 ^ (den.log2 : Int) := by
          rw [← zpow_add₀ two_ne_zero]
          congr 1
          ring
      _ ≤ 2 ^ ((num.log2 : Int) - den.log2 + 1) * den := by
          gcongr
          exact hden'.1

theorem scaled_lt_iff (hden : 0 < den) (bits : Nat) (e : Int) :
    num * 2 ^ (-e).toNat < 2 ^ bits * (den * 2 ^ e.toNat) ↔ (num / den : ℚ) < 2 ^ (bits + e) := by
  have hpos : (0 : ℚ) < (den * 2 ^ e.toNat : Nat) := by
    exact_mod_cast Nat.mul_pos hden (Nat.two_pow_pos _)
  rw [zpow_add₀ two_ne_zero, zpow_natCast, ← div_lt_iff₀ (by positivity), div_eq_mul_inv _ ((2 : ℚ) ^ e),
    ← zpow_neg, ← cast_scaled_div, div_lt_iff₀ hpos]
  exact_mod_cast Iff.rfl

theorem roundingExponent_bounds (hnum : 0 < num) (hden : 0 < den) :
    (num / den : ℚ) < 2 ^ (f.precision + f.roundingExponent num den) ∧
      f.minExponent ≤ f.roundingExponent num den ∧
      (f.roundingExponent num den = f.minExponent ∨
        (2 : ℚ) ^ (f.precision - 1 + f.roundingExponent num den) ≤ num / den) := by
  obtain ⟨hlow, hhigh⟩ := quotient_bounds hnum hden
  have hestimate : ∃ e : Int, f.roundingExponent num den = max e f.minExponent ∧
      (num / den : ℚ) < 2 ^ (f.precision + e) ∧ (2 : ℚ) ^ (f.precision - 1 + e) ≤ num / den := by
    refine ⟨_, rfl, ?_⟩
    simp only [decide_eq_true_eq, scaled_lt_iff hden]
    split
    · rename_i hfits
      exact ⟨hfits, (congrArg ((2 : ℚ) ^ ·) (by omega)).trans_le hlow⟩
    · rename_i hfits
      constructor
      · exact hhigh.trans_eq (congrArg ((2 : ℚ) ^ ·) (by omega))
      · exact (congrArg ((2 : ℚ) ^ ·) (by omega)).trans_le (not_lt.mp hfits)
  obtain ⟨e, he, hlt, hle⟩ := hestimate
  rw [he]
  refine ⟨?_, le_max_right _ _, ?_⟩
  · exact hlt.trans_le (zpow_le_zpow_right₀ one_le_two (by omega))
  · rcases le_total e f.minExponent with h | h
    · exact .inl (max_eq_right h)
    · exact .inr (by rwa [max_eq_left h])

/-- The significand that a quotient is rounded to. -/
def roundedSignificand (f : BinaryFormat) (num den : Nat) : Nat :=
  let e := f.roundingExponent num den
  roundQuotient (num * 2 ^ (-e).toNat) (den * 2 ^ e.toNat)

theorem roundedSignificand_bounds (hf : f.IsProper) (hnum : 0 < num) (hden : 0 < den) :
    f.roundedSignificand num den ≤ 2 ^ f.precision ∧
      (f.roundingExponent num den = f.minExponent ∨
        2 ^ (f.precision - 1) ≤ f.roundedSignificand num den) ∧
      (f.roundedSignificand num den * 2 ^ f.roundingExponent num den : ℚ) ≤
        num / den + 2 ^ (f.roundingExponent num den - 1) := by
  obtain ⟨hlt, -, hle⟩ := roundingExponent_bounds (f := f) hnum hden
  unfold roundedSignificand
  generalize f.roundingExponent num den = e at hlt hle
  have hscaled : 0 < den * 2 ^ e.toNat := Nat.mul_pos hden (Nat.two_pow_pos _)
  obtain ⟨hfloor, hround⟩ := roundQuotient_bounds (num * 2 ^ (-e).toNat) hscaled
  have hcast := cast_scaled_div num den e
  simp only
  refine ⟨?_, hle.imp_right fun hle => ?_, ?_⟩
  · have hlt := (scaled_lt_iff hden f.precision e).mpr hlt
    generalize num * 2 ^ (-e).toNat = a at *
    generalize den * 2 ^ e.toNat = b at *
    by_contra hlarge
    have hlarge : b * (2 ^ f.precision + 1) ≤ b * roundQuotient a b :=
      Nat.mul_le_mul_left b (by omega)
    rw [Nat.mul_assoc] at hround
    rw [Nat.mul_comm] at hlt
    rw [Nat.mul_succ] at hlarge
    omega
  · have hp := hf.precision_pos
    have hexponent : ((f.precision - 1 : Nat) : Int) + e = f.precision - 1 + e := by omega
    rw [← hexponent, ← not_lt, ← scaled_lt_iff hden, not_lt] at hle
    exact ((Nat.le_div_iff_mul_le hscaled).mpr hle).trans hfloor
  · have hpos : (0 : ℚ) < (den * 2 ^ e.toNat : Nat) := by exact_mod_cast hscaled
    generalize num * 2 ^ (-e).toNat = a at *
    generalize den * 2 ^ e.toNat = b at *
    have hsignificand : (roundQuotient a b : ℚ) ≤ num / den * 2 ^ (-e) + 1 / 2 := by
      rw [← hcast, div_add_div _ _ hpos.ne' two_ne_zero, le_div_iff₀ (by positivity)]
      have hround : (2 * b * roundQuotient a b : ℚ) ≤ 2 * a + b := by exact_mod_cast hround
      linarith
    calc (roundQuotient a b * 2 ^ e : ℚ) ≤ (num / den * 2 ^ (-e) + 1 / 2) * 2 ^ e := by gcongr
      _ = num / den * (2 ^ (-e) * 2 ^ e) + 2 ^ (-1 : Int) * 2 ^ e := by
          rw [zpow_neg_one]
          ring
      _ = num / den + 2 ^ (e - 1) := by
          rw [← zpow_add₀ two_ne_zero, ← zpow_add₀ two_ne_zero, neg_add_cancel, zpow_zero, mul_one,
            neg_add_eq_sub]

theorem ofQuotient_eq (hnum : 0 < num) :
    f.ofQuotient num den = min (f.roundedSignificand num den +
      (f.roundingExponent num den - f.minExponent).toNat * 2 ^ (f.precision - 1)) f.infinityBits := by
  unfold ofQuotient
  rw [if_neg (Nat.ne_of_gt hnum)]
  rfl

end Rounding

/-! ### Bits and what they denote -/

section Bits

variable {f}

theorem magnitude_of_lt {bits : Nat} (hfinite : bits < f.infinityBits) :
    f.magnitude bits =
      if bits / 2 ^ (f.precision - 1) = 0 then .finite (bits % 2 ^ (f.precision - 1)) f.minExponent
      else .finite (2 ^ (f.precision - 1) + bits % 2 ^ (f.precision - 1))
        (f.minExponent + ((bits / 2 ^ (f.precision - 1) : Nat) - 1)) := by
  unfold magnitude
  simp only [if_neg (Nat.ne_of_lt hfinite), if_neg (Nat.not_lt_of_gt hfinite)]

/-- Significands of full precision, and smaller ones at the least exponent, are placed so that they
carry into the exponent. -/
theorem value_placed {significand steps : Nat} (hf : f.IsProper)
    (hle : significand ≤ 2 ^ f.precision) (hfull : steps = 0 ∨ 2 ^ (f.precision - 1) ≤ significand)
    (hfinite : significand + steps * 2 ^ (f.precision - 1) < f.infinityBits) :
    f.value (significand + steps * 2 ^ (f.precision - 1)) =
      significand * 2 ^ (f.minExponent + steps) := by
  have hdouble := hf.two_pow_precision
  have hpos : 0 < 2 ^ (f.precision - 1) := Nat.two_pow_pos _
  unfold value
  rw [magnitude_of_lt hfinite, Nat.add_mul_div_right _ _ hpos, Nat.add_mul_mod_self_right]
  rw [hdouble] at hle
  generalize 2 ^ (f.precision - 1) = hidden at *
  rcases Nat.lt_or_ge significand hidden with hsmall | hlarge
  · obtain rfl : steps = 0 := hfull.resolve_right (Nat.not_le_of_gt hsmall)
    rw [Nat.div_eq_of_lt hsmall, Nat.mod_eq_of_lt hsmall]
    simp
  rcases Nat.lt_or_ge significand (2 * hidden) with hinner | hcarry
  · have hquotient : significand / hidden = 1 := by
      rw [Nat.div_eq_iff hpos]
      omega
    have hrest : significand % hidden = significand - hidden := by
      rw [Nat.mod_eq_sub_mod hlarge, Nat.mod_eq_of_lt (by omega)]
    rw [hquotient, hrest, if_neg (by omega), Nat.add_sub_cancel' hlarge]
    simp
  · obtain rfl : significand = 2 * hidden := Nat.le_antisymm hle hcarry
    rw [Nat.mul_div_cancel _ hpos, Nat.mul_mod_left, if_neg (by omega)]
    have hexponent : f.minExponent + (((2 + steps : Nat) : Int) - 1) = 1 + (f.minExponent + steps) := by
      omega
    simp only
    rw [hexponent, zpow_add₀ two_ne_zero, zpow_one, Nat.add_zero]
    push_cast
    ring

theorem exists_magnitude {bits : Nat} (hfinite : bits < f.infinityBits) :
    ∃ significand exponent, f.magnitude bits = .finite significand exponent := by
  rw [magnitude_of_lt hfinite]
  split <;> exact ⟨_, _, rfl⟩

theorem lt_infinityBits_of_magnitude {bits significand : Nat} {exponent : Int}
    (h : f.magnitude bits = .finite significand exponent) : bits < f.infinityBits := by
  unfold magnitude at h
  simp only at h
  split at h
  · cases h
  · split at h
    · cases h
    · omega

theorem magnitude_bounds (hf : f.IsProper) {bits significand : Nat} {exponent : Int}
    (h : f.magnitude bits = .finite significand exponent) :
    significand < 2 ^ f.precision ∧ f.minExponent ≤ exponent ∧ exponent ≤ f.maxExponent := by
  have hfinite := lt_infinityBits_of_magnitude h
  have hdouble := hf.two_pow_precision
  have hpos : 0 < 2 ^ (f.precision - 1) := Nat.two_pow_pos _
  obtain ⟨hwidth, -⟩ := hf.exponents
  have hbiased : bits / 2 ^ (f.precision - 1) < 2 ^ f.exponentBits - 1 :=
    (Nat.div_lt_iff_lt_mul hpos).mpr hfinite
  have hfraction := Nat.mod_lt bits hpos
  rw [magnitude_of_lt hfinite] at h
  unfold maxExponent
  rw [hdouble]
  generalize bits / 2 ^ (f.precision - 1) = biased at *
  generalize bits % 2 ^ (f.precision - 1) = fraction at *
  split at h <;> obtain ⟨rfl, rfl⟩ := Magnitude.finite.inj h <;> omega

theorem value_of_magnitude {bits significand : Nat} {exponent : Int}
    (h : f.magnitude bits = .finite significand exponent) :
    f.value bits = significand * 2 ^ exponent := by
  rw [value, h]

theorem value_lt_overflowBound (hf : f.IsProper) {bits : Nat}
    (hfinite : bits < f.infinityBits) : f.value bits < f.overflowBound := by
  obtain ⟨significand, exponent, hmagnitude⟩ := exists_magnitude hfinite
  obtain ⟨hlt, -, hle⟩ := magnitude_bounds hf hmagnitude
  have hsignificand : (significand : ℚ) ≤ 2 ^ f.precision - 1 := by
    rw [le_sub_iff_add_le]
    exact_mod_cast hlt
  rw [value_of_magnitude hmagnitude]
  unfold overflowBound
  calc (significand * 2 ^ exponent : ℚ) ≤ (2 ^ f.precision - 1) * 2 ^ f.maxExponent := by
        have hpow : (2 : ℚ) ^ exponent ≤ 2 ^ f.maxExponent := zpow_le_zpow_right₀ one_le_two hle
        exact mul_le_mul hsignificand hpow (by positivity) ((Nat.cast_nonneg _).trans hsignificand)
    _ < (2 ^ f.precision - 1 / 2) * 2 ^ f.maxExponent := by
        gcongr
        norm_num

theorem value_nonneg (bits : Nat) : 0 ≤ f.value bits := by
  unfold value
  split
  · positivity
  · exact le_refl _

end Bits

/-! ### Quotients that stay clear of infinity -/

section Finite

variable {f} {num den : Nat}

theorem roundingExponent_le_maxExponent (hf : f.IsProper) (hnum : 0 < num) (hden : 0 < den)
    (hbound : (num / den : ℚ) < f.overflowBound) : f.roundingExponent num den ≤ f.maxExponent := by
  by_contra hlarge
  obtain ⟨-, hleast, hlow⟩ := roundingExponent_bounds (f := f) hnum hden
  obtain ⟨hwidth, -⟩ := hf.exponents
  have hne : f.roundingExponent num den ≠ f.minExponent := by
    unfold maxExponent at hlarge
    omega
  have hbelow : f.overflowBound ≤ 2 ^ (f.precision - 1 + f.roundingExponent num den) := by
    calc f.overflowBound ≤ 2 ^ f.precision * 2 ^ f.maxExponent := by
          unfold overflowBound
          gcongr
          norm_num
      _ = 2 ^ (f.precision + f.maxExponent) := by rw [zpow_add₀ two_ne_zero, zpow_natCast]
      _ ≤ 2 ^ (f.precision - 1 + f.roundingExponent num den) :=
          zpow_le_zpow_right₀ one_le_two (by omega)
  exact absurd (hbelow.trans (hlow.resolve_left hne)) (not_le_of_gt hbound)

/-- At the greatest exponent nothing is rounded up to the next one. -/
theorem roundedSignificand_lt_of_eq_maxExponent (hf : f.IsProper) (hnum : 0 < num) (hden : 0 < den)
    (hbound : (num / den : ℚ) < f.overflowBound) (heq : f.roundingExponent num den = f.maxExponent) :
    f.roundedSignificand num den < 2 ^ f.precision := by
  obtain ⟨-, -, hround⟩ := roundedSignificand_bounds hf hnum hden
  rw [heq] at hround
  have hlt : (f.roundedSignificand num den * 2 ^ f.maxExponent : ℚ) <
      2 ^ f.precision * 2 ^ f.maxExponent := by
    calc (f.roundedSignificand num den * 2 ^ f.maxExponent : ℚ)
        ≤ num / den + 2 ^ (f.maxExponent - 1) := hround
      _ < f.overflowBound + 2 ^ (f.maxExponent - 1) := by gcongr
      _ = 2 ^ f.precision * 2 ^ f.maxExponent := by
          unfold overflowBound
          rw [zpow_sub_one₀ two_ne_zero]
          ring
  exact_mod_cast lt_of_mul_lt_mul_right hlt (by positivity)

theorem ofQuotient_lt_infinityBits (hf : f.IsProper) (hnum : 0 < num) (hden : 0 < den)
    (hbound : (num / den : ℚ) < f.overflowBound) : f.roundedSignificand num den +
      (f.roundingExponent num den - f.minExponent).toNat * 2 ^ (f.precision - 1) <
        f.infinityBits := by
  obtain ⟨hle, -, -⟩ := roundedSignificand_bounds hf hnum hden
  obtain ⟨-, hleast, -⟩ := roundingExponent_bounds (f := f) hnum hden
  have hdouble := hf.two_pow_precision
  have hexponent := roundingExponent_le_maxExponent hf hnum hden hbound
  have hpos : 0 < 2 ^ (f.precision - 1) := Nat.two_pow_pos _
  have hsteps : f.roundedSignificand num den <
      (2 ^ f.exponentBits - 1 - (f.roundingExponent num den - f.minExponent).toNat) *
        2 ^ (f.precision - 1) := by
    rcases Int.lt_or_eq_of_le hexponent with hlt | heq
    · have hroom : 3 ≤ 2 ^ f.exponentBits - 1 -
          (f.roundingExponent num den - f.minExponent).toNat := by
        unfold maxExponent at hlt
        omega
      have hmul := Nat.mul_le_mul_right (2 ^ (f.precision - 1)) hroom
      omega
    · have hroom : 2 ≤ 2 ^ f.exponentBits - 1 -
          (f.roundingExponent num den - f.minExponent).toNat := by
        unfold maxExponent at heq
        omega
      have hmul := Nat.mul_le_mul_right (2 ^ (f.precision - 1)) hroom
      have hlt := roundedSignificand_lt_of_eq_maxExponent hf hnum hden hbound heq
      omega
  have hsplit : (2 ^ f.exponentBits - 1) * 2 ^ (f.precision - 1) =
      (2 ^ f.exponentBits - 1 - (f.roundingExponent num den - f.minExponent).toNat) *
          2 ^ (f.precision - 1) +
        (f.roundingExponent num den - f.minExponent).toNat * 2 ^ (f.precision - 1) := by
    rw [← Nat.add_mul, Nat.sub_add_cancel]
    unfold maxExponent at hexponent
    omega
  unfold infinityBits
  omega

/-- What a quotient is rounded to, unless that is too large. -/
theorem value_ofQuotient (hf : f.IsProper) (hnum : 0 < num) (hden : 0 < den)
    (hbound : (num / den : ℚ) < f.overflowBound) :
    f.ofQuotient num den < f.infinityBits ∧ f.value (f.ofQuotient num den) =
      f.roundedSignificand num den * 2 ^ f.roundingExponent num den := by
  have hfinite := ofQuotient_lt_infinityBits hf hnum hden hbound
  obtain ⟨hle, hfull, -⟩ := roundedSignificand_bounds hf hnum hden
  obtain ⟨-, hleast, -⟩ := roundingExponent_bounds (f := f) hnum hden
  rw [ofQuotient_eq hnum, Nat.min_eq_left (Nat.le_of_lt hfinite)]
  refine ⟨hfinite, ?_⟩
  rw [value_placed hf hle (hfull.imp_left fun h => by omega) hfinite]
  congr 2
  omega

theorem value_ofQuotient_le (hf : f.IsProper) (hnum : 0 < num) (hden : 0 < den)
    (hbound : (num / den : ℚ) < f.overflowBound)
    (hnormal : (2 : ℚ) ^ (f.precision - 1 + f.minExponent) ≤ num / den) :
    f.value (f.ofQuotient num den) ≤ num / den * (1 + 2 ^ (-f.precision : Int)) := by
  obtain ⟨-, -, hround⟩ := roundedSignificand_bounds hf hnum hden
  obtain ⟨-, -, hlow⟩ := roundingExponent_bounds (f := f) hnum hden
  have hplace : (2 : ℚ) ^ (f.precision - 1 + f.roundingExponent num den) ≤ num / den := by
    rcases hlow with heq | hlow
    · rwa [heq]
    · exact hlow
  rw [(value_ofQuotient hf hnum hden hbound).2]
  calc (f.roundedSignificand num den * 2 ^ f.roundingExponent num den : ℚ)
      ≤ num / den + 2 ^ (f.roundingExponent num den - 1) := hround
    _ = num / den +
        2 ^ (f.precision - 1 + f.roundingExponent num den) * 2 ^ (-f.precision : Int) := by
        rw [← zpow_add₀ two_ne_zero]
        congr 2
        ring
    _ ≤ num / den + num / den * 2 ^ (-f.precision : Int) := by gcongr
    _ = num / den * (1 + 2 ^ (-f.precision : Int)) := by ring

theorem one_le_value_ofQuotient (hf : f.IsProper) (hnum : 0 < num) (hden : 0 < den)
    (hbound : (num / den : ℚ) < f.overflowBound) (hone : 1 ≤ (num / den : ℚ)) :
    1 ≤ f.value (f.ofQuotient num den) := by
  obtain ⟨-, hfull, -⟩ := roundedSignificand_bounds hf hnum hden
  obtain ⟨hlt, -, -⟩ := roundingExponent_bounds (f := f) hnum hden
  have hp := hf.precision_pos
  have hexponent : 0 < f.precision + f.roundingExponent num den :=
    (one_lt_zpow_iff_right₀ one_lt_two).mp (hone.trans_lt hlt)
  have hfull : 2 ^ (f.precision - 1) ≤ f.roundedSignificand num den := by
    apply hfull.resolve_left
    have hleast := hf.exponents.2
    omega
  rw [(value_ofQuotient hf hnum hden hbound).2]
  calc (1 : ℚ) ≤ 2 ^ (((f.precision - 1 : Nat) : Int) + f.roundingExponent num den) :=
        one_le_zpow₀ one_le_two (by omega)
    _ = ((2 ^ (f.precision - 1) : Nat) : ℚ) * 2 ^ f.roundingExponent num den := by
        rw [zpow_add₀ two_ne_zero, zpow_natCast]
        push_cast
        rfl
    _ ≤ f.roundedSignificand num den * 2 ^ f.roundingExponent num den := by
        gcongr

end Finite

end BinaryFormat

theorem Single.isProper_format : Single.format.IsProper := ⟨by decide, by decide⟩

theorem Double.isProper_format : Double.format.IsProper := ⟨by decide, by decide⟩

end RowCode
