import RowCode.Proofs.DecimalReading
import RowCode.Proofs.FloatNumbers

/-!
# Digits tell the number

The reals that round to a number form an interval, and the intervals of two numbers do not meet:
where they touch, the end that they share belongs to the even one. Shortest digits lie in the
interval of their number, so numbers of one width that are written alike are the same.
-/

namespace RowCode

namespace BinaryFormat

variable {f : BinaryFormat} {tie : TieRule} {significand significand' n : Nat}
  {exponent exponent' k : Int} {q : ℚ}

/-- The lower end of the reals that round to `significand · 2 ^ exponent`. -/
def low (f : BinaryFormat) (significand : Nat) (exponent : Int) : ℚ :=
  (4 * significand - (f.roundingInterval significand exponent).below) * 2 ^ (exponent - 2)

def high (significand : Nat) (exponent : Int) : ℚ := (4 * significand + 2) * 2 ^ (exponent - 2)

/-- The rational is one of those that round to `significand · 2 ^ exponent`. -/
structure RoundsTo (f : BinaryFormat) (significand : Nat) (exponent : Int) (q : ℚ) : Prop where
  low_le : f.low significand exponent ≤ q
  le_high : q ≤ high significand exponent
  inside : significand % 2 = 1 → f.low significand exponent < q ∧ q < high significand exponent

/-! ### Shortest digits round to their number -/

theorem RoundingInterval.lt_of_admits {interval : RoundingInterval} {distance bound : Nat}
    (h : interval.admits distance bound = true) (hopen : interval.closed = false) :
    distance < bound := by
  simpa [admits, hopen] using h

/-- A neighbour that reads back is no farther from the number than the ends of the interval. -/
theorem gridNeighbour_within {quarter step : Nat}
    (hquarter : 2 ^ (exponent - 2).toNat * 10 ^ (-k).toNat = quarter)
    (hstep : 2 ^ (2 - exponent).toNat * 10 ^ k.toNat = step)
    (hfound : f.gridNeighbour tie significand exponent k = some n) :
    (4 * significand * quarter ≤
        n * step + (f.roundingInterval significand exponent).below * quarter ∧
      n * step ≤ 4 * significand * quarter + 2 * quarter) ∧
    (significand % 2 = 1 → 4 * significand * quarter <
        n * step + (f.roundingInterval significand exponent).below * quarter ∧
      n * step < 4 * significand * quarter + 2 * quarter) := by
  have hquarterPos : 0 < quarter := by
    rw [← hquarter]
    exact Nat.mul_pos (Nat.two_pow_pos _) (Nat.pow_pos (by decide))
  have hstepPos : 0 < step := by
    rw [← hstep]
    exact Nat.mul_pos (Nat.two_pow_pos _) (Nat.pow_pos (by decide))
  have hopen : significand % 2 = 1 → (f.roundingInterval significand exponent).closed = false := by
    intro hodd
    simp [roundingInterval, hodd]
  have hbelow := Nat.mul_le_mul_right quarter (roundingInterval_bounds f significand exponent).1
  have hfloor := Nat.div_mul_le_self (4 * significand * quarter) step
  have hceiling := Nat.lt_mul_div_succ (4 * significand * quarter) hstepPos
  rw [Nat.mul_comm step] at hceiling
  rcases gridNeighbour_cases hquarter hstep hfound with ⟨rfl, hdown⟩ | ⟨rfl, hup⟩
  · have hle := RoundingInterval.le_of_admits hdown
    refine ⟨by omega, fun hodd => ?_⟩
    have hlt := RoundingInterval.lt_of_admits hdown (hopen hodd)
    omega
  · have hle := RoundingInterval.le_of_admits hup
    refine ⟨by omega, fun hodd => ?_⟩
    have hlt := RoundingInterval.lt_of_admits hup (hopen hodd)
    omega

/-- **Neighbours that read back lie in the interval.** -/
theorem roundsTo_gridNeighbour (hfound : f.gridNeighbour tie significand exponent k = some n) :
    f.RoundsTo significand exponent (n * 10 ^ k) := by
  have hcast := cast_step exponent k
  have hquarter : 0 < 2 ^ (exponent - 2).toNat * 10 ^ (-k).toNat :=
    Nat.mul_pos (Nat.two_pow_pos _) (Nat.pow_pos (by decide))
  obtain ⟨⟨hlow, hhigh⟩, hinside⟩ := gridNeighbour_within rfl rfl hfound
  generalize 2 ^ (exponent - 2).toNat * 10 ^ (-k).toNat = quarter at *
  generalize 2 ^ (2 - exponent).toNat * 10 ^ k.toNat = step at *
  have hpos : (0 : ℚ) < quarter := by exact_mod_cast hquarter
  have hplace : (0 : ℚ) < 2 ^ (exponent - 2) := by positivity
  -- Both sides of a comparison are taken to the unit in which the grid is made of integers.
  have hleft (a : ℚ) : a * 2 ^ (exponent - 2) * quarter = a * quarter * 2 ^ (exponent - 2) := by
    ring
  have hright : (n * 10 ^ k : ℚ) * quarter = n * step * 2 ^ (exponent - 2) := by
    rw [mul_assoc, mul_comm ((10 : ℚ) ^ k), ← hcast, mul_assoc]
  refine ⟨?_, ?_, fun hodd => ?_⟩
  · unfold low
    rw [← mul_le_mul_iff_left₀ hpos, hleft, hright, mul_le_mul_iff_left₀ hplace, sub_mul,
      sub_le_iff_le_add]
    exact_mod_cast hlow
  · unfold high
    rw [← mul_le_mul_iff_left₀ hpos, hleft, hright, mul_le_mul_iff_left₀ hplace, add_mul]
    exact_mod_cast hhigh
  · obtain ⟨hlow, hhigh⟩ := hinside hodd
    unfold low high
    constructor
    · rw [← mul_lt_mul_iff_left₀ hpos, hleft, hright, mul_lt_mul_iff_left₀ hplace, sub_mul,
        sub_lt_iff_lt_add]
      exact_mod_cast hlow
    · rw [← mul_lt_mul_iff_left₀ hpos, hleft, hright, mul_lt_mul_iff_left₀ hplace, add_mul]
      exact_mod_cast hhigh

theorem roundsTo_shortest (h : IsModerate significand exponent) :
    f.RoundsTo significand exponent ((f.shortest tie significand exponent).1 *
      10 ^ (f.shortest tie significand exponent).2) := by
  have hfine := last_grid_fine h.significand_lt h.le_exponent h.exponent_le
  have hhit : ∃ j < 24, (f.gridNeighbour tie significand exponent
      (decimalBound significand exponent - (j : Nat))).isSome = true :=
    ⟨23, by decide, gridNeighbour_isSome hfine⟩
  obtain ⟨n, k, hfirst, hn, -, -⟩ := firstNeighbour_spec hhit
  rw [shortest, hfirst]
  exact roundsTo_gridNeighbour hn

/-! ### Intervals do not meet -/

/-- Significands of full precision, and smaller ones at the least exponent. -/
structure IsNormal (f : BinaryFormat) (significand : Nat) (exponent : Int) : Prop where
  significand_lt : significand < 2 ^ f.precision
  le_exponent : f.minExponent ≤ exponent
  full : exponent = f.minExponent ∨ 2 ^ (f.precision - 1) ≤ significand

theorem isNormal_of_magnitude (hf : f.IsProper) {bits : Nat}
    (h : f.magnitude bits = .finite significand exponent) : f.IsNormal significand exponent := by
  obtain ⟨hlt, hle, -⟩ := magnitude_bounds hf h
  refine ⟨hlt, hle, ?_⟩
  unfold magnitude at h
  simp only at h
  split at h
  · cases h
  · split at h
    · cases h
    · split at h
      · obtain ⟨-, rfl⟩ := Magnitude.finite.inj h
        exact .inl rfl
      · obtain ⟨rfl, -⟩ := Magnitude.finite.inj h
        exact .inr (Nat.le_add_right _ _)

theorem high_le_low (hlt : significand < significand') :
    high significand exponent ≤ f.low significand' exponent := by
  have hbelow := (roundingInterval_bounds f significand' exponent).2.1
  have hplaces : 4 * significand + 2 + (f.roundingInterval significand' exponent).below ≤
      4 * significand' := by omega
  have hcast : (4 * significand + 2 : ℚ) ≤
      4 * significand' - (f.roundingInterval significand' exponent).below := by
    rw [le_sub_iff_add_le]
    exact_mod_cast hplaces
  unfold high low
  gcongr

theorem not_roundsTo_of_significand_lt (hlt : significand < significand')
    (h : f.RoundsTo significand exponent q) : ¬ f.RoundsTo significand' exponent q := by
  intro h'
  have hends : high significand exponent ≤ f.low significand' exponent := high_le_low hlt
  by_cases hodd : significand % 2 = 1
  · exact absurd (hends.trans h'.low_le) (not_le_of_gt (h.inside hodd).2)
  · by_cases hodd' : significand' % 2 = 1
    · exact absurd (h.le_high.trans hends) (not_le_of_gt (h'.inside hodd').1)
    · -- Between two even significands lies another one.
      have hbetween : high (significand + 1) exponent ≤ f.low significand' exponent :=
        high_le_low (by omega)
      have hstrict : high significand exponent < high (significand + 1) exponent := by
        unfold high
        gcongr
        exact Nat.lt_succ_self _
      exact absurd (h.le_high.trans_lt (hstrict.trans_le hbetween)) (not_lt_of_ge h'.low_le)

/-- Where the exponent changes, the gap below the greater number is as wide as the one above the
smaller. -/
theorem not_roundsTo_of_exponent_lt (hf : f.IsProper) (hnormal : f.IsNormal significand exponent)
    (hnormal' : f.IsNormal significand' exponent') (hlt : exponent < exponent')
    (h : f.RoundsTo significand exponent q) : ¬ f.RoundsTo significand' exponent' q := by
  intro h'
  have hdouble := hf.two_pow_precision
  have hleast := hnormal.le_exponent
  have hfull := hnormal'.full.resolve_left (by omega)
  have hsignificand := hnormal.significand_lt
  have hhigh : q < (8 * 2 ^ (f.precision - 1) - 2) * 2 ^ (exponent - 2) := by
    by_cases hlast : significand + 1 < 2 ^ f.precision
    · have hplaces : 4 * significand + 2 + 2 < 8 * 2 ^ (f.precision - 1) := by omega
      have hcast : (4 * significand + 2 : ℚ) < 8 * 2 ^ (f.precision - 1) - 2 := by
        rw [lt_sub_iff_add_lt]
        exact_mod_cast hplaces
      refine h.le_high.trans_lt ?_
      unfold high
      gcongr
    · have hplaces : 4 * significand + 2 + 2 = 8 * 2 ^ (f.precision - 1) := by omega
      have hcast : (4 * significand + 2 : ℚ) = 8 * 2 ^ (f.precision - 1) - 2 := by
        rw [eq_sub_iff_add_eq]
        exact_mod_cast hplaces
      rw [← hcast]
      exact (h.inside (by omega)).2
  have hlow : (8 * 2 ^ (f.precision - 1) - 2) * 2 ^ (exponent - 2) ≤
      f.low significand' exponent' := by
    have hbelow := (roundingInterval_bounds f significand' exponent').2.1
    have hpower : significand' = 2 ^ (f.precision - 1) →
        (f.roundingInterval significand' exponent').below = 1 := by
      intro hsame
      simp [roundingInterval, hsame, hleast.trans_lt hlt]
    have hplaces : 4 * 2 ^ (f.precision - 1) + (f.roundingInterval significand' exponent').below ≤
        4 * significand' + 1 := by omega
    have hcast : (4 * 2 ^ (f.precision - 1) - 1 : ℚ) ≤
        4 * significand' - (f.roundingInterval significand' exponent').below := by
      have hplaces : (4 * 2 ^ (f.precision - 1) +
          (f.roundingInterval significand' exponent').below : ℚ) ≤ 4 * significand' + 1 := by
        exact_mod_cast hplaces
      linarith
    have hone : (1 : ℚ) ≤ 2 ^ (f.precision - 1) := one_le_pow₀ one_le_two
    calc ((8 * 2 ^ (f.precision - 1) - 2) * 2 ^ (exponent - 2) : ℚ)
        = (4 * 2 ^ (f.precision - 1) - 1) * 2 ^ (exponent - 2 + 1) := by
          rw [zpow_add_one₀ two_ne_zero]
          ring
      _ ≤ (4 * 2 ^ (f.precision - 1) - 1) * 2 ^ (exponent' - 2) := by
          have hexponent : exponent - 2 + 1 ≤ exponent' - 2 := by omega
          have hnonneg : (0 : ℚ) ≤ 4 * 2 ^ (f.precision - 1) - 1 := by linarith
          gcongr
          exact one_le_two
      _ ≤ f.low significand' exponent' := by
          unfold low
          gcongr
  exact absurd (hhigh.trans_le hlow) (not_lt_of_ge h'.low_le)

/-- **Intervals do not meet.** -/
theorem RoundsTo.unique (hf : f.IsProper) (hnormal : f.IsNormal significand exponent)
    (hnormal' : f.IsNormal significand' exponent') (h : f.RoundsTo significand exponent q)
    (h' : f.RoundsTo significand' exponent' q) :
    significand = significand' ∧ exponent = exponent' := by
  rcases lt_trichotomy exponent exponent' with hlt | rfl | hlt
  · exact absurd h' (not_roundsTo_of_exponent_lt hf hnormal hnormal' hlt h)
  · rcases lt_trichotomy significand significand' with hlt | rfl | hlt
    · exact absurd h' (not_roundsTo_of_significand_lt hlt h)
    · exact ⟨rfl, rfl⟩
    · exact absurd h (not_roundsTo_of_significand_lt hlt h')
  · exact absurd h (not_roundsTo_of_exponent_lt hf hnormal' hnormal hlt h')

/-! ### Positional text -/

/-- What digits with a point among them denote. -/
def pointValue (text : List Char) : ℚ :=
  let (whole, fraction, _) := Decimal.splitNumeral text
  digitsValue (whole ++ fraction) * 10 ^ (-(fraction.length : Int))

theorem pointValue_placePoint {digits : List Char} (hdigits : ∀ c ∈ digits, c.isDigit = true)
    (hne : digits ≠ []) (point : Int) :
    pointValue (placePoint digits point) = digitsValue digits * 10 ^ (point - digits.length) := by
  obtain ⟨hwhole, hfraction⟩ := isDigit_of_mem_pointParts hdigits point
  have hvalue : digitsValue ((pointParts digits point).1 ++ (pointParts digits point).2) = _ :=
    digitsValue_pointParts
  have hlength : (pointParts digits point).2.length = _ := length_pointParts
  have hends : Decimal.EndsNumeral [] := by simp [Decimal.EndsNumeral]
  have hsplit := Decimal.splitNumeral_numeralText hwhole hfraction hends
  rw [List.append_nil] at hsplit
  unfold pointValue
  rw [placePoint_eq hne, hsplit]
  simp only
  rw [hvalue, hlength, Nat.cast_mul, Nat.cast_pow, Nat.cast_ofNat, ← zpow_natCast, mul_assoc,
    ← zpow_add₀ (by norm_num)]
  congr 2
  omega

theorem roundsTo_zero (f : BinaryFormat) (exponent : Int) : f.RoundsTo 0 exponent 0 where
  low_le := by
    unfold low
    rw [Nat.cast_zero, mul_zero, zero_sub, neg_mul, neg_nonpos]
    positivity
  le_high := by
    unfold high
    positivity
  inside hodd := absurd hodd (by decide)

/-- **What is written rounds to the number.** -/
theorem roundsTo_positionalText (h : IsModerate significand exponent) :
    f.RoundsTo significand exponent (pointValue (f.positionalText significand exponent)) := by
  unfold positionalText digitsAndPoint
  by_cases hzero : significand = 0
  · have hvalue : pointValue (placePoint ['0'] 1) = _ :=
      pointValue_placePoint (List.forall_mem_singleton.mpr (by decide)) (by decide) 1
    rw [if_pos hzero]
    simp only
    have hdigit : digitsValue ['0'] = 0 := rfl
    rw [hvalue, hzero, hdigit, Nat.cast_zero, zero_mul]
    exact f.roundsTo_zero exponent
  · have hvalue := pointValue_placePoint
      (fun _ hc => isDigit_of_mem_decimalDigits (n := (f.shortest .up significand exponent).1) hc)
      (decimalDigits_ne_nil _)
      ((decimalDigits (f.shortest .up significand exponent).1).length +
        (f.shortest .up significand exponent).2)
    rw [if_neg hzero]
    simp only
    rw [hvalue, digitsValue_decimalDigits, add_sub_cancel_left]
    exact roundsTo_shortest h

/-- **Numbers that are written alike are the same.** -/
theorem eq_of_positionalText_eq (hf : f.IsProper) (hnormal : f.IsNormal significand exponent)
    (hnormal' : f.IsNormal significand' exponent') (h : IsModerate significand exponent)
    (h' : IsModerate significand' exponent')
    (htext : f.positionalText significand exponent = f.positionalText significand' exponent') :
    significand = significand' ∧ exponent = exponent' := by
  have hrounds : f.RoundsTo significand exponent _ := roundsTo_positionalText h
  have hrounds' : f.RoundsTo significand' exponent' _ := roundsTo_positionalText h'
  rw [htext] at hrounds
  exact hrounds.unique hf hnormal hnormal' hrounds'

end BinaryFormat

open BinaryFormat

theorem Single.eq_of_positionalText_eq {x y : Single} {significand significand' : Nat}
    {exponent exponent' : Int} (hx : x.magnitude = .finite significand exponent)
    (hy : y.magnitude = .finite significand' exponent')
    (htext : Single.format.positionalText significand exponent =
      Single.format.positionalText significand' exponent') :
    significand = significand' ∧ exponent = exponent' :=
  have hf := Single.isProper_format
  BinaryFormat.eq_of_positionalText_eq hf (isNormal_of_magnitude hf hx)
    (isNormal_of_magnitude hf hy) (isModerate hx) (isModerate hy) htext

theorem Double.eq_of_positionalText_eq {x y : Double} {significand significand' : Nat}
    {exponent exponent' : Int} (hx : x.magnitude = .finite significand exponent)
    (hy : y.magnitude = .finite significand' exponent')
    (htext : Double.format.positionalText significand exponent =
      Double.format.positionalText significand' exponent') :
    significand = significand' ∧ exponent = exponent' :=
  have hf := Double.isProper_format
  BinaryFormat.eq_of_positionalText_eq hf (isNormal_of_magnitude hf hx)
    (isNormal_of_magnitude hf hy) (isModerate hx) (isModerate hy) htext

end RowCode
