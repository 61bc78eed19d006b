import Mathlib.Algebra.Order.Field.Power
import Mathlib.Algebra.Order.Field.Rat
import Mathlib.Tactic.FieldSimp
import Mathlib.Tactic.Linarith
import Mathlib.Tactic.NormNum
import Mathlib.Tactic.Positivity
import Mathlib.Tactic.Ring
import RowCode.Number.Shortest

/-!
# Shortest digits are found

Some grid of powers of ten that is tried is fine enough to have a neighbour of the number inside the
interval that rounds to it. What is printed is never zero, and at most half a place above the number.
-/

namespace RowCode

namespace BinaryFormat

variable {f : BinaryFormat} {tie : TieRule} {significand n : Nat} {exponent k : Int}

/-- Quarters of a place and steps of a grid, in the unit that makes both of them integers. -/
theorem cast_step (exponent k : Int) :
    ((2 ^ (2 - exponent).toNat * 10 ^ k.toNat : Nat) : ℚ) * 2 ^ (exponent - 2) =
      (2 ^ (exponent - 2).toNat * 10 ^ (-k).toNat : Nat) * 10 ^ k := by
  have hsplit (a : ℚ) (ha : a ≠ 0) (e : Int) : a ^ e = a ^ e.toNat / a ^ (-e).toNat := by
    rw [← zpow_natCast, ← zpow_natCast, ← zpow_sub₀ ha]
    congr 1
    omega
  rw [hsplit 2 two_ne_zero, hsplit 10 (by norm_num), Int.neg_sub]
  push_cast
  field_simp

theorem RoundingInterval.le_of_admits {interval : RoundingInterval} {distance bound : Nat}
    (h : interval.admits distance bound = true) : distance ≤ bound := by
  simp only [admits, Bool.or_eq_true, Bool.and_eq_true, decide_eq_true_eq] at h
  omega

theorem RoundingInterval.admits_of_lt {interval : RoundingInterval} {distance bound : Nat}
    (h : distance < bound) : interval.admits distance bound = true := by
  simp [admits, h]

theorem roundingInterval_bounds (f : BinaryFormat) (significand : Nat) (exponent : Int) :
    1 ≤ (f.roundingInterval significand exponent).below ∧
      (f.roundingInterval significand exponent).below ≤ 2 ∧
        (f.roundingInterval significand exponent).above = 2 := by
  unfold roundingInterval
  simp only
  split <;> decide

/-- A neighbour is either the multiple below the number or the one above it, and reads back. -/
theorem gridNeighbour_cases {quarter step : Nat}
    (hquarter : 2 ^ (exponent - 2).toNat * 10 ^ (-k).toNat = quarter)
    (hstep : 2 ^ (2 - exponent).toNat * 10 ^ k.toNat = step)
    (hfound : f.gridNeighbour tie significand exponent k = some n) :
    (n = 4 * significand * quarter / step ∧
        (f.roundingInterval significand exponent).admits (4 * significand * quarter - n * step)
          ((f.roundingInterval significand exponent).below * quarter) = true) ∨
      (n = 4 * significand * quarter / step + 1 ∧
        (f.roundingInterval significand exponent).admits (n * step - 4 * significand * quarter)
          (2 * quarter) = true) := by
  obtain ⟨-, -, habove⟩ := roundingInterval_bounds f significand exponent
  unfold gridNeighbour at hfound
  simp only [hquarter, hstep, habove] at hfound
  split at hfound
  · cases hfound
  · obtain rfl := Option.some.inj hfound
    exact .inl ⟨rfl, ‹_›⟩
  · obtain rfl := Option.some.inj hfound
    exact .inr ⟨rfl, ‹_›⟩
  · have heither : n = 4 * significand * quarter / step ∨ n = 4 * significand * quarter / step + 1 := by
      grind
    rcases heither with rfl | rfl
    · exact .inl ⟨rfl, ‹_›⟩
    · exact .inr ⟨rfl, ‹_›⟩

theorem gridNeighbour_spec (hsignificand : 0 < significand)
    (hfound : f.gridNeighbour tie significand exponent k = some n) :
    0 < n ∧ (n * 10 ^ k : ℚ) ≤ (significand + 1 / 2) * 2 ^ exponent := by
  have hcast := cast_step exponent k
  have hquarter : 0 < 2 ^ (exponent - 2).toNat * 10 ^ (-k).toNat :=
    Nat.mul_pos (Nat.two_pow_pos _) (Nat.pow_pos (by decide))
  have hcases := gridNeighbour_cases rfl rfl hfound
  obtain ⟨-, hbound, -⟩ := roundingInterval_bounds f significand exponent
  generalize 2 ^ (exponent - 2).toNat * 10 ^ (-k).toNat = quarter at *
  generalize 2 ^ (2 - exponent).toNat * 10 ^ k.toNat = step at *
  have hbelow := Nat.div_mul_le_self (4 * significand * quarter) step
  have hbound := Nat.mul_le_mul_right quarter hbound
  have hpositive : 2 * quarter < 4 * significand * quarter := by
    have hmul := Nat.mul_le_mul_right quarter (Nat.mul_le_mul_left 4 hsignificand)
    omega
  have hle : n * step ≤ 4 * significand * quarter + 2 * quarter := by
    rcases hcases with ⟨rfl, -⟩ | ⟨-, hup⟩
    · omega
    · have hup := RoundingInterval.le_of_admits hup
      omega
  constructor
  · rcases hcases with ⟨rfl, hdown⟩ | ⟨rfl, -⟩
    · by_contra hzero
      rw [Nat.eq_zero_of_not_pos hzero] at hdown
      have hdown := RoundingInterval.le_of_admits hdown
      omega
    · exact Nat.succ_pos _
  · have hle : (n * step : ℚ) ≤ 4 * significand * quarter + 2 * quarter := by exact_mod_cast hle
    have hpos : (0 : ℚ) < quarter := by exact_mod_cast hquarter
    refine le_of_mul_le_mul_right ?_ hpos
    calc (n * 10 ^ k * quarter : ℚ) = n * step * 2 ^ (exponent - 2) := by
          rw [mul_assoc, mul_comm ((10 : ℚ) ^ k), ← hcast, mul_assoc]
      _ ≤ (4 * significand * quarter + 2 * quarter) * 2 ^ (exponent - 2) := by gcongr
      _ = (significand + 1 / 2) * 2 ^ exponent * quarter := by
          rw [zpow_sub₀ two_ne_zero]
          ring

theorem gridNeighbour_isSome (hfine : (10 : ℚ) ^ k < 3 * 2 ^ (exponent - 2)) :
    (f.gridNeighbour tie significand exponent k).isSome = true := by
  have hcast := cast_step exponent k
  obtain ⟨hbelow, -, habove⟩ := roundingInterval_bounds f significand exponent
  have hquarter : 0 < 2 ^ (exponent - 2).toNat * 10 ^ (-k).toNat :=
    Nat.mul_pos (Nat.two_pow_pos _) (Nat.pow_pos (by decide))
  have hpos : 0 < 2 ^ (2 - exponent).toNat * 10 ^ k.toNat :=
    Nat.mul_pos (Nat.two_pow_pos _) (Nat.pow_pos (by decide))
  unfold gridNeighbour
  simp only [habove]
  generalize 2 ^ (exponent - 2).toNat * 10 ^ (-k).toNat = quarter at *
  generalize 2 ^ (2 - exponent).toNat * 10 ^ k.toNat = step at *
  have hstep : step < 3 * quarter := by
    have hlt : (step * 2 ^ (exponent - 2) : ℚ) < 3 * quarter * 2 ^ (exponent - 2) := by
      have hquarter : (0 : ℚ) < quarter := by exact_mod_cast hquarter
      calc (step * 2 ^ (exponent - 2) : ℚ) = quarter * 10 ^ k := hcast
        _ < quarter * (3 * 2 ^ (exponent - 2)) := by gcongr
        _ = 3 * quarter * 2 ^ (exponent - 2) := by ring
    exact_mod_cast lt_of_mul_lt_mul_right hlt (by positivity)
  split
  · rename_i hdown hup
    -- The distances to both neighbours add up to a step, which is too short for that.
    have hdown : ¬4 * significand * quarter - 4 * significand * quarter / step * step <
        (f.roundingInterval significand exponent).below * quarter :=
      fun hlt => Bool.false_ne_true (hdown.symm.trans (RoundingInterval.admits_of_lt hlt))
    have hup : ¬(4 * significand * quarter / step + 1) * step - 4 * significand * quarter <
        2 * quarter :=
      fun hlt => Bool.false_ne_true (hup.symm.trans (RoundingInterval.admits_of_lt hlt))
    have hquarter := Nat.mul_le_mul_right quarter hbelow
    have hsplit := Nat.div_add_mod (4 * significand * quarter) step
    have hrest := Nat.mod_lt (4 * significand * quarter) hpos
    rw [Nat.mul_comm step] at hsplit
    rw [Nat.succ_mul] at hup
    omega
  · rfl
  · rfl
  · split
    · rfl
    · split
      · rfl
      · cases tie <;> rfl

theorem firstNeighbour_spec {fuel : Nat}
    (hhit : ∃ j < fuel, (f.gridNeighbour tie significand exponent (k - j)).isSome = true) :
    ∃ n k', f.firstNeighbour tie significand exponent fuel k = (n, k') ∧
      f.gridNeighbour tie significand exponent k' = some n ∧ k - fuel < k' ∧ k' ≤ k := by
  induction fuel generalizing k with
  | zero =>
      obtain ⟨j, hj, -⟩ := hhit
      exact absurd hj (Nat.not_lt_zero j)
  | succ fuel ih =>
      unfold firstNeighbour
      split
      · rename_i n hn
        exact ⟨n, k, rfl, hn, by omega, Int.le_refl k⟩
      · rename_i hnone
        obtain ⟨j, hj, hhit⟩ := hhit
        obtain ⟨j, rfl⟩ : ∃ i, j = i + 1 := by
          cases j with
          | zero => simp [hnone] at hhit
          | succ i => exact ⟨i, rfl⟩
        have hshift : k - ((j + 1 : Nat) : Int) = k - 1 - j := by omega
        rw [hshift] at hhit
        obtain ⟨n, k', hfirst, hn, hlow, hhigh⟩ := ih ⟨j, by omega, hhit⟩
        exact ⟨n, k', hfirst, hn, by omega, by omega⟩

/-! ### Powers of ten between powers of two -/

theorem power_le_two_pow (n : Nat) : 10 ^ n ≤ 2 ^ (10 * n / 3 + 1) := by
  have hrest : ∀ r < 3, 10 ^ r ≤ 2 ^ (10 * r / 3 + 1) := by decide
  have hsplit : 10 * n / 3 + 1 = 10 * (n / 3) + (10 * (n % 3) / 3 + 1) := by omega
  calc 10 ^ n = (10 ^ 3) ^ (n / 3) * 10 ^ (n % 3) := by
        rw [← Nat.pow_mul, ← Nat.pow_add, Nat.div_add_mod]
    _ ≤ (2 ^ 10) ^ (n / 3) * 2 ^ (10 * (n % 3) / 3 + 1) :=
        Nat.mul_le_mul (Nat.pow_le_pow_left (by decide) _) (hrest _ (Nat.mod_lt n (by decide)))
    _ = 2 ^ (10 * n / 3 + 1) := by rw [← Nat.pow_mul, ← Nat.pow_add, hsplit]

theorem two_pow_le_power (n : Nat) : 2 ^ (93 * n / 28) ≤ 10 ^ n := by
  have hrest : ∀ r < 28, 2 ^ (93 * r / 28) ≤ 10 ^ r := by decide
  have hsplit : 93 * n / 28 = 93 * (n / 28) + 93 * (n % 28) / 28 := by omega
  calc 2 ^ (93 * n / 28) = (2 ^ 93) ^ (n / 28) * 2 ^ (93 * (n % 28) / 28) := by
        rw [← Nat.pow_mul, ← Nat.pow_add, ← hsplit]
    _ ≤ (10 ^ 28) ^ (n / 28) * 10 ^ (n % 28) :=
        Nat.mul_le_mul (Nat.pow_le_pow_left (by decide) _) (hrest _ (Nat.mod_lt n (by decide)))
    _ = 10 ^ n := by rw [← Nat.pow_mul, ← Nat.pow_add, Nat.div_add_mod]

theorem log2_lt (hsignificand : significand < 2 ^ 53) : significand.log2 < 53 := by
  rcases Nat.eq_zero_or_pos significand with rfl | hpos
  · decide
  · exact (Nat.log2_lt (Nat.ne_of_gt hpos)).mpr hsignificand

/-- The last grid that is tried is fine enough. -/
theorem last_grid_fine (hsignificand : significand < 2 ^ 53) (hlow : -1100 ≤ exponent)
    (hhigh : exponent ≤ 1000) :
    (10 : ℚ) ^ (decimalBound significand exponent - 23) < 3 * 2 ^ (exponent - 2) := by
  have hlog := log2_lt hsignificand
  have hbound : (10 : ℚ) ^ (decimalBound significand exponent - 23) ≤ 2 ^ (exponent - 1) := by
    unfold decimalBound
    generalize hk : (exponent + significand.log2 + 1) * 30103 / 100000 + 1 - 23 = k
    rcases Int.le_total 0 k with hpos | hneg
    · obtain ⟨n, rfl⟩ := Int.eq_ofNat_of_zero_le hpos
      calc (10 : ℚ) ^ (n : Int) = (10 ^ n : Nat) := by
            rw [zpow_natCast]
            push_cast
            rfl
        _ ≤ (2 ^ (10 * n / 3 + 1) : Nat) := by exact_mod_cast power_le_two_pow n
        _ = 2 ^ ((10 * n / 3 + 1 : Nat) : Int) := by
            rw [zpow_natCast]
            push_cast
            rfl
        _ ≤ 2 ^ (exponent - 1) := zpow_le_zpow_right₀ one_le_two (by omega)
    · obtain ⟨n, hn⟩ := Int.eq_ofNat_of_zero_le (Int.neg_nonneg_of_nonpos hneg)
      obtain rfl : k = -n := by omega
      have hpower : ((2 ^ (93 * n / 28) : Nat) : ℚ) ≤ (10 ^ n : Nat) := by
        exact_mod_cast two_pow_le_power n
      push_cast at hpower
      calc (10 : ℚ) ^ (-n : Int) = (10 ^ n)⁻¹ := by rw [zpow_neg, zpow_natCast]
        _ ≤ (2 ^ (93 * n / 28))⁻¹ := by gcongr
        _ = 2 ^ (-(93 * n / 28 : Nat) : Int) := by rw [zpow_neg, zpow_natCast]
        _ ≤ 2 ^ (exponent - 1) := zpow_le_zpow_right₀ one_le_two (by omega)
  calc (10 : ℚ) ^ (decimalBound significand exponent - 23) ≤ 2 ^ (exponent - 1) := hbound
    _ = 2 * 2 ^ (exponent - 2) := by
        rw [← zpow_one_add₀ two_ne_zero]
        congr 1
        omega
    _ < 3 * 2 ^ (exponent - 2) := by
        gcongr
        norm_num

/-- **Shortest digits are found.** They read back at least as the number itself does: they are not
zero, and they exceed the number by at most half a place. -/
theorem shortest_spec (f : BinaryFormat) (tie : TieRule) (hpositive : 0 < significand)
    (hsignificand : significand < 2 ^ 53) (hlow : -1100 ≤ exponent) (hhigh : exponent ≤ 1000) :
    0 < (f.shortest tie significand exponent).1 ∧
      ((f.shortest tie significand exponent).1 *
          10 ^ (f.shortest tie significand exponent).2 : ℚ) ≤
        (significand + 1 / 2) * 2 ^ exponent ∧
      (f.shortest tie significand exponent).2.natAbs ≤ 400 := by
  have hfine := last_grid_fine hsignificand hlow hhigh
  have hlog := log2_lt hsignificand
  have hhit : ∃ j < 24, (f.gridNeighbour tie significand exponent
      (decimalBound significand exponent - (j : Nat))).isSome = true :=
    ⟨23, by decide, gridNeighbour_isSome hfine⟩
  obtain ⟨n, k, hfirst, hn, hleast, hgreatest⟩ := firstNeighbour_spec hhit
  obtain ⟨hpos, hle⟩ := gridNeighbour_spec hpositive hn
  rw [shortest, hfirst]
  refine ⟨hpos, hle, ?_⟩
  simp only
  unfold decimalBound at hleast hgreatest
  omega

end BinaryFormat

end RowCode
