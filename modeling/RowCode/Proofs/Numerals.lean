import RowCode.Number.Digits

/-!
# Numerals

A numeral is written as its digits with a point among them. Where the point goes decides which
digits stand before it and which after it; the value of all of them is that of the given digits,
scaled by the zeros that the point needs.
-/

namespace RowCode

theorem isDigit_of_mem_decimalDigits {n : Nat} {c : Char} (hc : c ∈ decimalDigits n) :
    c.isDigit = true :=
  Nat.isDigit_of_mem_toDigits (by decide) (by decide) hc

theorem decimalDigits_ne_nil (n : Nat) : decimalDigits n ≠ [] := Nat.toDigits_ne_nil

theorem length_decimalDigits_le_iff {n k : Nat} (hk : 0 < k) :
    (decimalDigits n).length ≤ k ↔ n < 10 ^ k :=
  Nat.length_toDigits_le_iff (by decide) hk

theorem digitsValue_append (left right : List Char) :
    digitsValue (left ++ right) = 10 ^ right.length * digitsValue left + digitsValue right := by
  unfold digitsValue
  rw [Nat.ofDigitChars_append]
  exact Nat.ofDigitChars_eq_ofDigitChars_zero

theorem digitsValue_replicate_zero (count : Nat) : digitsValue (List.replicate count '0') = 0 := by
  unfold digitsValue
  rw [Nat.ofDigitChars_replicate_zero, Nat.mul_zero]

/-- Digits before the point and digits after it; without the latter there is no point. -/
def numeralText (whole fraction : List Char) : List Char :=
  whole ++ if fraction = [] then [] else '.' :: fraction

/-- The digits before and after the point of `0.d₁d₂… · 10 ^ point`. -/
def pointParts (digits : List Char) (point : Int) : List Char × List Char :=
  if point ≤ 0 then (['0'], List.replicate (-point).toNat '0' ++ digits)
  else if digits.length ≤ point.toNat then
    (digits ++ List.replicate (point.toNat - digits.length) '0', [])
  else (digits.take point.toNat, digits.drop point.toNat)

theorem placePoint_eq {digits : List Char} (hdigits : digits ≠ []) (point : Int) :
    placePoint digits point =
      numeralText (pointParts digits point).1 (pointParts digits point).2 := by
  unfold placePoint pointParts numeralText
  split
  · simp [hdigits]
  · split
    · simp
    · have hdrop : digits.drop point.toNat ≠ [] := by
        rw [ne_eq, List.drop_eq_nil_iff]
        omega
      simp [hdrop]

theorem leadingPoint_eq (digits : List Char) :
    leadingPoint digits = numeralText (digits.take 1) (digits.drop 1) := by
  match digits with
  | [] => rfl
  | [d] => rfl
  | d :: e :: rest => simp [leadingPoint, numeralText]

theorem length_placePoint_le (digits : List Char) (point : Int) :
    (placePoint digits point).length ≤ digits.length + point.natAbs + 2 := by
  unfold placePoint
  split
  · simp
    omega
  · split
    · simp
      omega
    · simp
      omega

theorem length_leadingPoint_le (digits : List Char) :
    (leadingPoint digits).length ≤ digits.length + 1 := by
  match digits with
  | [] => simp [leadingPoint]
  | [d] => simp [leadingPoint]
  | d :: e :: rest => simp [leadingPoint]

section PointParts

variable {digits : List Char} {point : Int}

theorem digitsValue_pointParts :
    digitsValue ((pointParts digits point).1 ++ (pointParts digits point).2) =
      digitsValue digits * 10 ^ (point.toNat - digits.length) := by
  unfold pointParts
  split
  · have hzero : point.toNat - digits.length = 0 := by omega
    rw [hzero, Nat.pow_zero, Nat.mul_one]
    change digitsValue (List.replicate 1 '0' ++ (List.replicate (-point).toNat '0' ++ digits)) = _
    rw [← List.append_assoc, List.replicate_append_replicate, digitsValue_append,
      digitsValue_replicate_zero, Nat.mul_zero, Nat.zero_add]
  · split
    · rw [List.append_nil, digitsValue_append, digitsValue_replicate_zero, List.length_replicate,
        Nat.add_zero, Nat.mul_comm]
    · have hzero : point.toNat - digits.length = 0 := by omega
      rw [List.take_append_drop, hzero, Nat.pow_zero, Nat.mul_one]

theorem length_pointParts :
    (pointParts digits point).2.length = (digits.length - point).toNat := by
  unfold pointParts
  split
  · simp
    omega
  · split
    · simp
      omega
    · simp
      omega

theorem isDigit_of_mem_pointParts (hdigits : ∀ c ∈ digits, c.isDigit = true) (point : Int) :
    (∀ c ∈ (pointParts digits point).1, c.isDigit = true) ∧
      ∀ c ∈ (pointParts digits point).2, c.isDigit = true := by
  have hzeros : ∀ count, ∀ c ∈ List.replicate count '0', c.isDigit = true := by
    intro count c hc
    rw [(List.mem_replicate.mp hc).2]
    decide
  unfold pointParts
  split
  · refine ⟨fun c hc => hzeros 1 c hc, fun c hc => ?_⟩
    rcases List.mem_append.mp hc with hc | hc
    · exact hzeros _ c hc
    · exact hdigits c hc
  · split
    · refine ⟨fun c hc => ?_, by simp⟩
      rcases List.mem_append.mp hc with hc | hc
      · exact hdigits c hc
      · exact hzeros _ c hc
    · exact ⟨fun c hc => hdigits c (List.mem_of_mem_take hc),
        fun c hc => hdigits c (List.mem_of_mem_drop hc)⟩

theorem pointParts_fst_ne_nil (hdigits : digits ≠ []) : (pointParts digits point).1 ≠ [] := by
  unfold pointParts
  split
  · simp
  · split
    · simp [hdigits]
    · rw [ne_eq, List.take_eq_nil_iff]
      rintro (hpoint | hnil)
      · omega
      · exact hdigits hnil

end PointParts

end RowCode
