import RowCode.Proofs.BinaryRounding
import RowCode.Proofs.CodeTrees

/-!
# Code that tells the expression

Some constants are written bare, without a sign or a cast, and unlike any constant of another kind.
Where all constants are bare and no variable is named like a class, the expression is found again in
its code, but for the types that are not written.
-/

namespace RowCode

/-! ### Numbers -/

namespace BinaryFormat

/-- The bits of a finite number. -/
def bitsOf (f : BinaryFormat) (significand : Nat) (exponent : Int) : Nat :=
  significand + (exponent - f.minExponent).toNat * 2 ^ (f.precision - 1)

theorem bitsOf_magnitude {f : BinaryFormat} {bits significand : Nat} {exponent : Int}
    (h : f.magnitude bits = .finite significand exponent) :
    f.bitsOf significand exponent = bits := by
  have hdivision := Nat.mod_add_div' bits (2 ^ (f.precision - 1))
  rw [magnitude_of_lt (lt_infinityBits_of_magnitude h)] at h
  unfold bitsOf
  split at h
  · rename_i hzero
    obtain ⟨rfl, rfl⟩ := Magnitude.finite.inj h
    rw [hzero] at hdivision
    simpa using hdivision
  · rename_i hpositive
    obtain ⟨rfl, rfl⟩ := Magnitude.finite.inj h
    have hsteps : (f.minExponent + ((bits / 2 ^ (f.precision - 1) : Nat) - 1) -
        f.minExponent).toNat = bits / 2 ^ (f.precision - 1) - 1 := by omega
    have hone : 2 ^ (f.precision - 1) ≤
        bits / 2 ^ (f.precision - 1) * 2 ^ (f.precision - 1) :=
      Nat.le_mul_of_pos_left _ (Nat.pos_of_ne_zero hpositive)
    rw [hsteps, Nat.sub_one_mul]
    omega

end BinaryFormat

theorem Single.ofMagnitude_bitsOf {x : Single} {significand : Nat} {exponent : Int}
    (h : x.magnitude = .finite significand exponent) :
    Single.ofMagnitude x.negative (Single.format.bitsOf significand exponent) = x := by
  have hsign : Single.format.signBit = 2 ^ 31 := rfl
  have hbits : (if x.negative then 2 ^ 31 else 0) + x.bits.toNat % 2 ^ 31 = x.bits.toNat := by
    have hlt := x.bits.toNat_lt
    simp only [Single.negative, hsign, decide_eq_true_eq]
    split <;> omega
  rw [BinaryFormat.bitsOf_magnitude h, Single.ofMagnitude, hsign, hbits, UInt32.ofNat_toNat]

theorem Double.ofMagnitude_bitsOf {x : Double} {significand : Nat} {exponent : Int}
    (h : x.magnitude = .finite significand exponent) :
    Double.ofMagnitude x.negative (Double.format.bitsOf significand exponent) = x := by
  have hsign : Double.format.signBit = 2 ^ 63 := rfl
  have hbits : (if x.negative then 2 ^ 63 else 0) + x.bits.toNat % 2 ^ 63 = x.bits.toNat := by
    have hlt := x.bits.toNat_lt
    simp only [Double.negative, hsign, decide_eq_true_eq]
    split <;> omega
  rw [BinaryFormat.bitsOf_magnitude h, Double.ofMagnitude, hsign, hbits, UInt64.ofNat_toNat]

/-- The constant that is written like this; an integer rather than a decimal. -/
def Numeral.value : Numeral → Value
  | plain coefficient _ => .int32 (Int32.ofNat coefficient)
  | long n => .int64 (Int64.ofNat n)
  | single significand exponent =>
    .float (.ofMagnitude false (Single.format.bitsOf significand exponent))
  | double significand exponent =>
    .double (.ofMagnitude false (Double.format.bitsOf significand exponent))

/-! ### Constants -/

/-- Whether the constant is written bare, and unlike any constant of another kind. -/
def Value.isBare (value : Value) (ty : HostType) : Bool :=
  match value with
  | .null => ty = .object
  | .boolean _ | .string _ => true
  | .int32 n => 0 ≤ n.toInt
  | .int64 n => 0 ≤ n.toInt
  | .float x => !x.negative && x.magnitude.isFinite
  | .double x => !x.negative && x.magnitude.isFinite
  | .int8 _ | .int16 _ | .decimal _ => false

namespace Code

/-- The class that stands for itself in the code. -/
def class? (isClass : String → Bool) : Code → Option String
  | name s => if isClass s then some s else none
  | _ => none

mutual

/-- The expression without types that are not written which has this code, if constants are bare. -/
def expr (isClass : String → Bool) : Code → Expr
  | null => .null
  | boolean b => .constant (.boolean b) .object
  | numeral n => .constant n.value .object
  | string s => .constant (.string s) .object
  | name s => .var ⟨s, .object⟩
  | field target _ => expr isClass target
  | call target method args =>
    match class? isClass target with
    | some owner => .staticCall owner method (exprs isClass args) .object
    | none => .call (expr isClass target) method (exprs isClass args) .object
  | construct ty args => .construct ty (exprs isClass args)
  | binary op left right => .binary op (expr isClass left) (expr isClass right) .object
  | unary op operand => .unary op (expr isClass operand) .object
  | conditional condition ifTrue ifFalse =>
    .conditional (expr isClass condition) (expr isClass ifTrue) (expr isClass ifFalse) .object
  | cast operand ty => .cast (expr isClass operand) ty
  | element array index => .element (expr isClass array) index .object
  | lambda parameters body =>
    .lambda (parameters.map fun name => ⟨name, .object⟩) (expr isClass body)

def exprs (isClass : String → Bool) : List Code → List Expr
  | [] => []
  | c :: rest => expr isClass c :: exprs isClass rest

end

theorem ofInteger_of_nonneg {i : Int} (hi : 0 ≤ i) :
    ofInteger i = .numeral (.plain i.natAbs 0) := by
  rw [ofInteger, decide_eq_false (Int.not_lt.mpr hi)]
  rfl

theorem ofFloat_of_isFinite {magnitude : Magnitude} (owner : String)
    (numeral : Nat → Int → Numeral) (hfinite : magnitude.isFinite = true) :
    ∃ significand exponent, magnitude = .finite significand exponent ∧
      ofFloat owner numeral false magnitude = .numeral (numeral significand exponent) := by
  cases magnitude with
  | finite significand exponent => exact ⟨significand, exponent, rfl, rfl⟩
  | infinite => cases hfinite
  | nan => cases hfinite

/-- A constant that is written bare is a literal, which tells the constant. -/
theorem expr_ofConstant (isClass : String → Bool) {value : Value} {ty : HostType}
    (h : value.isBare ty = true) :
    (ofConstant value ty).class? isClass = none ∧ (ofConstant value ty).expr isClass =
      .constant value (if value = .null then ty else .object) := by
  cases value with
  | null =>
      obtain rfl : ty = .object := of_decide_eq_true h
      exact ⟨rfl, rfl⟩
  | boolean b => exact ⟨rfl, rfl⟩
  | int8 n => cases h
  | int16 n => cases h
  | int32 n =>
      have hnonneg : 0 ≤ n.toInt := of_decide_eq_true h
      have hvalue : Int32.ofNat n.toInt.natAbs = n := by
        rw [← Int32.ofInt_eq_ofNat, Int.natAbs_of_nonneg hnonneg, Int32.ofInt_toInt]
      rw [ofConstant, ofInteger_of_nonneg hnonneg]
      simp [class?, expr, Numeral.value, hvalue]
  | int64 n =>
      have hnonneg : 0 ≤ n.toInt := of_decide_eq_true h
      have hvalue : Int64.ofNat n.toInt.natAbs = n := by
        rw [← Int64.ofInt_eq_ofNat, Int.natAbs_of_nonneg hnonneg, Int64.ofInt_toInt]
      rw [ofConstant, decide_eq_false (Int.not_lt.mpr hnonneg)]
      simp [signed, class?, expr, Numeral.value, hvalue]
  | float x =>
      obtain ⟨hsign, hfinite⟩ := Bool.and_eq_true_iff.mp h
      obtain ⟨significand, exponent, hmagnitude, hcode⟩ :=
        ofFloat_of_isFinite "Float" .single hfinite
      have hvalue := Single.ofMagnitude_bitsOf hmagnitude
      have hpositive : x.negative = false := by simpa using hsign
      rw [hpositive] at hvalue
      rw [ofConstant, hpositive, hcode]
      simp [class?, expr, Numeral.value, hvalue]
  | double x =>
      obtain ⟨hsign, hfinite⟩ := Bool.and_eq_true_iff.mp h
      obtain ⟨significand, exponent, hmagnitude, hcode⟩ :=
        ofFloat_of_isFinite "Double" .double hfinite
      have hvalue := Double.ofMagnitude_bitsOf hmagnitude
      have hpositive : x.negative = false := by simpa using hsign
      rw [hpositive] at hvalue
      rw [ofConstant, hpositive, hcode]
      simp [class?, expr, Numeral.value, hvalue]
  | decimal d => cases h
  | string s => exact ⟨rfl, rfl⟩

end Code

namespace Expr

mutual

/-- Whether constants are bare and the names of classes are told from those of variables. -/
def isBare (isClass : String → Bool) : Expr → Bool
  | constant value ty => value.isBare ty
  | var v => !isClass v.name
  | call target _ args _ => isBare isClass target && allBare isClass args
  | staticCall owner _ args _ => isClass owner && allBare isClass args
  | construct _ args => allBare isClass args
  | binary _ left right _ => isBare isClass left && isBare isClass right
  | unary _ operand _ => isBare isClass operand
  | conditional test ifTrue ifFalse _ =>
    isBare isClass test && isBare isClass ifTrue && isBare isClass ifFalse
  | cast operand _ => isBare isClass operand
  | element array _ _ => isBare isClass array
  | lambda _ body => isBare isClass body

def allBare (isClass : String → Bool) : List Expr → Bool
  | [] => true
  | e :: rest => isBare isClass e && allBare isClass rest

end

variable {isClass : String → Bool}

theorem class?_code {e : Expr} (h : e.isBare isClass = true) : e.code.class? isClass = none := by
  cases e with
  | var v =>
      have hname : isClass v.name = false := by simpa [isBare] using h
      simp [code, Code.class?, hname]
  | constant value ty =>
      rw [isBare] at h
      rw [code, (Code.expr_ofConstant isClass h).1]
  | _ => simp [code, Code.class?]

mutual

/-- **Bare expressions are found again in their code.** -/
theorem expr_code : (e : Expr) → e.isBare isClass = true → e.code.expr isClass = e.erased
  | constant value ty, h => by
      rw [isBare] at h
      rw [code, erased, (Code.expr_ofConstant isClass h).2]
  | var v, h => by rw [code, erased, Code.expr]
  | call target method args _, h => by
      rw [isBare, Bool.and_eq_true] at h
      rw [code, erased, Code.expr, class?_code h.1]
      simp only
      rw [expr_code target h.1, exprs_codes args h.2]
  | staticCall owner method args _, h => by
      rw [isBare, Bool.and_eq_true] at h
      rw [code, erased, Code.expr, Code.class?, if_pos h.1]
      simp only
      rw [exprs_codes args h.2]
  | construct ty args, h => by
      rw [isBare] at h
      rw [code, erased, Code.expr, exprs_codes args h]
  | binary o left right _, h => by
      rw [isBare, Bool.and_eq_true] at h
      rw [code, erased, Code.expr, expr_code left h.1, expr_code right h.2]
  | unary o operand _, h => by
      rw [isBare] at h
      rw [code, erased, Code.expr, expr_code operand h]
  | conditional condition ifTrue ifFalse _, h => by
      rw [isBare, Bool.and_eq_true, Bool.and_eq_true] at h
      rw [code, erased, Code.expr, expr_code condition h.1.1, expr_code ifTrue h.1.2,
        expr_code ifFalse h.2]
  | cast operand ty, h => by
      rw [isBare] at h
      rw [code, erased, Code.expr, expr_code operand h]
  | element array i _, h => by
      rw [isBare] at h
      rw [code, erased, Code.expr, expr_code array h]
  | lambda parameters body, h => by
      rw [isBare] at h
      rw [code, erased, Code.expr, List.map_map, expr_code body h]
      rfl

theorem exprs_codes : (es : List Expr) → allBare isClass es = true →
    Code.exprs isClass (codes es) = erasedAll es
  | [], _ => by rw [codes, Code.exprs, erasedAll]
  | e :: rest, h => by
      rw [allBare, Bool.and_eq_true] at h
      rw [codes, Code.exprs, erasedAll, expr_code e h.1, exprs_codes rest h.2]

end

theorem erased_eq_of_code_eq {e e' : Expr} (h : e.isBare isClass = true)
    (h' : e'.isBare isClass = true) (hcode : e.code = e'.code) : e.erased = e'.erased := by
  rw [← expr_code e h, hcode, expr_code e' h']

end Expr

end RowCode
