import Mathlib.Algebra.Ring.Int.Defs
import RowCode.Proofs.AccumulatorTypes
import RowCode.Proofs.CaseBranches

/-!
# What accumulators compute

An accumulator is started, advanced row by row and read at the end; rows without an argument are
passed over. On a host with the integers of a machine, COUNT and SUM come to the number and the sum
of the arguments modulo `2 ^ 64`, and MIN and MAX to the least and the greatest argument, or to null
if there is none.
-/

namespace RowCode

namespace Value

/-- The primitive that holds the integer. -/
def integerKind? : Value → Option Primitive
  | .int8 _ => some .byte
  | .int16 _ => some .short
  | .int32 _ => some .int
  | .int64 _ => some .long
  | _ => none

/-- Whether the value is the number, held by the primitive or its box; no number is null. -/
def Stores (p : Primitive) (v : Value) : Option Int → Prop
  | none => v = .null
  | some n => v.integerKind? = some p ∧ v.integer? = some n

theorem exists_of_integerKind? {v : Value} {p : Primitive} (h : v.integerKind? = some p) :
    ∃ n, v.integer? = some n := by
  cases v with
  | int8 n => exact ⟨n.toInt, rfl⟩
  | int16 n => exact ⟨n.toInt, rfl⟩
  | int32 n => exact ⟨n.toInt, rfl⟩
  | int64 n => exact ⟨n.toInt, rfl⟩
  | null | boolean | float | double | decimal | string => cases h

theorem isNull_eq_false {v : Value} {n : Int} (hv : v.integer? = some n) : v.isNull = false := by
  rw [Bool.eq_false_iff]
  intro hnull
  rw [isNull_iff.mp hnull] at hv
  cases hv

theorem stores_long_iff {v : Value} {n : Int} :
    v.Stores .long (some n) ↔ ∃ m : Int64, v = .int64 m ∧ m.toInt = n := by
  constructor
  · rintro ⟨hkind, hn⟩
    cases v with
    | int64 m => exact ⟨m, rfl, Option.some.inj hn⟩
    | null | boolean | int8 | int16 | int32 | float | double | decimal | string => cases hkind
  · rintro ⟨m, rfl, rfl⟩
    exact ⟨rfl, rfl⟩

/-- The integers among the rows of a column. -/
def integers (rows : List Value) : List Int := rows.filterMap integer?

theorem integers_concat_null (rows : List Value) : integers (rows ++ [.null]) = integers rows := by
  rw [integers, List.filterMap_append]
  exact List.append_nil _

theorem integers_concat {rows : List Value} {v : Value} {n : Int} (hv : v.integer? = some n) :
    integers (rows ++ [v]) = integers rows ++ [n] := by
  rw [integers, List.filterMap_append, List.filterMap_cons_some hv]
  rfl

end Value

/-! ### Running an accumulator -/

/-- The variables of an accumulator: what it holds, and the argument of a row. -/
def Env.accumulation (current : Value) (argument : Option Value) : Env Value := fun name =>
  if name = "acc" then some current else if name = "arg" then argument else none

namespace Host

section Run

variable {ε : Type} (h : Host Value ε)

/-- The accumulator after one more row. A row without an argument is passed over, unless the
accumulator asks for it. -/
def advance (a : Accumulator) (next : Expr) (current row : Value) : Except ε Value :=
  if row.isNull && !a.addsNull then .ok current
  else h.eval (.accumulation current (some row)) next

/-- The aggregate of a column, row by row; it is an error of lowering if there is no code for it. -/
def accumulate (aggregate : AggregateFunction) (returnType argumentType : HostType)
    (rows : List Value) : Except LoweringError (Except ε Value) :=
  match aggregate.accumulator? with
  | none => .error (.unknownAggregate aggregate)
  | some a => do
    let acc : Expr := .var ⟨"acc", (a.init returnType).ty⟩
    let next ← a.add aggregate acc [.var ⟨"arg", argumentType⟩]
    pure do
      let first ← h.eval (fun _ => none) (a.init returnType)
      let last ← rows.foldlM (h.advance a next) first
      h.eval (.accumulation last none) (a.result acc)

variable {h} {a : Accumulator} {aggregate : AggregateFunction} {returnType argumentType : HostType}
  {next : Expr} {first : Value} {rows : List Value}

/-- **The run of an accumulator.** A property of the rows so far and of what the accumulator holds is one
of all rows and the result, if it holds at the start and every row keeps it. -/
theorem accumulate_keeps {P : List Value → Value → Prop} (hskips : a.addsNull = false)
    (haccumulator : aggregate.accumulator? = some a)
    (hadd : a.add aggregate (.var ⟨"acc", (a.init returnType).ty⟩) [.var ⟨"arg", argumentType⟩] =
      .ok next)
    (hfirst : h.eval (fun _ => none) (a.init returnType) = .ok first) (hstart : P [] first)
    (hskip : ∀ done current, P done current → P (done ++ [.null]) current)
    (hstep : ∀ done current row, row ∈ rows → row ≠ .null → P done current →
      ∃ y, h.eval (.accumulation current (some row)) next = .ok y ∧ P (done ++ [row]) y) :
    ∃ x, h.accumulate aggregate returnType argumentType rows = .ok (.ok x) ∧ P rows x := by
  have hrow : ∀ done current row, row ∈ rows → P done current →
      ∃ y, h.advance a next current row = .ok y ∧ P (done ++ [row]) y := by
    intro done current row hmem hkept
    by_cases hnull : row = .null
    · subst hnull
      refine ⟨current, ?_, hskip done current hkept⟩
      rw [advance, hskips]
      rfl
    · rw [advance, if_neg (by simp [Value.isNull_iff, hnull])]
      exact hstep done current row hmem hnull hkept
  obtain ⟨last, hlast, hkept⟩ := exists_foldlM hrow [] hstart
  refine ⟨last, ?_, hkept⟩
  simp only [accumulate, haccumulator, hadd, hfirst, hlast, bind, Except.bind, pure, Except.pure]
  rfl

end Run

/-! ### Hosts with the integers of a machine -/

/-- The method of the runtime picks one of two numbers of a kind. -/
def Picks {ε : Type} (h : Host Value ε) (method : String) (pick : Int → Int → Int) : Prop :=
  ∀ (p : Primitive) (v w : Value) (m n : Int), v.Stores p (some m) → w.Stores p (some n) →
    ∃ x, h.staticCall Expr.runtimeClass method [v, w] (.primitive p) = .ok x ∧
      x.Stores p (some (pick m n))

/-- What a host does with integers and null. Addition is that of 64 bits in two's complement. A number
stays the same as its primitive, in its box, and as a `long`. Nothing is asked of a null that is
unboxed: it may fail. -/
structure HasIntegers {ε : Type} (h : Host Value ε) : Prop where
  constant_null {ty : HostType} (hty : ty.isPrimitive = false) : h.constant .null ty = .ok .null
  constant_integer {v : Value} {p : Primitive} {ty : HostType} (hv : v.integerKind? = some p)
    (hty : ty.box = .boxed p) : h.constant v ty = .ok v
  equal_null (v : Value) : (h.binary .equal v .null .boolean >>= h.truth) = .ok v.isNull
  add (m n : Int64) : h.binary .add (.int64 m) (.int64 n) .long = .ok (.int64 (m + n))
  cast_own {v : Value} {p : Primitive} {ty : HostType} (hv : v.integerKind? = some p)
    (hty : ty.box = .boxed p) : h.cast v ty = .ok v
  cast_long {v : Value} {n : Int} (hv : v.integer? = some n) :
    h.cast v .long = .ok (.int64 (.ofInt n))
  read_long {v : Value} {n : Int} (hv : v.integer? = some n) :
    h.call v Primitive.long.valueMethod [] .long = .ok (.int64 (.ofInt n))
  lesser : h.Picks "lesser" min
  greater : h.Picks "greater" max

theorem box_eq_boxed_iff {ty : HostType} {p : Primitive} :
    ty.box = .boxed p ↔ ty = .primitive p ∨ ty = .boxed p := by
  cases ty with
  | primitive | boxed => simp [HostType.box]
  | string | decimal | bigInteger | object | array => simp [HostType.box]

theorem eval_acc {ε : Type} {h : Host Value ε} (ty : HostType) (current row : Value) :
    h.eval (.accumulation current (some row)) (.var ⟨"acc", ty⟩) = .ok current := by
  rw [eval]
  rfl

theorem eval_arg {ε : Type} {h : Host Value ε} (ty : HostType) (current row : Value) :
    h.eval (.accumulation current (some row)) (.var ⟨"arg", ty⟩) = .ok row := by
  rw [eval]
  rfl

namespace HasIntegers

variable {ε : Type} {h : Host Value ε} (hh : h.HasIntegers)

include hh

/-- A number keeps its value between a primitive and its box. -/
theorem convert_own {source target : HostType} {p : Primitive} {v : Value}
    (hsource : source.box = .boxed p) (htarget : target.box = .boxed p)
    (hv : v.integerKind? = some p) : h.convert source target v = .ok v := by
  unfold convert
  split
  · rfl
  · split
    · exact hh.cast_own hv htarget
    · rename_i hdifferent hreference
      rcases box_eq_boxed_iff.mp hsource with rfl | rfl
      · exact absurd rfl hreference
      · rcases box_eq_boxed_iff.mp htarget with rfl | rfl
        · simp only [HostType.unboxed?, if_true]
          exact hh.cast_own hv rfl
        · exact absurd rfl hdifferent

/-- A number becomes a `long`. -/
theorem convert_long {source : HostType} {p : Primitive} {v : Value} {n : Int}
    (hsource : source.box = .boxed p) (hv : v.Stores p (some n)) :
    h.convert source .long v = .ok (.int64 (.ofInt n)) := by
  obtain ⟨hkind, hn⟩ := hv
  unfold convert
  split
  · rename_i hsame
    subst hsame
    obtain rfl : Primitive.long = p := HostType.boxed.inj hsource
    obtain ⟨m, rfl, rfl⟩ := Value.stores_long_iff.mp ⟨hkind, hn⟩
    rw [Int64.ofInt_toInt]
  · split
    · exact hh.cast_long hn
    · rename_i hdifferent hreference
      rcases box_eq_boxed_iff.mp hsource with rfl | rfl
      · exact absurd rfl hreference
      · simp only [HostType.unboxed?]
        split
        · exact hh.cast_long hn
        · exact hh.read_long hn

/-! #### Adding -/

theorem eval_plus {ρ : Env Value} {acc operand : Expr} {current : Value} {sum n : Int}
    (hty : acc.ty = .long) (hacc : h.eval ρ acc = .ok current)
    (hcurrent : current.Stores .long (some (sum.bmod (2 ^ 64))))
    (hoperand : h.eval ρ operand = .ok (.int64 (.ofInt n))) :
    ∃ y, h.eval ρ (Accumulator.plus acc operand) = .ok y ∧
      y.Stores .long (some ((sum + n).bmod (2 ^ 64))) := by
  obtain ⟨m, rfl, hm⟩ := Value.stores_long_iff.mp hcurrent
  refine ⟨.int64 (m + .ofInt n), ?_, Value.stores_long_iff.mpr ⟨_, rfl, ?_⟩⟩
  · rw [Accumulator.plus, hty, if_neg (by decide), eval, hacc, hoperand]
    exact hh.add m (.ofInt n)
  · rw [Int64.toInt_add, hm, Int64.toInt_ofInt]
    exact (Int.add_bmod sum n (2 ^ 64)).symm

theorem eval_number (ρ : Env Value) (n : Nat) :
    h.eval ρ (Accumulator.number n .long) = .ok (.int64 (.ofInt n)) := by
  rw [Accumulator.number, eval, Accumulator.primitiveConstant, Int64.ofInt_eq_ofNat]
  exact hh.constant_integer (p := .long) rfl rfl

theorem count_rows (argumentType : HostType) (rows : List Value) :
    ∃ x, h.accumulate .count .long argumentType rows = .ok (.ok x) ∧
      x.Stores .long (some ((rows.countP fun row => !row.isNull : Int).bmod (2 ^ 64))) := by
  refine accumulate_keeps (a := .count) (P := fun done x => x.Stores .long
      (some ((done.countP fun row => !row.isNull : Int).bmod (2 ^ 64))))
    rfl rfl rfl (hh.eval_number _ 0) ⟨rfl, rfl⟩ (fun done current hcurrent => ?_)
    fun done current row _ hrow hcurrent => ?_
  · rwa [List.countP_append]
  · have hacc := eval_acc (h := h) .long current row
    obtain ⟨y, heval, hy⟩ := hh.eval_plus rfl hacc hcurrent (hh.eval_number _ 1)
    refine ⟨y, heval, ?_⟩
    have hcounts : (!row.isNull) = true := by
      rw [Bool.not_eq_true', Bool.eq_false_iff]
      exact mt Value.isNull_iff.mp hrow
    rw [List.countP_append, List.countP_singleton, if_pos hcounts, Int.natCast_add]
    exact hy

theorem sum_rows {argumentType : HostType} {p : Primitive} {rows : List Value}
    (hargument : argumentType.box = .boxed p)
    (hrows : ∀ row ∈ rows, row = .null ∨ row.integerKind? = some p) :
    ∃ x, h.accumulate .sum .long argumentType rows = .ok (.ok x) ∧
      x.Stores .long (some ((Value.integers rows).sum.bmod (2 ^ 64))) := by
  refine accumulate_keeps (a := .sum) (P := fun done x => x.Stores .long
      (some ((Value.integers done).sum.bmod (2 ^ 64))))
    rfl rfl rfl (hh.eval_number _ 0) ⟨rfl, rfl⟩ (fun done current hcurrent => ?_)
    fun done current row hmem hrow hcurrent => ?_
  · rwa [Value.integers_concat_null]
  · have hkind := (hrows row hmem).resolve_left hrow
    obtain ⟨n, hn⟩ := Value.exists_of_integerKind? hkind
    have hoperand : h.eval (.accumulation current (some row))
        ((Expr.var ⟨"arg", argumentType⟩).coerce .long) = .ok (.int64 (.ofInt n)) := by
      rw [eval_coerce, eval_arg]
      exact hh.convert_long hargument ⟨hkind, hn⟩
    have hacc := eval_acc (h := h) .long current row
    obtain ⟨y, heval, hy⟩ := hh.eval_plus rfl hacc hcurrent hoperand
    refine ⟨y, heval, ?_⟩
    rwa [Value.integers_concat hn, List.sum_append, List.sum_singleton]

/-! #### Picking -/

theorem eval_unbox {ρ : Env Value} {e : Expr} {v : Value} {p : Primitive}
    (hty : e.ty = .boxed p) (he : h.eval ρ e = .ok v) (hv : v.integerKind? = some p) :
    h.eval ρ e.unbox = .ok v ∧ e.unbox.ty = .primitive p := by
  have hunbox : e.unbox = e.coerce (.primitive p) := by
    rw [Expr.unbox, hty]
    rfl
  have hconvert : h.convert (.boxed p) (.primitive p) v = .ok v := hh.convert_own rfl rfl hv
  rw [hunbox, eval_coerce, he, hty]
  exact ⟨hconvert, Expr.ty_coerce e _⟩

/-- The first argument is taken as it is, and each later one is picked against what was found. -/
theorem eval_pick {ρ : Env Value} {acc argument : Expr} {current row : Value} {p : Primitive}
    {method : String} {pick : Int → Int → Int} {found : Option Int} {n : Int}
    (hpick : h.Picks method pick) (hty : acc.ty = .boxed p) (hbox : argument.ty.box = .boxed p)
    (hacc : h.eval ρ acc = .ok current) (hargument : h.eval ρ argument = .ok row)
    (hcurrent : current.Stores p found) (hrow : row.Stores p (some n)) :
    ∃ y, h.eval ρ (Accumulator.pick method acc argument) = .ok y ∧
      y.Stores p (some (found.elim n (pick · n))) := by
  have htest : (h.eval ρ (.equal acc .null) >>= h.truth) = .ok current.isNull := by
    have hnull : h.eval ρ .null = .ok .null := by
      rw [Expr.null, Expr.nullOf, eval]
      exact hh.constant_null rfl
    rw [← hh.equal_null, Expr.equal, Expr.operation, eval, hacc, hnull]
    rfl
  have heval : h.eval ρ (Accumulator.pick method acc argument) =
      if current.isNull then h.eval ρ argument
      else h.eval ρ ((Expr.runtimeCall method [acc.unbox, argument] acc.unbox.ty).coerce
        argument.ty) := by
    rw [Accumulator.pick, Expr.choose, eval, ← bind_assoc, htest]
    rfl
  rw [heval]
  cases found with
  | none =>
      obtain rfl : current = .null := hcurrent
      exact ⟨row, hargument, hrow⟩
  | some m =>
      obtain ⟨hunboxed, hunboxedTy⟩ := hh.eval_unbox hty hacc hcurrent.1
      obtain ⟨x, hx, hstored⟩ := hpick p current row m n hcurrent hrow
      refine ⟨x, ?_, hstored⟩
      rw [Value.isNull_eq_false hcurrent.2, if_neg Bool.false_ne_true, eval_coerce, hunboxedTy,
        Expr.runtimeCall, eval, evalAll, evalAll, evalAll, hunboxed, hargument]
      change (h.staticCall _ method [current, row] (.primitive p) >>= _) = _
      rw [hx]
      exact hh.convert_own rfl hbox hstored.1

end HasIntegers

/-- One of the numbers, picked from left to right. -/
def picked (pick : Int → Int → Int) : List Int → Option Int
  | [] => none
  | n :: rest => some (rest.foldl pick n)

theorem picked_concat (pick : Int → Int → Int) (ns : List Int) (n : Int) :
    picked pick (ns ++ [n]) = some ((picked pick ns).elim n (pick · n)) := by
  cases ns with
  | nil => rfl
  | cons m rest => simp [picked, List.foldl_append]

namespace HasIntegers

variable {ε : Type} {h : Host Value ε} (hh : h.HasIntegers)

include hh

theorem extremum_rows {aggregate : AggregateFunction} {method : String} {pick : Int → Int → Int}
    {returnType argumentType : HostType} {p : Primitive} {rows : List Value}
    (haccumulator : aggregate.accumulator? = some .extremum)
    (hmethod : Accumulator.pickMethod aggregate = .ok method) (hpick : h.Picks method pick)
    (hreturn : returnType.box = .boxed p) (hargument : argumentType.box = .boxed p)
    (hrows : ∀ row ∈ rows, row = .null ∨ row.integerKind? = some p) :
    ∃ x, h.accumulate aggregate returnType argumentType rows = .ok (.ok x) ∧
      x.Stores p (picked pick (Value.integers rows)) := by
  have hadd (acc argument : Expr) : Accumulator.extremum.add aggregate acc [argument] =
      .ok (Accumulator.pick method acc argument) := by
    rw [Accumulator.add, hmethod]
    rfl
  have hfirst : h.eval (fun _ => none) (Accumulator.extremum.init returnType) = .ok .null := by
    rw [Accumulator.init, hreturn, Expr.nullOf, eval]
    exact hh.constant_null rfl
  refine accumulate_keeps (P := fun done x => x.Stores p (picked pick (Value.integers done)))
    rfl haccumulator (hadd _ _) hfirst rfl (fun done current hcurrent => ?_)
    fun done current row hmem hrow hcurrent => ?_
  · rwa [Value.integers_concat_null]
  · have hkind := (hrows row hmem).resolve_left hrow
    obtain ⟨n, hn⟩ := Value.exists_of_integerKind? hkind
    rw [Value.integers_concat hn, picked_concat]
    exact hh.eval_pick hpick hreturn hargument (eval_acc _ current row) (eval_arg _ current row)
      hcurrent ⟨hkind, hn⟩

end HasIntegers

end Host

/-! ### A machine -/

/-- The integer in a primitive, if that holds integers. -/
def Value.ofInteger? (n : Int) : Primitive → Option Value
  | .byte => some (.int8 (.ofInt n))
  | .short => some (.int16 (.ofInt n))
  | .int => some (.int32 (.ofInt n))
  | .long => some (.int64 (.ofInt n))
  | .boolean | .char | .float | .double => none

def Value.readAs (v : Value) (p : Primitive) : Except Unit Value :=
  match v.integer?.bind (ofInteger? · p) with
  | some x => .ok x
  | none => .error ()

/-- Integers wrap around, and null is in no primitive. -/
def machineHost : Host Value Unit where
  unbound _ := ()
  constant v _ := .ok v
  call v method _ ty :=
    match ty with
    | .primitive p => if method = p.valueMethod then v.readAs p else .error ()
    | _ => .error ()
  staticCall _ method args _ :=
    match args.map fun v => (v, v.integer?) with
    | [(v, some m), (w, some n)] =>
      if method = "lesser" then .ok (if m ≤ n then v else w)
      else if method = "greater" then .ok (if m ≤ n then w else v)
      else .error ()
    | _ => .error ()
  construct _ _ := .error ()
  binary op v w _ :=
    match op, v, w with
    | .equal, v, w => .ok (.boolean (v = w))
    | .add, .int64 m, .int64 n => .ok (.int64 (m + n))
    | _, _, _ => .error ()
  unary _ _ _ := .error ()
  cast v ty :=
    match ty.box with
    | .boxed p => if v.isNull && !ty.isPrimitive then .ok .null else v.readAs p
    | _ => .ok v
  element _ _ _ := .error ()
  lambda _ _ := .error ()
  truth v :=
    match v with
    | .boolean b => .ok b
    | _ => .error ()
  ofBool := .boolean

theorem Value.readAs_own {v : Value} {p : Primitive} (hv : v.integerKind? = some p) :
    v.readAs p = .ok v := by
  cases v with
  | int8 n =>
      cases hv
      exact congrArg (fun m => Except.ok (Value.int8 m)) (Int8.ofInt_toInt n)
  | int16 n =>
      cases hv
      exact congrArg (fun m => Except.ok (Value.int16 m)) (Int16.ofInt_toInt n)
  | int32 n =>
      cases hv
      exact congrArg (fun m => Except.ok (Value.int32 m)) (Int32.ofInt_toInt n)
  | int64 n =>
      cases hv
      exact congrArg (fun m => Except.ok (Value.int64 m)) (Int64.ofInt_toInt n)
  | null | boolean | float | double | decimal | string => cases hv

theorem machineHost_cast {v : Value} {n : Int} {p : Primitive} {ty : HostType}
    (hv : v.integer? = some n) (hty : ty.box = .boxed p) :
    machineHost.cast v ty = v.readAs p := by
  simp [machineHost, hty, Value.isNull_eq_false hv]

theorem machineHost_hasIntegers : machineHost.HasIntegers where
  constant_null _ := rfl
  constant_integer _ _ := rfl
  equal_null v := by cases v <;> rfl
  add _ _ := rfl
  cast_own hv hty := by
    obtain ⟨n, hn⟩ := Value.exists_of_integerKind? hv
    rw [machineHost_cast hn hty, Value.readAs_own hv]
  cast_long hv := by
    rw [machineHost_cast hv rfl, Value.readAs, hv]
    rfl
  read_long {v n} hv := by
    change v.readAs .long = _
    rw [Value.readAs, hv]
    rfl
  lesser p v w m n hv hw := by
    refine ⟨if m ≤ n then v else w, ?_, ?_⟩
    · simp [machineHost, hv.2, hw.2]
    · rw [min_def]
      split
      · exact hv
      · exact hw
  greater p v w m n hv hw := by
    refine ⟨if m ≤ n then w else v, ?_, ?_⟩
    · simp [machineHost, hv.2, hw.2]
    · rw [max_def]
      split
      · exact hw
      · exact hv

/-! ### Aggregates of columns -/

/-- **Accumulators aggregate.** On a host with integers, adding the rows of a column one by one gives
its aggregate. COUNT is the number of rows that are not null, and SUM is the sum of the integers of a
primitive or its box, both as a `long` modulo `2 ^ 64`. MIN and MAX are the least and the greatest of
them in their own type, and null if there are none. -/
theorem Host.HasIntegers.accumulators_aggregate {ε : Type} {h : Host Value ε}
    (hh : h.HasIntegers) (argumentType : HostType) (rows : List Value) :
    (∃ x, h.accumulate .count .long argumentType rows = .ok (.ok x) ∧
      x.Stores .long (some ((rows.countP fun row => !row.isNull : Int).bmod (2 ^ 64)))) ∧
      ∀ p, argumentType.box = .boxed p →
        (∀ row ∈ rows, row = .null ∨ row.integerKind? = some p) →
        (∃ x, h.accumulate .sum .long argumentType rows = .ok (.ok x) ∧
          x.Stores .long (some ((Value.integers rows).sum.bmod (2 ^ 64)))) ∧
        ∀ returnType : HostType, returnType.box = .boxed p →
          (∃ x, h.accumulate .min returnType argumentType rows = .ok (.ok x) ∧
            x.Stores p (Value.integers rows).min?) ∧
          ∃ x, h.accumulate .max returnType argumentType rows = .ok (.ok x) ∧
            x.Stores p (Value.integers rows).max? := by
  refine ⟨hh.count_rows argumentType rows, fun p hargument hrows => ?_⟩
  refine ⟨hh.sum_rows hargument hrows, fun returnType hreturn => ⟨?_, ?_⟩⟩
  · have hleast (ns : List Int) : Host.picked min ns = ns.min? := by cases ns <;> rfl
    rw [← hleast]
    exact hh.extremum_rows rfl rfl hh.lesser hreturn hargument hrows
  · have hgreatest (ns : List Int) : Host.picked max ns = ns.max? := by cases ns <;> rfl
    rw [← hgreatest]
    exact hh.extremum_rows rfl rfl hh.greater hreturn hargument hrows

/-- Twice the greatest `long` wraps around. Two rows are counted, and the greatest of them is that
number. -/
theorem greatest_longs_wrap :
    let rows : List Value := [.null, .int64 Int64.maxValue, .null, .int64 Int64.maxValue]
    (∃ x, machineHost.accumulate .count .long (.boxed .long) rows = .ok (.ok x) ∧
      x.Stores .long (some 2)) ∧
      (∃ x, machineHost.accumulate .sum .long (.boxed .long) rows = .ok (.ok x) ∧
        x.Stores .long (some (-2))) ∧
      ∃ x, machineHost.accumulate .max .long (.boxed .long) rows = .ok (.ok x) ∧
        x.Stores .long (some 9223372036854775807) := by
  intro rows
  obtain ⟨hcount, haggregates⟩ := Host.HasIntegers.accumulators_aggregate machineHost_hasIntegers
    (.boxed .long) rows
  obtain ⟨hsum, hextrema⟩ := haggregates .long rfl (by decide)
  have htwo : (rows.countP fun row => !row.isNull) = 2 := by decide
  rw [htwo] at hcount
  exact ⟨hcount, hsum, (hextrema .long rfl).2⟩

end RowCode
