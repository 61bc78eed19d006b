import RowCode.Lowering.Aggregate

/-!
# Types of accumulators

COUNT and SUM start with a number of the type that they return and add to it, so that they stay in
that type however many rows there are. What is added has the type of the accumulator too, except
that SUM takes its argument as it is where the accumulator has arithmetic of its own.
-/

namespace RowCode

/-- A fold whose steps succeed and keep a property of what was folded so far. -/
theorem exists_foldlM {α β ε : Type} {f : β → α → Except ε β} {P : List α → β → Prop} {xs : List α}
    (hstep : ∀ done b x, x ∈ xs → P done b → ∃ b', f b x = .ok b' ∧ P (done ++ [x]) b')
    (done : List α) {b : β} (hstart : P done b) :
    ∃ b', xs.foldlM f b = .ok b' ∧ P (done ++ xs) b' := by
  induction xs generalizing done b with
  | nil => exact ⟨b, rfl, by rwa [List.append_nil]⟩
  | cons x rest ih =>
      obtain ⟨next, hnext, hkept⟩ := hstep done b x List.mem_cons_self hstart
      obtain ⟨last, hlast, hend⟩ :=
        ih (fun done b y hy => hstep done b y (List.mem_cons_of_mem _ hy)) (done ++ [x]) hkept
      refine ⟨last, ?_, by rwa [List.append_assoc] at hend⟩
      rw [List.foldlM_cons, hnext]
      exact hlast

/-- An addition to an accumulator: by its own method if it has arithmetic of its own, and else by the
native operator. -/
inductive Expr.IsAddition (acc operand : Expr) : Expr → Prop where
  | native (ty : HostType) (h : acc.ty.isArbitraryPrecision = false) :
      IsAddition acc operand (.binary .add acc operand ty)
  | method (ty : HostType) (h : acc.ty.isArbitraryPrecision = true) :
      IsAddition acc operand (.call acc "add" [operand] ty)

namespace Accumulator

theorem ty_number (n : Nat) (ty : HostType) : (number n ty).ty = ty := by
  cases ty with
  | primitive | boxed | decimal | bigInteger => rfl
  | string | object | array => exact Expr.ty_coerce _ _

theorem isAddition_plus (acc operand : Expr) :
    acc.IsAddition operand (plus acc operand) ∧ (plus acc operand).ty = acc.ty := by
  unfold plus
  split
  · rename_i hmethod
    exact ⟨.method acc.ty hmethod, rfl⟩
  · rename_i hnative
    exact ⟨.native acc.ty (Bool.eq_false_iff.mpr hnative), rfl⟩

/-- What COUNT and SUM add to an accumulator. -/
def operand (a : Accumulator) (acc argument : Expr) : Expr :=
  match a with
  | .sum => if acc.ty.isArbitraryPrecision then argument else argument.coerce acc.ty
  | _ => number 1 acc.ty

variable {a : Accumulator}

theorem add_eq (ha : a ≠ .extremum) (aggregate : AggregateFunction) (acc argument : Expr) :
    a.add aggregate acc [argument] = .ok (plus acc (a.operand acc argument)) := by
  cases a with
  | count => rfl
  | sum => rfl
  | extremum => exact absurd rfl ha

theorem ty_operand_iff (acc argument : Expr) : (a.operand acc argument).ty = acc.ty ↔
    (a = .sum → acc.ty.isArbitraryPrecision = true → argument.ty = acc.ty) := by
  cases a with
  | count => simp [operand, ty_number]
  | extremum => simp [operand, ty_number]
  | sum =>
      by_cases hmethod : acc.ty.isArbitraryPrecision = true
      · simp [operand, hmethod]
      · simp [operand, hmethod, Expr.ty_coerce]

theorem ty_init (ha : a ≠ .extremum) (returnType : HostType) :
    (a.init returnType).ty = returnType := by
  cases a with
  | count => exact ty_number 0 returnType
  | sum => exact ty_number 0 returnType
  | extremum => exact absurd rfl ha

/-- Adds arguments one after the other. -/
def addEach (a : Accumulator) (aggregate : AggregateFunction) (acc : Expr) (arguments : List Expr) :
    Except LoweringError Expr :=
  arguments.foldlM (fun acc argument => a.add aggregate acc [argument]) acc

theorem ty_of_addEach (ha : a ≠ .extremum) (aggregate : AggregateFunction) (acc : Expr)
    (arguments : List Expr) :
    ∃ e, a.addEach aggregate acc arguments = .ok e ∧ e.ty = acc.ty := by
  refine exists_foldlM (P := fun _ (e : Expr) => e.ty = acc.ty) (fun _ e argument _ he => ?_) [] rfl
  exact ⟨_, add_eq ha aggregate e argument, (isAddition_plus e _).2.trans he⟩

/-- **Additions keep the type.** COUNT and SUM start in the type that they return. To an accumulator
of that type they add an operand, which gives the same type, also after any number of additions. The
operand has the type as well, unless it is the argument of a SUM whose accumulator has arithmetic of
its own, and has another type. -/
theorem additions_keep_type (a : Accumulator) (ha : a ≠ .extremum) (aggregate : AggregateFunction)
    (returnType : HostType) :
    (a.init returnType).ty = returnType ∧
      ∀ acc : Expr, acc.ty = returnType →
        (∀ argument : Expr, ∃ operand e, a.add aggregate acc [argument] = .ok e ∧
          acc.IsAddition operand e ∧ e.ty = returnType ∧
          (operand.ty = returnType ↔
            (a = .sum → returnType.isArbitraryPrecision = true → argument.ty = returnType))) ∧
        ∀ arguments : List Expr, ∃ e, a.addEach aggregate acc arguments = .ok e ∧
          e.ty = returnType := by
  refine ⟨ty_init ha returnType, ?_⟩
  rintro acc rfl
  refine ⟨fun argument => ?_, ty_of_addEach ha aggregate acc⟩
  obtain ⟨haddition, hty⟩ := isAddition_plus acc (a.operand acc argument)
  exact ⟨_, _, add_eq ha aggregate acc argument, haddition, hty, ty_operand_iff acc argument⟩

/-- Two integers and a box are added to a `long`, which it stays. -/
theorem mixed_integers_stay_long :
    let x (ty : HostType) : Expr := .var ⟨"x", ty⟩
    ∃ e, Accumulator.sum.addEach .sum (Accumulator.sum.init .long)
        [x .int, x (.boxed .short), x (.primitive .byte)] = .ok e ∧ e.ty = .long := by
  intro x
  obtain ⟨hinit, hkept⟩ := additions_keep_type .sum (by decide) .sum .long
  exact (hkept _ hinit).2 _

/-- **An integer is added to a decimal as it is.** -/
theorem int_is_added_to_decimal :
    ∃ e, Accumulator.sum.add .sum (.var ⟨"acc", .decimal⟩) [.var ⟨"x", .int⟩] = .ok e ∧
      (Expr.var ⟨"acc", .decimal⟩).IsAddition (.var ⟨"x", .int⟩) e ∧
      (Expr.var ⟨"x", .int⟩).ty ≠ .decimal :=
  ⟨_, rfl, .method .decimal rfl, by decide⟩

end Accumulator

end RowCode
