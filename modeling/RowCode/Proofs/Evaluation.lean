import Mathlib.Logic.Function.Basic
import RowCode.Proofs.Expansion

/-!
# Evaluating generated code

Declarations run in order and the first one that fails ends the run. Only conditionals and the logical
operators leave operands unevaluated. Everything else, values and faults included, is left to the
host. Running the declarations of a block then comes to evaluating what their initializers expand to.
-/

namespace RowCode

/-- How a host computes with values of its own. -/
structure Host (ν ε : Type) where
  unbound : String → ε
  constant : Value → HostType → Except ε ν
  call : ν → String → List ν → HostType → Except ε ν
  staticCall : String → String → List ν → HostType → Except ε ν
  construct : HostType → List ν → Except ε ν
  binary : BinaryOp → ν → ν → HostType → Except ε ν
  unary : UnaryOp → ν → HostType → Except ε ν
  cast : ν → HostType → Except ε ν
  element : ν → Nat → HostType → Except ε ν
  lambda : List Variable → (List ν → Except ε ν) → Except ε ν
  truth : ν → Except ε Bool
  ofBool : Bool → ν

/-- The truth of the left operand that makes an operator skip the right one. -/
def BinaryOp.decidedBy? : BinaryOp → Option Bool
  | .andAlso => some false
  | .orElse => some true
  | _ => none

abbrev Env (ν : Type) := String → Option ν

def Env.bindAll {ν : Type} (ρ : Env ν) (parameters : List Variable) (values : List ν) : Env ν :=
  fun name => ((parameters.map Variable.name).zip values).lookup name |>.or (ρ name)

namespace Host

variable {ν ε : Type} (h : Host ν ε)

mutual

def eval (ρ : Env ν) : Expr → Except ε ν
  | .constant value ty => h.constant value ty
  | .var v =>
    match ρ v.name with
    | some x => .ok x
    | none => .error (h.unbound v.name)
  | .call target method args ty => do
    let x ← eval ρ target
    let xs ← evalAll ρ args
    h.call x method xs ty
  | .staticCall owner method args ty => do
    let xs ← evalAll ρ args
    h.staticCall owner method xs ty
  | .construct ty args => do
    let xs ← evalAll ρ args
    h.construct ty xs
  | .binary op left right ty => do
    let x ← eval ρ left
    match op.decidedBy? with
    | none => do
      let y ← eval ρ right
      h.binary op x y ty
    | some decided => do
      let holds ← h.truth x
      if holds = decided then .ok (h.ofBool holds)
      else do
        let y ← eval ρ right
        let holds ← h.truth y
        .ok (h.ofBool holds)
  | .unary op operand ty => do
    let x ← eval ρ operand
    h.unary op x ty
  | .conditional test ifTrue ifFalse _ => do
    let x ← eval ρ test
    let holds ← h.truth x
    if holds then eval ρ ifTrue else eval ρ ifFalse
  | .cast operand ty => do
    let x ← eval ρ operand
    h.cast x ty
  | .element array index ty => do
    let x ← eval ρ array
    h.element x index ty
  | .lambda parameters body => h.lambda parameters fun values => eval (ρ.bindAll parameters values) body

def evalAll (ρ : Env ν) : List Expr → Except ε (List ν)
  | [] => .ok []
  | e :: rest => do
    let x ← eval ρ e
    let xs ← evalAll ρ rest
    .ok (x :: xs)

end

def run : List Declaration → Env ν → Except ε (Env ν)
  | [], ρ => .ok ρ
  | d :: rest, ρ => do
    let x ← h.eval ρ d.init
    run rest (Function.update ρ d.name (some x))

variable {h} {ρ ρ₀ ρ' : Env ν} {f : Expr → Expr} {row : Variable} {b : Block} {e : Expr}

theorem evalAll_map {es : List Expr} (hes : ∀ e ∈ es, h.eval ρ e = h.eval ρ₀ (f e)) :
    h.evalAll ρ es = h.evalAll ρ₀ (es.map f) := by
  induction es with
  | nil => rfl
  | cons e rest ih =>
      rw [List.map_cons, evalAll, evalAll, hes e List.mem_cons_self,
        ih fun e he => hes e (List.mem_cons_of_mem _ he)]

theorem compositional_eval (hf : Expr.Homomorphism f) :
    Expr.Compositional fun e => h.eval ρ e = h.eval ρ₀ (f e) where
  constant _ _ := by rw [hf.constant, eval, eval]
  call _ _ _ htarget hargs := by rw [hf.call, eval, eval, htarget, evalAll_map hargs]
  staticCall _ _ _ _ hargs := by rw [hf.staticCall, eval, eval, evalAll_map hargs]
  construct _ _ hargs := by rw [hf.construct, eval, eval, evalAll_map hargs]
  binary _ _ _ _ hleft hright := by rw [hf.binary, eval, eval, hleft, hright]
  unary _ _ _ hoperand := by rw [hf.unary, eval, eval, hoperand]
  conditional _ htest htrue hfalse := by
    rw [hf.conditional, eval, eval, htest, htrue, hfalse]
  cast _ hoperand := by rw [hf.cast, eval, eval, hoperand]
  element _ _ harray := by rw [hf.element, eval, eval, harray]

/-- The variables that are visible have the values that they expand to where there is only the row. -/
def Agrees (h : Host ν ε) (row : Variable) (b : Block) (ρ₀ ρ : Env ν)
    (statements : List Declaration) : Prop :=
  ∀ v ∈ Block.visible [row] statements,
    ∃ x, ρ v.name = some x ∧ h.eval ρ₀ (b.expand (.var v)) = .ok x

/-- **Evaluating before or after expanding.** -/
theorem Agrees.eval_eq {statements : List Declaration} (hagrees : h.Agrees row b ρ₀ ρ statements)
    (he : Block.Tame row statements e) : h.eval ρ e = h.eval ρ₀ (b.expand e) := by
  refine (compositional_eval b.homomorphism_expand).of_firstOrder e he.firstOrder fun v hv => ?_
  obtain ⟨x, hx, hexpanded⟩ := hagrees v (he.inScope v hv)
  rw [eval, hx, hexpanded]

theorem agrees_nil (hb : b.Traceable row) (hrow : (ρ₀ row.name).isSome) :
    h.Agrees row b ρ₀ ρ₀ [] := by
  intro v hv
  obtain ⟨x, hx⟩ := Option.isSome_iff_exists.mp hrow
  rw [Block.visible, List.map_nil, List.append_nil] at hv
  rw [List.mem_singleton.mp hv, hb.expand_row, eval, hx]
  exact ⟨x, rfl, rfl⟩

theorem Agrees.declare (hb : b.Traceable row) {before rest : List Declaration} {d : Declaration}
    (hsplit : b.statements = before ++ d :: rest) (hagrees : h.Agrees row b ρ₀ ρ before) {x : ν}
    (hx : h.eval ρ d.init = .ok x) :
    h.Agrees row b ρ₀ (Function.update ρ d.name (some x)) (before ++ [d]) := by
  have hd : d ∈ b.statements := hsplit ▸ List.mem_append_right _ List.mem_cons_self
  have hinit : Block.Tame row before d.init :=
    ⟨hb.wellScoped.ordered _ _ _ hsplit, hb.firstOrder d hd⟩
  have hother : ∀ v ∈ Block.visible [row] before, v.name ≠ d.name := by
    intro v hv
    rcases List.mem_append.mp hv with hinput | hdeclared
    · rw [List.mem_singleton.mp hinput]
      exact (hb.reserved.undeclared d hd).symm
    · obtain ⟨d', hd', rfl⟩ := List.mem_map.mp hdeclared
      intro hsame
      have hdistinct := hb.wellScoped.distinct
      rw [hsplit, List.map_append, List.map_cons] at hdistinct
      exact List.disjoint_of_nodup_append hdistinct (List.mem_map_of_mem (f := Declaration.name) hd')
        (List.mem_cons.mpr (Or.inl hsame))
  intro v hv
  rw [Block.visible, List.map_append, ← List.append_assoc] at hv
  rcases List.mem_append.mp hv with hold | hlast
  · rw [Function.update_of_ne (hother v hold)]
    exact hagrees v hold
  · obtain rfl := List.mem_singleton.mp hlast
    refine ⟨x, Function.update_self _ _ _, ?_⟩
    rw [hb.expand_target hd, ← hagrees.eval_eq hinit, hx]

/-- **What a run of declarations comes to.** It succeeds if what the initializers expand to can be
evaluated, and only then; after it, variables have the values they expand to. -/
theorem run_iff (hb : b.Traceable row) {before rest more : List Declaration}
    (hsplit : b.statements = before ++ (rest ++ more)) (hagrees : h.Agrees row b ρ₀ ρ before) :
    ((∃ ρ', h.run rest ρ = .ok ρ') ↔ ∀ d ∈ rest, ∃ x, h.eval ρ₀ (b.expand d.init) = .ok x) ∧
      ∀ ρ', h.run rest ρ = .ok ρ' → h.Agrees row b ρ₀ ρ' (before ++ rest) := by
  induction rest generalizing before ρ with
  | nil =>
      refine ⟨⟨by simp, fun _ => ⟨ρ, rfl⟩⟩, ?_⟩
      intro ρ' hrun
      rw [← Except.ok.inj hrun, List.append_nil]
      exact hagrees
  | cons d rest ih =>
      have hd : d ∈ b.statements := hsplit ▸ List.mem_append_right _ List.mem_cons_self
      have hinit : h.eval ρ d.init = h.eval ρ₀ (b.expand d.init) :=
        hagrees.eval_eq ⟨hb.wellScoped.ordered _ _ _ hsplit, hb.firstOrder d hd⟩
      rw [run, List.forall_mem_cons, ← hinit]
      cases heval : h.eval ρ d.init with
      | error fault =>
          refine ⟨⟨?_, ?_⟩, ?_⟩
          · rintro ⟨ρ', hrun⟩
            cases hrun
          · rintro ⟨⟨x, hx⟩, -⟩
            cases hx
          · intro ρ' hrun
            cases hrun
      | ok x =>
          have hnext : b.statements = (before ++ [d]) ++ (rest ++ more) := by
            rw [hsplit, List.append_assoc]
            rfl
          obtain ⟨hsucceeds, hagrees'⟩ := ih hnext (hagrees.declare hb hsplit heval)
          rw [List.append_assoc, List.singleton_append] at hagrees'
          refine ⟨?_, hagrees'⟩
          exact hsucceeds.trans ⟨fun hrest => ⟨⟨x, rfl⟩, hrest⟩, fun hall => hall.2⟩

/-- **Running on.** The same for declarations that run after others; what these expand to could be
evaluated. -/
theorem run_added_iff (hb : b.Traceable row) {old added : List Declaration}
    (hsplit : b.statements = old ++ added) (hrow : (ρ₀ row.name).isSome)
    (hold : h.run old ρ₀ = .ok ρ) :
    (∀ d ∈ old, ∃ x, h.eval ρ₀ (b.expand d.init) = .ok x) ∧
      ((∃ ρ', h.run added ρ = .ok ρ') ↔ ∀ d ∈ added, ∃ x, h.eval ρ₀ (b.expand d.init) = .ok x) ∧
      ∀ ρ', h.run added ρ = .ok ρ' → h.Agrees row b ρ₀ ρ' b.statements := by
  have hsplitOld : b.statements = [] ++ (old ++ added) := hsplit
  have hsplitAdded : b.statements = old ++ (added ++ []) := by rw [hsplit, List.append_nil]
  obtain ⟨hrunOld, hagrees⟩ := run_iff hb hsplitOld (agrees_nil hb hrow)
  obtain ⟨hrunAdded, hagrees'⟩ := run_iff hb hsplitAdded (hagrees ρ hold)
  rw [← hsplit] at hagrees'
  exact ⟨hrunOld.mp ⟨ρ, hold⟩, hrunAdded, hagrees'⟩

end Host

end RowCode
