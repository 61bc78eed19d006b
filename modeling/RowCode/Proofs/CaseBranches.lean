import RowCode.Proofs.Hoisting
import RowCode.Proofs.Lookups

/-!
# Which branch a CASE takes

The conditions of a CASE are true, false or null. The code reads them as booleans of the host, one
after the other, until one is true. A condition that is false is passed over. One that is null cannot
be read, and with it the code fails, though a later branch or the last result could be taken.
-/

namespace RowCode

namespace Host

variable {ν ε : Type} (h : Host ν ε)

/-- Brings a value of the source type to the target type, by the boxing rules. -/
def convert (source target : HostType) (x : ν) : Except ε ν :=
  if source = target then .ok x
  else if source.isPrimitive then h.cast x target
  else
    match target with
    | .primitive p =>
      match source.unboxed? with
      | none => do
        let boxed ← h.cast x (.boxed p)
        h.call boxed p.valueMethod [] (.primitive p)
      | some q =>
        if q = p then h.cast x (.primitive p) else h.call x p.valueMethod [] (.primitive p)
    | target => h.cast x target

/-- **Coercing an expression converts its value.** -/
theorem eval_coerce (ρ : Env ν) (e : Expr) (target : HostType) :
    h.eval ρ (e.coerce target) = h.eval ρ e >>= h.convert e.ty target := by
  unfold Expr.coerce convert
  by_cases hsame : e.ty = target
  · simp only [if_pos hsame]
    exact (bind_pure _).symm
  · by_cases hprimitive : e.ty.isPrimitive
    · simp only [if_neg hsame, if_pos hprimitive, eval]
    · simp only [if_neg hsame, if_neg hprimitive]
      cases target with
      | primitive p =>
          unfold Expr.readAs
          cases e.ty.unboxed? with
          | none => simp only [eval, evalAll, bind_assoc]; rfl
          | some q =>
              by_cases hq : q = p
              · simp only [if_pos hq, eval]
              · simp only [if_neg hq, eval, evalAll]; rfl
      | boxed | string | decimal | bigInteger | object | array => simp only [eval]

/-- What the host does with null and with truth values where code reads them. Null is no truth value,
it is kept by casts to reference types, and every other use of it fails. A truth value stays what it
is as `boolean` and in its box. -/
structure Unboxes (null : ν) : Prop where
  truth_null : ∃ fault, h.truth null = .error fault
  cast_null (ty : HostType) (hty : ty.isPrimitive = false) : h.cast null ty = .ok null
  cast_null_primitive (p : Primitive) : ∃ fault, h.cast null (.primitive p) = .error fault
  call_null (method : String) (args : List ν) (ty : HostType) :
    ∃ fault, h.call null method args ty = .error fault
  cast_truth {x : ν} {holds : Bool} (hx : h.truth x = .ok holds) (ty : HostType)
    (hty : ty.box = .boxed .boolean) : ∃ y, h.cast x ty = .ok y ∧ h.truth y = .ok holds
  read_truth {x : ν} {holds : Bool} (hx : h.truth x = .ok holds) :
    ∃ y, h.call x Primitive.boolean.valueMethod [] .boolean = .ok y ∧ h.truth y = .ok holds

/-- Whether a value is the given verdict of a condition: true, false or null. -/
def Judges (null x : ν) : Option Bool → Prop
  | some holds => h.truth x = .ok holds
  | none => x = null

variable {h} {null x : ν} {ρ : Env ν} {test e e' : Expr}

namespace Unboxes

variable (hnull : h.Unboxes null)

include hnull

theorem convert_truth {holds : Bool} (hx : h.truth x = .ok holds) (source : HostType) :
    ∃ y, h.convert source .boolean x = .ok y ∧ h.truth y = .ok holds := by
  unfold convert
  split
  · exact ⟨x, rfl, hx⟩
  · split
    · exact hnull.cast_truth hx _ rfl
    · dsimp only
      split
      · obtain ⟨y, hcast, hy⟩ := hnull.cast_truth hx (.boxed .boolean) rfl
        rw [hcast]
        exact hnull.read_truth hy
      · split
        · exact hnull.cast_truth hx _ rfl
        · exact hnull.read_truth hx

/-- **Null cannot be read as a boolean.** -/
theorem convert_null (source : HostType) :
    ∃ fault, (h.convert source .boolean null >>= h.truth) = .error fault := by
  have hcast := hnull.cast_null_primitive .boolean
  have hcall := hnull.call_null Primitive.boolean.valueMethod [] .boolean
  have hfails : ∀ y : Except ε ν, (∃ fault, y = .error fault) →
      ∃ fault, (y >>= h.truth) = .error fault := by
    rintro y ⟨fault, rfl⟩
    exact ⟨fault, rfl⟩
  unfold convert
  split
  · exact hnull.truth_null
  · split
    · exact hfails _ hcast
    · dsimp only
      split
      · rw [hnull.cast_null _ rfl]
        exact hfails _ hcall
      · split
        · exact hfails _ hcast
        · exact hfails _ hcall

theorem eval_choose_of_truth {holds : Bool} (heval : h.eval ρ test = .ok x)
    (hx : h.truth x = .ok holds) :
    h.eval ρ (.choose (test.coerce .boolean) e e') =
      if holds then h.eval ρ e else h.eval ρ e' := by
  obtain ⟨y, hconvert, hy⟩ := hnull.convert_truth hx test.ty
  calc
    h.eval ρ (.choose (test.coerce .boolean) e e') =
        ((h.eval ρ test >>= h.convert test.ty .boolean) >>= fun y => h.truth y >>= fun holds =>
          if holds then h.eval ρ e else h.eval ρ e') := by
      rw [← eval_coerce]
      rfl
    _ = if holds then h.eval ρ e else h.eval ρ e' := by
      rw [heval]
      change (h.convert test.ty .boolean x >>= _) = _
      rw [hconvert]
      change (h.truth y >>= _) = _
      rw [hy]
      rfl

theorem eval_choose_of_null (heval : h.eval ρ test = .ok null) :
    ∃ fault, h.eval ρ (.choose (test.coerce .boolean) e e') = .error fault := by
  obtain ⟨fault, hfault⟩ := hnull.convert_null test.ty
  refine ⟨fault, ?_⟩
  calc
    h.eval ρ (.choose (test.coerce .boolean) e e') =
        (((h.eval ρ test >>= h.convert test.ty .boolean) >>= h.truth) >>= fun holds =>
          if holds then h.eval ρ e else h.eval ρ e') := by
      rw [← eval_coerce, bind_assoc]
      rfl
    _ = .error fault := by
      rw [heval]
      change ((h.convert test.ty .boolean null >>= h.truth) >>= _) = _
      rw [hfault]
      rfl

end Unboxes

end Host

/-! ### Branches -/

theorem Strategy.caseChain_cons (ty : HostType) (pair : Expr × Expr) (rest : List (Expr × Expr))
    (last : Expr) :
    caseChain ty (pair :: rest) last =
      .choose (pair.1.coerce .boolean) (pair.2.coerce ty) (caseChain ty rest last) := rfl

theorem pairUp?_forall₂ {α β : Type} {R : α → β → Prop} {xs : List α} {ys : List β}
    (hitems : List.Forall₂ R xs ys) {pairs : List (α × α)} {last : α}
    (hpairs : pairUp? xs = some (pairs, last)) :
    ∃ pairs' last', pairUp? ys = some (pairs', last') ∧
      List.Forall₂ (fun pair pair' => R pair.1 pair'.1 ∧ R pair.2 pair'.2) pairs pairs' ∧
        R last last' := by
  fun_induction pairUp? xs generalizing ys pairs with
  | case1 => cases hpairs
  | case2 only =>
      obtain ⟨rfl, rfl⟩ := Prod.mk.inj (Option.some.inj hpairs)
      cases hitems with
      | cons honly hnil =>
          cases hnil
          exact ⟨[], _, rfl, .nil, honly⟩
  | case3 first second rest ih =>
      obtain ⟨⟨pairs, last⟩, hrest, heq⟩ := Option.map_eq_some_iff.mp hpairs
      obtain ⟨rfl, rfl⟩ := Prod.mk.inj heq
      cases hitems with
      | cons hfirst htail =>
          cases htail with
          | cons hsecond hitems =>
              obtain ⟨pairs', last', hpairs', hall, hlast⟩ := ih hitems hrest
              refine ⟨(_, _) :: pairs', last', ?_, .cons ⟨hfirst, hsecond⟩ hall, hlast⟩
              rw [pairUp?, hpairs']
              rfl

namespace Node

/-- The branches of a CASE that come before the first one whose condition is true. -/
def passedOver (verdict : Node → Option Bool) (branches : List (Node × Node)) :
    List (Node × Node) :=
  branches.takeWhile fun branch => verdict branch.1 ≠ some true

/-- The result of the first branch whose condition is true, and else the last result. -/
def taken (verdict : Node → Option Bool) (branches : List (Node × Node)) (otherwise : Node) :
    Node :=
  ((branches.find? fun branch => verdict branch.1 = some true).map Prod.snd).getD otherwise

variable {verdict : Node → Option Bool} {branch : Node × Node} {rest : List (Node × Node)}
  {otherwise : Node}

theorem passedOver_of_true (htrue : verdict branch.1 = some true) :
    passedOver verdict (branch :: rest) = [] :=
  List.takeWhile_cons_of_neg (by simp [htrue])

theorem passedOver_of_not_true (hnot : verdict branch.1 ≠ some true) :
    passedOver verdict (branch :: rest) = branch :: passedOver verdict rest :=
  List.takeWhile_cons_of_pos (by simp [hnot])

theorem taken_of_true (htrue : verdict branch.1 = some true) :
    taken verdict (branch :: rest) otherwise = branch.2 := by
  rw [taken, List.find?_cons_of_pos (by simp [htrue])]
  rfl

theorem taken_of_not_true (hnot : verdict branch.1 ≠ some true) :
    taken verdict (branch :: rest) otherwise = taken verdict rest otherwise := by
  rw [taken, List.find?_cons_of_neg (by simp [hnot]), taken]

end Node

namespace Host

open Node

variable {ν ε : Type} {h : Host ν ε} {null : ν} {ρ : Env ν} {verdict : Node → Option Bool}
  {V : Node → Expr → Prop} {branches : List (Node × Node)} {pairs : List (Expr × Expr)}
  {otherwise : Node} {last : Expr}

/-- **The chain of conditionals**, for branches whose expressions stand for their nodes. -/
theorem eval_caseChain (hnull : h.Unboxes null) (ty : HostType)
    (hpairs :
      List.Forall₂ (fun branch pair => V branch.1 pair.1 ∧ V branch.2 pair.2) branches pairs)
    (hlast : V otherwise last)
    (hjudged : ∀ branch ∈ branches, ∀ e, V branch.1 e →
      ∃ x, h.eval ρ e = .ok x ∧ h.Judges null x (verdict branch.1)) :
    ((∀ branch ∈ passedOver verdict branches, verdict branch.1 ≠ none) →
      ∃ e, V (taken verdict branches otherwise) e ∧
        h.eval ρ (Strategy.caseChain ty pairs last) = h.eval ρ e >>= h.convert e.ty ty) ∧
    ((∃ branch ∈ passedOver verdict branches, verdict branch.1 = none) →
      ∃ fault, h.eval ρ (Strategy.caseChain ty pairs last) = .error fault) := by
  induction hpairs with
  | nil =>
      refine ⟨fun _ => ⟨last, hlast, h.eval_coerce ρ last ty⟩, ?_⟩
      rintro ⟨branch, hmem, -⟩
      cases hmem
  | @cons branch pair branches pairs hpair _ ih =>
      obtain ⟨hfirst, hrest⟩ := List.forall_mem_cons.mp hjudged
      obtain ⟨hfound, hfails⟩ := ih hrest
      obtain ⟨x, hx, hjudges⟩ := hfirst pair.1 hpair.1
      rw [Strategy.caseChain_cons]
      cases hverdict : verdict branch.1 with
      | none =>
          rw [hverdict] at hjudges
          obtain rfl : x = null := hjudges
          have hnot : verdict branch.1 ≠ some true :=
            hverdict ▸ (Option.some_ne_none true).symm
          rw [passedOver_of_not_true hnot]
          refine ⟨fun hall => absurd hverdict (hall branch List.mem_cons_self), fun _ => ?_⟩
          exact hnull.eval_choose_of_null hx
      | some holds =>
          rw [hverdict] at hjudges
          rw [hnull.eval_choose_of_truth hx hjudges]
          cases holds with
          | true =>
              rw [passedOver_of_true hverdict, taken_of_true hverdict]
              refine ⟨fun _ => ⟨pair.2, hpair.2, h.eval_coerce ρ pair.2 ty⟩, ?_⟩
              rintro ⟨branch, hmem, -⟩
              cases hmem
          | false =>
              have hnot : verdict branch.1 ≠ some true := by rw [hverdict]; decide
              rw [passedOver_of_not_true hnot, taken_of_not_true hnot]
              refine ⟨fun hall => hfound (List.forall_mem_cons.mp hall).2, ?_⟩
              rintro ⟨passed, hmem, hnone⟩
              rcases List.mem_cons.mp hmem with rfl | hmem
              · rw [hverdict] at hnone
                cases hnone
              · exact hfails ⟨passed, hmem, hnone⟩

end Host

namespace PlainContext

variable {c : PlainContext} {node : Node} {e : Expr} {branches : List (Node × Node)}
  {otherwise : Node}

theorem of_mapM_ok {α β ε : Type} {f : α → Except ε β} {xs : List α} {ys : List β}
    (hmap : xs.mapM f = .ok ys) : List.Forall₂ (fun x y => f x = .ok y) xs ys := by
  induction xs generalizing ys with
  | nil =>
      cases hmap
      exact .nil
  | cons x rest ih =>
      rw [List.mapM_cons] at hmap
      cases hx : f x with
      | error e =>
          rw [hx] at hmap
          cases hmap
      | ok y =>
          cases hrest : rest.mapM f with
          | error e =>
              rw [hx, hrest] at hmap
              cases hmap
          | ok ys' =>
              rw [hx, hrest] at hmap
              obtain rfl := Except.ok.inj hmap
              exact .cons hx (ih hrest)

/-- **The tree of a CASE** is a chain of conditionals over the trees of its branches. -/
theorem tree_case (hop : node.operator? = some .case)
    (hbranches : pairUp? node.children = some (branches, otherwise)) (htree : c.tree node = .ok e) :
    ∃ pairs last, e = Strategy.caseChain (c.adapter node.ty) pairs last ∧
      List.Forall₂ (fun branch pair => c.tree branch.1 = .ok pair.1 ∧ c.tree branch.2 = .ok pair.2)
        branches pairs ∧ c.tree otherwise = .ok last := by
  rw [tree_of_operator? hop (OperatorTable.strategy?_case c.table)] at htree
  cases hchildren : node.children.mapM c.tree with
  | error fault =>
      rw [hchildren] at htree
      cases htree
  | ok trees =>
      rw [hchildren] at htree
      obtain ⟨pairs, last, hpairs, hall, hlast⟩ :=
        pairUp?_forall₂ (of_mapM_ok hchildren) hbranches
      refine ⟨pairs, last, ?_, hall, hlast⟩
      have hassemble : Strategy.case.assemble? (c.adapter node.ty) trees =
          some (Strategy.caseChain (c.adapter node.ty) pairs last) := by
        rw [Strategy.assemble?, hpairs]
        rfl
      change c.assemble .case node trees = _ at htree
      rw [assemble, hassemble] at htree
      exact (Except.ok.inj htree).symm

/-- **CASE takes the first true branch, unless it meets a null before.** Let a pass succeed on a
block that holds only what passes over the same row left there and in which the row's name is
reserved, and let the declarations run on a row. Take any CASE that the pass comes by, with as many
branches as there are, whose conditions are each true, false or null on the row, as the verdict says.
What the pass made of it evaluates to the result of the first branch whose condition is true, or to
the last result if there is none, converted to the host type of the CASE, as long as no condition
before that one is null. If one is, it fails. -/
theorem case_takes_first_true {ν ε : Type} (host : Host ν ε) (null : ν)
    (hnull : host.Unboxes null) (c : PlainContext) (policy : NamingPolicy) (stem : String)
    (outputs : Outputs) (block after : Block) (es : List Expr)
    (hblock : Block.LeftByPasses c.inputs block) (hreserved : block.Reserves c.row.name)
    (hrun : (c.request policy stem outputs).run block = (.ok es, after)) (ρ₀ ρ : Env ν)
    (hrow : (ρ₀ c.row.name).isSome) (hdeclared : host.run after.statements ρ₀ = .ok ρ) :
    (c.request policy stem outputs).Vacuous ∧ es = [.boolean true] ∨
      ∃ s, (c.naming policy stem).lowerAll (c.request policy stem outputs).items (.start block) =
          (.ok es, s) ∧ s.block = after ∧
        ∀ place node branches otherwise (verdict : Node → Option Bool),
          c.program.Reaches (c.request policy stem outputs).items place node →
          node.operator? = some .case → pairUp? node.children = some (branches, otherwise) →
          (∀ branch ∈ branches, ∀ tree, c.tree branch.1 = .ok tree →
            ∃ x, host.eval ρ₀ tree = .ok x ∧ host.Judges null x (verdict branch.1)) →
          ∃ e, s.value? (node.slotKey place) = some e ∧
            ((∀ branch ∈ Node.passedOver verdict branches, verdict branch.1 ≠ none) →
              ∃ tree, c.tree (Node.taken verdict branches otherwise) = .ok tree ∧
                host.eval ρ e = host.eval ρ₀ tree >>= host.convert tree.ty (c.adapter node.ty)) ∧
            ((∃ branch ∈ Node.passedOver verdict branches, verdict branch.1 = none) →
              ∃ fault, host.eval ρ e = .error fault) := by
  have htraceable := traceable_of_leftByPasses hblock hreserved
  by_cases hvacuous : (c.request policy stem outputs).Vacuous
  · rcases PassRequest.of_run_ok hrun with ⟨-, hes, -⟩ | ⟨hlowers, -⟩
    · exact Or.inl ⟨hvacuous, hes⟩
    · exact absurd hvacuous hlowers
  · obtain ⟨s, hlowerAll, hafter⟩ := PassRequest.lowerAll_of_run_ok hvacuous hrun
    obtain ⟨shared, hends⟩ := PassRequest.ends_of_lowerAll hlowerAll
    refine Or.inr ⟨s, hlowerAll, hafter, ?_⟩
    intro place node branches otherwise verdict hreaches hop hbranches hjudged
    obtain ⟨e, hvalue, htree, htame⟩ := hends.reads (c.reading_tree policy stem) htraceable hreaches
    refine ⟨e, hvalue, ?_⟩
    -- After the declarations, the slot evaluates as its plain tree does on the row.
    obtain ⟨hafterTraceable, -, -⟩ := expand_of_run htraceable hrun
    have hsplit : after.statements = [] ++ (after.statements ++ []) := by simp
    obtain ⟨-, hagrees⟩ :=
      Host.run_iff hafterTraceable hsplit (Host.agrees_nil hafterTraceable hrow)
    rw [hafter] at htree htame
    have heval : host.eval ρ e = host.eval ρ₀ (after.expand e) :=
      (hagrees ρ hdeclared).eval_eq htame
    obtain ⟨pairs, last, hchain, hpairs, hlast⟩ := tree_case hop hbranches htree
    rw [heval, hchain]
    exact Host.eval_caseChain (V := fun node tree => c.tree node = .ok tree) hnull
      (c.adapter node.ty) hpairs hlast hjudged

/-! ### Flags that may be null -/

inductive Flag where
  | null
  | number (n : Int)
  | truth (b : Bool)
  | row (fields : List (Option Bool))
  deriving DecidableEq

def Flag.ofField (field : Option Bool) : Flag := field.elim .null .truth

/-- A host on which null cannot be unboxed. -/
def flagHost : Host Flag Unit where
  unbound _ := ()
  constant value _ :=
    match value with
    | .boolean b => .ok (.truth b)
    | value => value.integer?.elim (.ok .null) fun n => .ok (.number n)
  call x _ _ _ := if x = .null then .error () else .ok x
  staticCall _ _ _ _ := .error ()
  construct _ _ := .error ()
  binary _ _ _ _ := .error ()
  unary _ _ _ := .error ()
  cast x ty := if x = .null && ty.isPrimitive then .error () else .ok x
  element x index _ :=
    match x with
    | .row fields => fields[index]?.elim (.error ()) fun field => .ok (.ofField field)
    | _ => .error ()
  lambda _ _ := .error ()
  truth
    | .truth b => .ok b
    | _ => .error ()
  ofBool := .truth

theorem flagHost_unboxes : flagHost.Unboxes .null where
  truth_null := ⟨(), rfl⟩
  cast_null ty hty := by simp [flagHost, hty]
  cast_null_primitive p := ⟨(), rfl⟩
  call_null _ _ _ := ⟨(), rfl⟩
  cast_truth {x holds} hx ty _ := by
    cases x with
    | truth b => exact ⟨.truth b, by simp [flagHost], hx⟩
    | null | number | row => cases hx
  read_truth {x holds} hx := by
    cases x with
    | truth b => exact ⟨.truth b, by simp [flagHost], hx⟩
    | null | number | row => cases hx

def flagRow (fields : List (Option Bool)) : Env Flag :=
  fun name => if name = "row" then some (.row fields) else none

/-- `CASE WHEN $0 THEN 1 WHEN $1 THEN 2 ELSE 3 END`, where the fields may be null. -/
def flagCase : Node :=
  .case [(.inputRef 0 (.orNull .boolean), .literal (.int32 1) (.notNull .integer)),
      (.inputRef 1 (.orNull .boolean), .literal (.int32 2) (.notNull .integer))]
    (.literal (.int32 3) (.notNull .integer)) (.notNull .integer)

def flagContext : PlainContext where
  program := {
    inputRowType := [.orNull .boolean, .orNull .boolean]
    exprs := [flagCase]
    projects := [.localRef 0 (.notNull .integer)]
    condition := none
    faultless := by decide }
  adapter := .standard
  row := ⟨"row", .objectArray⟩
  layout := ⟨[.boxed .boolean, .boxed .boolean]⟩
  table := .standard

/-- Only the second flag is true. -/
def secondFlag : Node → Option Bool
  | .inputRef 1 _ => some true
  | _ => some false

theorem second_flag_is_taken :
    ∃ (es : List Expr) (after : Block) (s : LoweringState) (ρ : Env Flag) (e : Expr),
      (flagContext.request .shared "v" .projects).run (Block.empty.newName "row").2 =
        (.ok es, after) ∧
      flagHost.run after.statements (flagRow [some false, some true]) = .ok ρ ∧
      s.value? (flagCase.slotKey (.root (.expr 0))) = some e ∧
      flagHost.eval ρ e = .ok (.number 2) := by
  have hcode : ((flagContext.request .shared "v" .projects).run
      (Block.empty.newName "row").2).1.toOption.isSome := by decide +kernel
  have hvalues : (flagHost.run ((flagContext.request .shared "v" .projects).run
      (Block.empty.newName "row").2).2.statements
        (flagRow [some false, some true])).toOption.isSome := by
    decide +kernel
  rcases hrun : (flagContext.request .shared "v" .projects).run (Block.empty.newName "row").2 with
    ⟨result, after⟩
  rw [hrun] at hcode hvalues
  obtain ⟨es, rfl⟩ : ∃ es, result = .ok es := by
    cases result with
    | error e => cases hcode
    | ok es => exact ⟨es, rfl⟩
  obtain ⟨ρ, hdeclared⟩ :
      ∃ ρ, flagHost.run after.statements (flagRow [some false, some true]) = .ok ρ := by
    cases hdeclared : flagHost.run after.statements (flagRow [some false, some true]) with
    | error fault =>
        rw [hdeclared] at hvalues
        cases hvalues
    | ok ρ => exact ⟨ρ, rfl⟩
  rcases case_takes_first_true flagHost .null flagHost_unboxes flagContext .shared "v" .projects _
    after es (.reserve "row" (.start rfl)) ⟨by decide, fun d hd => by cases hd⟩ hrun
    (flagRow [some false, some true]) ρ rfl hdeclared with ⟨⟨hcondition, -⟩, -⟩ | ⟨s, -, -, hcase⟩
  · cases hcondition
  · have hreaches : flagContext.program.Reaches (flagContext.request .shared "v" .projects).items
        (.root (.expr 0)) flagCase :=
      .step (.root List.mem_cons_self) (.body rfl)
    obtain ⟨e, hvalue, htakes, -⟩ := hcase _ flagCase _ _
      secondFlag hreaches rfl rfl (by
        rintro branch (_ | ⟨_, _ | ⟨_, ⟨⟩⟩⟩) tree ⟨⟩
        · exact ⟨.truth false, rfl, rfl⟩
        · exact ⟨.truth true, rfl, rfl⟩)
    obtain ⟨tree, htree, heval⟩ := htakes (by
      rintro branch (_ | ⟨_, ⟨⟩⟩)
      decide)
    refine ⟨es, after, s, ρ, e, rfl, hdeclared, hvalue, heval.trans ?_⟩
    cases htree
    rfl

/-- **A null flag is not passed over.** The first flag is null, and the second one is true, but the
code fails. -/
theorem null_flag_fails :
    (flagContext.tree (.inputRef 0 (.orNull .boolean))).map
        (flagHost.eval (flagRow [none, some true])) = .ok (.ok .null) ∧
      (flagContext.tree (.inputRef 1 (.orNull .boolean))).map
        (flagHost.eval (flagRow [none, some true])) = .ok (.ok (.truth true)) ∧
      (flagContext.tree (.literal (.int32 2) (.notNull .integer))).map
        (flagHost.eval (flagRow [none, some true])) = .ok (.ok (.number 2)) ∧
      outcome (flagContext.request .shared "v" .projects) flagHost (Block.empty.newName "row").2
        (flagRow [none, some true]) = .ok (.ok [.error ()]) := by
  refine ⟨by decide +kernel, by decide +kernel, by decide +kernel, by decide +kernel⟩

end PlainContext

end RowCode
