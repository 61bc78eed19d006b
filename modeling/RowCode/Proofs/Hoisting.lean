import RowCode.Proofs.Coverage
import RowCode.Proofs.Evaluation
import RowCode.Proofs.Transparency

/-!
# What naming makes run

A node that is named is evaluated where its variable is declared, whether or not the expression that
the node is part of would have come to it. So declarations can fail though no result would have: a
division that is shared inside a branch of a CASE runs even if the branch is not taken. This is all
that naming changes. The declarations of a pass succeed exactly if the plain trees of the named nodes
can be evaluated, and then each result evaluates as its plain tree does.
-/

namespace RowCode

/-- The pass binds the node to a variable: it comes by the node, and the policy names it. -/
def PassRequest.Names (r : PassRequest) (node : Node) : Prop :=
  ∃ shared place, r.context.Shares (r.items.map Prod.snd) shared ∧
    r.context.program.Reaches r.items place node ∧
    r.context.names shared (node.slotKey place) = true

theorem LoweringContext.Shares.unique {c : LoweringContext} {roots : List Node}
    {shared shared' : List Nat} (h : c.Shares roots shared) (h' : c.Shares roots shared') :
    shared = shared' := by
  unfold Shares at h h'
  cases hpolicy : c.policy with
  | all =>
      simp only [hpolicy] at h h'
      rw [h, h']
  | shared =>
      simp only [hpolicy] at h h'
      obtain ⟨usage, husage, rfl⟩ := h
      obtain ⟨usage', husage', rfl⟩ := h'
      rw [Option.some.inj (husage.symm.trans husage')]

theorem LoweringContext.slotNode?_of_names {c : LoweringContext} {shared : List Nat} {place : Place}
    {node : Node} (hnode : c.program.nodeAt? place = some node)
    (hnames : c.names shared (node.slotKey place) = true) :
    c.program.slotNode? (node.slotKey place) = some node := by
  cases node with
  | localRef => cases hnames
  | inputRef | literal | call | case | dynamicParam => exact hnode

theorem PassRequest.not_names_of_vacuous {r : PassRequest} (hvacuous : r.Vacuous) (node : Node) :
    ¬ r.Names node := by
  rintro ⟨shared, place, -, hreaches, -⟩
  have hitems : r.items = [] := by
    unfold items
    rw [hvacuous.1, hvacuous.2]
    rfl
  rw [hitems] at hreaches
  induction hreaches with
  | root hmem => cases hmem
  | step _ _ ih => exact ih

namespace PlainContext

variable {c : PlainContext} {policy : NamingPolicy} {stem : String} {outputs : Outputs}
  {block after : Block} {es : List Expr}

/-- **What is declared.** Apart from what the block held and the row, a pass declares the nodes that
it names, and it declares all of them. -/
theorem declares_what_it_names (hblock : block.Traceable c.row)
    (hrun : (c.request policy stem outputs).run block = (.ok es, after)) :
    (∀ d ∈ after.statements, d ∈ block.statements ∨ d.init = .var c.row ∨
      ∃ node, (c.request policy stem outputs).Names node ∧
        c.tree node = .ok (after.expand d.init)) ∧
    ∀ node, (c.request policy stem outputs).Names node →
      ∃ d ∈ after.statements, c.tree node = .ok (after.expand d.init) := by
  rcases PassRequest.of_run_ok hrun with ⟨hvacuous, -, rfl⟩ | ⟨-, shared, s, hshared, hlowers, rfl⟩
  · exact ⟨fun d hd => Or.inl hd,
      fun node hnames => absurd hnames (PassRequest.not_names_of_vacuous hvacuous node)⟩
  · have hroots := (c.request policy stem outputs).nodeAt?_of_mem_items
    obtain ⟨htraceable, hslots, -⟩ := hlowers.reads (c.reading_tree policy stem) hroots hblock
      (fun _ _ hmem => by cases hmem)
    obtain ⟨hcovers, -, hfilled⟩ := hlowers.covers hroots
      (fun item hitem => .root hitem) (LoweringContext.covers_start _ _ block shared)
    have hheld : ∀ key slot d place node, (key, slot) ∈ s.slots → d ∈ s.block.statements →
        slot.holder = some d.target →
        (c.request policy stem outputs).context.program.Reaches
          (c.request policy stem outputs).items place node →
        node.slotKey place = key →
        (c.request policy stem outputs).context.names shared key = true →
        c.tree node = .ok (s.block.expand d.init) := by
      rintro key slot d place node hmem hd hholder hreaches rfl hnames
      obtain ⟨found, hfound, htree, -⟩ := hslots _ slot hmem
      have hnode := LoweringContext.slotNode?_of_names (hreaches.nodeAt? hroots) hnames
      obtain rfl := Option.some.inj (hnode.symm.trans hfound)
      rw [Slot.value, hholder] at htree
      rw [htree, htraceable.expand_target hd]
    refine ⟨fun d hd => ?_, ?_⟩
    · rcases hcovers.declared d hd with hold | ⟨input, hinput, hrow⟩ | ⟨key, slot, hmem, hholder, hnames⟩
      · exact Or.inl hold
      · rw [List.mem_singleton.mp hinput] at hrow
        exact Or.inr (Or.inl hrow)
      · obtain ⟨place, node, hreaches, hkey⟩ := hcovers.reached key (List.mem_map_of_mem hmem)
        refine Or.inr (Or.inr ⟨node, ⟨shared, place, hshared, hreaches, hkey ▸ hnames⟩, ?_⟩)
        exact hheld key slot d place node hmem hd hholder hreaches hkey hnames
    · rintro node ⟨shared', place, hshared', hreaches, hnames⟩
      obtain rfl := hshared.unique hshared'
      obtain ⟨⟨key, slot⟩, hmem, hkey⟩ :=
        List.mem_map.mp (hcovers.filled_of_reaches hroots hfilled hreaches)
      obtain rfl : key = node.slotKey place := hkey
      obtain ⟨d, hd, hholder⟩ := hcovers.held _ slot hmem hnames
      exact ⟨d, hd, hheld _ slot d place node hmem hd hholder hreaches rfl hnames⟩

/-- **What the declarations of a pass come to.** On a block that holds only what passes over the same
row left there, which have run, and in which the row's name is reserved, the declarations that a pass
adds succeed exactly if the plain trees of the nodes that it names can be evaluated on the row; and
after them each result evaluates as its plain tree does on the row. -/
theorem added_declarations_run_iff {ν ε : Type} (host : Host ν ε) (c : PlainContext)
    (policy : NamingPolicy) (stem : String) (outputs : Outputs) (block after : Block) (es : List Expr)
    (hblock : Block.LeftByPasses c.inputs block) (hreserved : block.Reserves c.row.name)
    (hrun : (c.request policy stem outputs).run block = (.ok es, after)) (ρ₀ ρ : Env ν)
    (hrow : (ρ₀ c.row.name).isSome) (hbefore : host.run block.statements ρ₀ = .ok ρ) :
    ((∃ ρ', host.run (after.statements.drop block.length) ρ = .ok ρ') ↔
      ∀ node, (c.request policy stem outputs).Names node →
        ∃ tree x, c.tree node = .ok tree ∧ host.eval ρ₀ tree = .ok x) ∧
    ∀ ρ', host.run (after.statements.drop block.length) ρ = .ok ρ' →
      ∃ trees, c.trees outputs = .ok trees ∧ es.map (host.eval ρ') = trees.map (host.eval ρ₀) := by
  have htraceable := traceable_of_leftByPasses hblock hreserved
  obtain ⟨hafter, htrees, htame⟩ := expand_of_run htraceable hrun
  obtain ⟨hdeclared, hnamed⟩ := declares_what_it_names htraceable hrun
  have hgrows := (c.request policy stem outputs).grows_run block
  rw [hrun] at hgrows
  obtain ⟨added, hadded⟩ := hgrows.statements_grow
  have hdrop : after.statements.drop block.length = added := by
    rw [← hadded, Block.length, List.drop_left]
  have hrowValue : ∃ x, host.eval ρ₀ (.var c.row) = .ok x := by
    obtain ⟨x, hx⟩ := Option.isSome_iff_exists.mp hrow
    exact ⟨x, by rw [Host.eval, hx]⟩
  -- What ran before is evaluated by what it expands to in the block as it is after the pass.
  obtain ⟨hold, hnew, hagrees⟩ := Host.run_added_iff hafter hadded.symm hrow hbefore
  rw [hdrop, hnew]
  refine ⟨⟨fun hadd node hnames => ?_, fun hall d hd => ?_⟩, fun ρ' hrun' => ?_⟩
  · obtain ⟨d, hd, htree⟩ := hnamed node hnames
    rw [← hadded] at hd
    obtain ⟨x, hx⟩ := (List.mem_append.mp hd).elim (hold d) (hadd d)
    exact ⟨_, x, htree, hx⟩
  · rcases hdeclared d (hadded ▸ List.mem_append_right _ hd) with hbefore | hinit | ⟨node, hnames, htree⟩
    · exact hold d hbefore
    · rw [hinit, hafter.expand_row]
      exact hrowValue
    · obtain ⟨tree, x, htree', hx⟩ := hall node hnames
      rw [Except.ok.inj (htree.symm.trans htree')]
      exact ⟨x, hx⟩
  · refine ⟨_, htrees, ?_⟩
    rw [List.map_map]
    exact List.map_congr_left fun e he => (hagrees ρ' hrun').eval_eq (htame e he)

/-! ### Division by zero -/

inductive Datum where
  | number (n : Int)
  | truth (b : Bool)
  | row (fields : List Int)
  deriving DecidableEq

/-- A host on which dividing by zero fails. -/
def integerHost : Host Datum Unit where
  unbound _ := ()
  constant value _ :=
    match value with
    | .boolean b => .ok (.truth b)
    | value => value.integer?.elim (.error ()) fun n => .ok (.number n)
  call x method _ _ := if method = "intValue" then .ok x else .error ()
  staticCall _ method args _ :=
    match args with
    | [.number x, .number y] =>
      if method = "divide" then (if y = 0 then .error () else .ok (.number (x / y)))
      else if method = "plus" then .ok (.number (x + y))
      else if method = "ne" then .ok (.truth (x != y))
      else .error ()
    | _ => .error ()
  construct _ _ := .error ()
  binary _ _ _ _ := .error ()
  unary _ _ _ := .error ()
  cast x _ := .ok x
  element x index _ :=
    match x with
    | .row fields => fields[index]?.elim (.error ()) fun n => .ok (.number n)
    | _ => .error ()
  lambda _ _ := .error ()
  truth
    | .truth b => .ok b
    | _ => .error ()
  ofBool := .truth

def rowOf (name : String) (field : Int) : Env Datum :=
  fun other => if other = name then some (.row [field]) else none

/-- `CASE WHEN $0 <> 0 THEN 10 / $0 + 10 / $0 ELSE $0 END`, in which the quotient is shared. -/
def quotientProgram : Program where
  inputRowType := [.notNull .integer]
  exprs := [.inputRef 0 (.notNull .integer),
    .call .divide [.literal (.int32 10) (.notNull .integer), .localRef 0 (.notNull .integer)]
      (.notNull .integer),
    .call .notEquals [.localRef 0 (.notNull .integer), .literal (.int32 0) (.notNull .integer)]
      (.notNull .boolean),
    .call .plus [.localRef 1 (.notNull .integer), .localRef 1 (.notNull .integer)]
      (.notNull .integer),
    .case [(.localRef 2 (.notNull .boolean), .localRef 3 (.notNull .integer))]
      (.localRef 0 (.notNull .integer)) (.notNull .integer)]
  projects := [.localRef 4 (.notNull .integer)]
  condition := none
  faultless := by decide

def constantProgram : Program where
  inputRowType := [.notNull .integer]
  exprs := [.literal (.int32 5) (.notNull .integer),
    .call .plus [.localRef 0 (.notNull .integer), .localRef 0 (.notNull .integer)]
      (.notNull .integer),
    .inputRef 0 (.notNull .integer)]
  projects := [.localRef 1 (.notNull .integer), .localRef 2 (.notNull .integer)]
  condition := none
  faultless := by decide

def integerContext (program : Program) (row : String) : PlainContext where
  program := program
  adapter := .standard
  row := ⟨row, .objectArray⟩
  layout := ⟨[.int]⟩
  table := .standard

theorem quotient_by_two_runs :
    ∃ es after ρ trees,
      ((integerContext quotientProgram "row").request .shared "v" .projects).run
        (Block.empty.newName "row").2 = (.ok es, after) ∧
      integerHost.run after.statements (rowOf "row" 2) = .ok ρ ∧
      (integerContext quotientProgram "row").trees .projects = .ok trees ∧
      es.map (integerHost.eval ρ) = trees.map (integerHost.eval (rowOf "row" 2)) := by
  have hcode : (((integerContext quotientProgram "row").request .shared "v" .projects).run
      (Block.empty.newName "row").2).1.toOption.isSome := by decide +kernel
  have hvalues : (integerHost.run (((integerContext quotientProgram "row").request .shared "v"
      .projects).run (Block.empty.newName "row").2).2.statements (rowOf "row" 2)).toOption.isSome := by
    decide +kernel
  rcases hrun : ((integerContext quotientProgram "row").request .shared "v" .projects).run
    (Block.empty.newName "row").2 with ⟨result, after⟩
  rw [hrun] at hcode hvalues
  cases result with
  | error e => cases hcode
  | ok es =>
      cases hdeclared : integerHost.run after.statements (rowOf "row" 2) with
      | error fault =>
          rw [hdeclared] at hvalues
          cases hvalues
      | ok ρ =>
          obtain ⟨trees, htrees, hequal⟩ := (added_declarations_run_iff integerHost _ _ _ _ _ _ _
            (.reserve "row" (.start rfl)) ⟨by decide, fun d hd => by cases hd⟩ hrun (rowOf "row" 2)
            (rowOf "row" 2) rfl rfl).2 ρ hdeclared
          exact ⟨es, after, ρ, trees, rfl, hdeclared, htrees, hequal⟩

/-- What the code of a pass does on a host: its declarations run after those of the block, and its
results are evaluated. -/
def outcome (r : PassRequest) {ν ε : Type} (host : Host ν ε) (block : Block) (ρ : Env ν) :
    Except LoweringError (Except ε (List (Except ε ν))) :=
  match r.run block with
  | (.error e, _) => .error e
  | (.ok es, after) => .ok ((host.run after.statements ρ).map fun ρ' => es.map (host.eval ρ'))

/-- **Naming is not lazy, and needs the row's name reserved.** On a row with zero, the plain tree of
the CASE never divides, but the declared quotient does, whichever policy named it. And where the row
is called like a variable that a pass declares, fields are read from the variable. -/
theorem naming_changes_what_runs :
    (∀ policy, outcome ((integerContext quotientProgram "row").request policy "v" .projects)
        integerHost (Block.empty.newName "row").2 (rowOf "row" 0) = .ok (.error ()) ∧
      ((integerContext quotientProgram "row").trees .projects).map
        (List.map (integerHost.eval (rowOf "row" 0))) = .ok [.ok (.number 0)]) ∧
    outcome ((integerContext constantProgram "v0").request .shared "v" .projects)
        integerHost Block.empty (rowOf "v0" 7) = .ok (.ok [.ok (.number 10), .error ()]) ∧
      ((integerContext constantProgram "v0").trees .projects).map
        (List.map (integerHost.eval (rowOf "v0" 7))) = .ok [.ok (.number 10), .ok (.number 7)] := by
  refine ⟨fun policy => ?_, by decide +kernel, by decide +kernel⟩
  cases policy with
  | shared => decide +kernel
  | all => decide +kernel

end PlainContext

end RowCode
