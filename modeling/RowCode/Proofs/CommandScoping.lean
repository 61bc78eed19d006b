import RowCode.CommandLine.Run
import RowCode.Proofs.BinaryForm
import RowCode.Proofs.Scoping
import RowCode.Proofs.Walk

/-!
# What the command prints

The passes of the command run on a block of their own, and the row is all that is given from outside.
So the code that it prints is scoped wherever the row is defined. The name of the row is not reserved
in the block, though. A declaration takes it if it is one of the names that passes make up: those of
rows, or numbered by a slot, each perhaps with a further number.
-/

namespace RowCode

/-- The name is what was suggested, or numbered after it. -/
def NamedAfter (suggestion name : String) : Prop :=
  name = suggestion ∨ ∃ n, name = numberedName suggestion n

theorem namedAfter_freshName (taken : List String) (suggestion : String) :
    NamedAfter suggestion (freshName taken suggestion) := by
  unfold freshName
  split
  · obtain ⟨passed, hfound, -⟩ := exists_firstNumbered taken suggestion taken.length 1
    exact Or.inr ⟨1 + passed, hfound⟩
  · exact Or.inl rfl

theorem RowInput.lt_of_locate? {inputs : List RowInput} {position index : Nat}
    {found : Nat × RowInput × Nat} (hlocate : locate? position inputs index = some found) :
    found.1 < position + inputs.length := by
  obtain ⟨ahead, hfound, hfield⟩ := locate?_eq_some_iff.mp hlocate
  obtain ⟨hlt, -⟩ := List.getElem?_eq_some_iff.mp hfield.input_at
  omega

namespace LoweringContext

/-- The names that a pass suggests: one for each row, and one for each number of slots. -/
def Suggests (c : LoweringContext) (name : String) : Prop :=
  (∃ position < c.inputs.length, name = RowInput.rowName position) ∨
    ∃ slots : Nat, name = c.stem ++ toString slots

def MakesUp (c : LoweringContext) (name : String) : Prop :=
  ∃ suggestion, c.Suggests suggestion ∧ NamedAfter suggestion name

variable {c : LoweringContext}

theorem makesUp_of_declareFinal {b : Block} {suggestion : String} {init : Expr}
    (hsuggests : c.Suggests suggestion) {d : Declaration}
    (hd : d ∈ (b.declareFinal suggestion init).2.statements) :
    d ∈ b.statements ∨ c.MakesUp d.name := by
  refine (Block.mem_statements_declareFinal hd).imp_right ?_
  rintro rfl
  exact ⟨suggestion, hsuggests, namedAfter_freshName b.names suggestion⟩

theorem makesUp_of_readField {b : Block} {index : Nat} {d : Declaration}
    (hd : d ∈ (RowInput.readField c.inputs b index).2.statements) :
    d ∈ b.statements ∨ c.MakesUp d.name := by
  unfold RowInput.readField at hd
  split at hd
  · exact Or.inl hd
  · cases hlocate : RowInput.locate? 0 c.inputs index with
    | none =>
        rw [hlocate] at hd
        exact Or.inl hd
    | some found =>
        have hposition := RowInput.lt_of_locate? hlocate
        rw [Nat.zero_add] at hposition
        simp only [hlocate, Block.append] at hd
        cases hholder : b.holder? found.2.1.row with
        | some v =>
            rw [hholder] at hd
            exact Or.inl hd
        | none =>
            rw [hholder] at hd
            exact makesUp_of_declareFinal (Or.inl ⟨found.1, hposition, rfl⟩) hd

/-- **Passes declare what they make up.** -/
theorem contains_makesUp (c : LoweringContext) :
    Contains (fun s s' => ∀ d ∈ s'.block.statements, d ∈ s.block.statements ∨ c.MakesUp d.name)
      (.rows c.inputs) c where
  refl _ _ hd := Or.inl hd
  trans _ _ _ h h' d hd := (h' d hd).elim (h d) Or.inr
  read _ _ _ hd := makesUp_of_readField hd
  touch _ _ _ hd := Or.inl hd
  fill key lowered s d hd := by
    unfold fill at hd
    split at hd
    · exact makesUp_of_declareFinal (Or.inr ⟨s.slots.length, rfl⟩) hd
    · exact Or.inl hd

end LoweringContext

namespace PassRequest

variable {d : Declaration}

theorem makesUp_run {r : PassRequest} {block : Block} (hd : d ∈ (r.run block).2.statements) :
    d ∈ block.statements ∨ r.context.MakesUp d.name := by
  rcases hrun : r.run block with ⟨result, after⟩
  rw [hrun] at hd
  cases result with
  | error e => exact Or.inl (run_eq_of_error hrun ▸ hd)
  | ok es =>
      by_cases hvacuous : r.Vacuous
      · rcases of_run_ok hrun with ⟨-, -, rfl⟩ | ⟨hlowers, -⟩
        · exact Or.inl hd
        · exact absurd hvacuous hlowers
      · obtain ⟨s, hlower, rfl⟩ := lowerAll_of_run_ok hvacuous hrun
        have h := r.context.contains_makesUp
        have hanalyze : (r.context.analyze (r.items.map Prod.snd)).Within fun s s' =>
            ∀ d ∈ s'.block.statements, d ∈ s.block.statements ∨ r.context.MakesUp d.name := by
          intro s d hd
          rw [LoweringContext.block_analyze] at hd
          exact Or.inl hd
        have hwithin := hanalyze.bind h.trans (fun _ => h.lowerEach r.items) (.start block)
        rw [LoweringContext.lowerAll, Getter.lowerAll] at hlower
        rw [hlower] at hwithin
        exact hwithin d hd

theorem makesUp_runAll {requests : List PassRequest} {block : Block}
    (hd : d ∈ (runAll requests block).2.statements) :
    d ∈ block.statements ∨ ∃ r ∈ requests, r.context.MakesUp d.name := by
  induction requests generalizing block with
  | nil => exact Or.inl hd
  | cons r rest ih =>
      rcases ih hd with hfirst | ⟨r', hr', hname⟩
      · exact (makesUp_run hfirst).imp_right fun hname => ⟨r, List.mem_cons_self, hname⟩
      · exact Or.inr ⟨r', List.mem_cons_of_mem _ hr', hname⟩

end PassRequest

namespace Options

variable (o : Options)

def rowVariable : Variable := ⟨o.row, .objectArray⟩

/-- The names that the command may declare. -/
def MakesUp (name : String) : Prop :=
  NamedAfter (RowInput.rowName 0) name ∨ ∃ slots : Nat, NamedAfter (o.stem ++ toString slots) name

end Options

namespace Command

/-- The passes of the command, in order. -/
def requests (o : Options) (p : Program) : List PassRequest :=
  (if o.conditionOnly then [] else [⟨context o p, .projects⟩]) ++ [⟨context o p, .condition⟩]

/-- The outputs of a program became these expressions, which stand behind the declarations of the
block. -/
def Lowers (o : Options) (p : Program) (block : Block) (projects : List Expr) (condition : Expr) :
    Prop :=
  ∃ between, (if o.conditionOnly then (.ok [], .empty) else (context o p).lowerProjects .empty) =
      (.ok projects, between) ∧
    (context o p).lowerCondition between = (.ok condition, block)

variable {o : Options} {p : Program} {block : Block} {projects : List Expr} {condition : Expr}
  {output : String}

theorem of_lowerOutputs (hlower : lowerOutputs o p = .printed output) :
    ∃ block projects condition, Lowers o p block projects condition ∧
      output = render block projects condition := by
  unfold lowerOutputs at hlower
  rcases hprojects : (if o.conditionOnly then (.ok [], .empty)
    else (context o p).lowerProjects .empty : Except LoweringError (List Expr) × Block) with
    ⟨result, between⟩
  simp only [hprojects] at hlower
  cases result with
  | error e => cases hlower
  | ok projects =>
      rcases hcondition : (context o p).lowerCondition between with ⟨result, block⟩
      simp only [hcondition] at hlower
      cases result with
      | error e => cases hlower
      | ok condition =>
          exact ⟨block, projects, condition, ⟨between, hprojects, hcondition⟩,
            (CommandResult.printed.inj hlower).symm⟩

theorem of_run (read? : String → Option (List UInt8)) {args : List String}
    (hrun : run read? args = .printed output) :
    ∃ o p, Options.ofArguments? args = some o ∧
      Program.load read? o.program o.format = .ok p ∧ lowerOutputs o p = .printed output := by
  unfold run at hrun
  cases hoptions : Options.ofArguments? args with
  | none =>
      rw [hoptions] at hrun
      cases hrun
  | some o =>
      simp only [hoptions] at hrun
      cases hload : Program.load read? o.program o.format with
      | error e =>
          rw [hload] at hrun
          cases hrun
      | ok p =>
          rw [hload] at hrun
          exact ⟨o, p, rfl, hload, hrun⟩

theorem Lowers.runAll_eq (h : Lowers o p block projects condition) :
    ∃ results, PassRequest.runAll (requests o p) .empty = (results ++ [.ok [condition]], block) ∧
      ∀ e ∈ projects, .ok projects ∈ results := by
  obtain ⟨between, hprojects, hcondition⟩ := h
  have hlast : PassRequest.runAll [⟨context o p, .condition⟩] between =
      ([.ok [condition]], block) := by
    simp only [PassRequest.runAll, PassRequest.run, hcondition, Except.map]
  cases honly : o.conditionOnly with
  | true =>
      rw [honly, if_pos rfl] at hprojects
      obtain ⟨hnone, rfl⟩ := Prod.mk.inj hprojects
      refine ⟨[], ?_, ?_⟩
      · simpa only [requests, honly, if_pos, List.nil_append] using hlast
      · simp [← Except.ok.inj hnone]
  | false =>
      rw [honly, if_neg Bool.false_ne_true] at hprojects
      refine ⟨[.ok projects], ?_, fun _ _ => List.mem_singleton_self _⟩
      simp only [requests, honly, Bool.false_eq_true, if_false, List.singleton_append]
      rw [PassRequest.runAll]
      simp only [PassRequest.run, hprojects, hlast]

theorem context_of_mem_requests {r : PassRequest} (hr : r ∈ requests o p) :
    r.context = context o p := by
  rcases List.mem_append.mp hr with hprojects | hcondition
  · cases honly : o.conditionOnly with
    | true => simp [honly] at hprojects
    | false =>
        rw [honly, if_neg Bool.false_ne_true] at hprojects
        rw [List.mem_singleton.mp hprojects]
  · rw [List.mem_singleton.mp hcondition]

/-- The row is all that the passes read from. -/
theorem inputVars_requests (o : Options) (p : Program) :
    PassRequest.inputVars (requests o p) ⊆ [o.rowVariable] := by
  intro v hv
  obtain ⟨r, hr, hv⟩ := List.mem_flatMap.mp hv
  rw [context_of_mem_requests hr] at hv
  exact hv

theorem makesUp_context {name : String} (h : (context o p).MakesUp name) : o.MakesUp name := by
  obtain ⟨suggestion, ⟨position, hposition, rfl⟩ | ⟨slots, rfl⟩, hnamed⟩ := h
  · obtain rfl : position = 0 := Nat.lt_one_iff.mp hposition
    exact Or.inl hnamed
  · exact Or.inr ⟨slots, hnamed⟩

theorem Lowers.scoped (h : Lowers o p block projects condition) :
    block.Scoped [o.rowVariable] ∧ ∀ e ∈ projects ++ [condition], block.InScope [o.rowVariable] e := by
  obtain ⟨results, hruns, hprojects⟩ := h.runAll_eq
  obtain ⟨hscoped, hresults⟩ := PassRequest.scoped_runAll (inputVars_requests o p)
    (Block.scoped_of_no_statements rfl : Block.Scoped [o.rowVariable] .empty)
  rw [hruns] at hscoped hresults
  refine ⟨hscoped, List.forall_mem_append.mpr ⟨fun e he => ?_, ?_⟩⟩
  · exact hresults projects (List.mem_append_left _ (hprojects e he)) e he
  · exact hresults [condition] (List.mem_append_right _ (List.mem_singleton_self _))

theorem Lowers.makesUp (h : Lowers o p block projects condition) :
    ∀ d ∈ block.statements, o.MakesUp d.name := by
  obtain ⟨results, hruns, -⟩ := h.runAll_eq
  intro d hd
  have hmem : d ∈ (PassRequest.runAll (requests o p) .empty).2.statements := by rwa [hruns]
  rcases PassRequest.makesUp_runAll hmem with hnone | ⟨r, hr, hname⟩
  · cases hnone
  · rw [context_of_mem_requests hr] at hname
    exact makesUp_context hname

theorem mem_visible_iff {statements : List Declaration} {v : Variable} :
    v ∈ Block.visible [o.rowVariable] statements ↔
      v = o.rowVariable ∨ ∃ d ∈ statements, d.target = v := by
  rw [PassRequest.mem_visible, List.mem_singleton]

/-- **Printed code is scoped, but for the name of the row.** Whatever the arguments are, where the
command prints code, no name is declared twice there; each declaration mentions the row and what is
declared before it, and each output the row and what is declared. Every declared name is one that the
command makes up, so that none is the name of the row unless this is such a name. -/
theorem printed_code_is_scoped (read? : String → Option (List UInt8)) (args : List String)
    (output : String) (hrun : run read? args = .printed output) :
    ∃ o p block projects condition, Options.ofArguments? args = some o ∧
      Program.load read? o.program o.format = .ok p ∧
      Lowers o p block projects condition ∧ output = render block projects condition ∧
      (block.statements.map Declaration.name).Nodup ∧
      (∀ before d rest, block.statements = before ++ d :: rest →
        ∀ v ∈ d.init.vars, v = o.rowVariable ∨ ∃ d' ∈ before, d'.target = v) ∧
      (∀ e ∈ projects ++ [condition], ∀ v ∈ e.vars,
        v = o.rowVariable ∨ ∃ d ∈ block.statements, d.target = v) ∧
      (∀ d ∈ block.statements, o.MakesUp d.name) ∧
      (¬ o.MakesUp o.row → ∀ d ∈ block.statements, d.name ≠ o.row) := by
  obtain ⟨o, p, hoptions, hload, hlower⟩ := of_run read? hrun
  obtain ⟨block, projects, condition, hlowers, houtput⟩ := of_lowerOutputs hlower
  obtain ⟨hscoped, hresults⟩ := hlowers.scoped
  refine ⟨o, p, block, projects, condition, hoptions, hload, hlowers, houtput, hscoped.distinct,
    ?_, ?_, hlowers.makesUp, ?_⟩
  · intro before d rest hsplit v hv
    exact mem_visible_iff.mp (hscoped.ordered before d rest hsplit v hv)
  · exact fun e he v hv => mem_visible_iff.mp (hresults e he v hv)
  · rintro hrow d hd hsame
    exact hrow (hsame ▸ hlowers.makesUp d hd)

/-- Projects a field. -/
def fieldProgram : Program where
  inputRowType := [.notNull .varchar]
  exprs := [.inputRef 0 (.notNull .varchar)]
  projects := [.localRef 0 (.notNull .varchar)]
  condition := none
  faultless := by decide

def fieldFile : String → Option (List UInt8) := fun _ => some (FileFormat.binary.encode fieldProgram)

/-- All but the row is left as it is. -/
def rowNamed (row : String) : Options := ⟨"p.bin", none, false, "v", false, false, row, false⟩

def rowBound (row : String) : Block :=
  ⟨[⟨⟨"current0", .objectArray⟩, .var ⟨row, .objectArray⟩, true⟩], ["current0"]⟩

def firstField : Expr := .cast (.element (.var ⟨"current0", .objectArray⟩) 0 .object) .string

theorem load_fieldFile : Program.load fieldFile "p.bin" none = .ok fieldProgram := by
  have hread : FileFormat.binary.decode (FileFormat.binary.encode fieldProgram) =
      .ok fieldProgram := by
    have hread := Binary.readProgram_ofProgram (p := fieldProgram) (by decide) []
    rwa [List.append_nil] at hread
  have hformat : FileFormat.resolve none "p.bin" = .ok .binary := by rfl
  rw [Program.load, hformat]
  simp only [bind, Except.bind, fieldFile, hread]

theorem lowers_fieldProgram (row : String) :
    Lowers (rowNamed row) fieldProgram (rowBound row) [firstField] (.boolean true) :=
  ⟨rowBound row, Prod.ext (by rfl) (by rfl), Prod.ext (by rfl) (by rfl)⟩

theorem run_fieldFile {args : List String} {row : String}
    (hoptions : Options.ofArguments? args = some (rowNamed row)) :
    run fieldFile args = .printed (render (rowBound row) [firstField] (.boolean true)) := by
  simp only [run, hoptions, rowNamed, load_fieldFile]
  rfl

theorem not_makesUp_row : ¬ (rowNamed "row").MakesUp "row" := by
  have hfirst : ∀ suggestion name : String, suggestion.toList.head? = some 'c' ∨
      suggestion.toList.head? = some 'v' → NamedAfter suggestion name → name ≠ "row" := by
    rintro suggestion name hhead (rfl | ⟨n, rfl⟩) hname
    · simp [hname] at hhead
    · have hname' := congrArg (fun name : String => name.toList.head?) hname
      rcases hhead with hhead | hhead <;> simp [numberedName, hhead] at hname'
  rintro (hnamed | ⟨slots, hnamed⟩)
  · exact hfirst _ _ (Or.inl (by decide)) hnamed rfl
  · exact hfirst _ _ (Or.inr (by simp [rowNamed])) hnamed rfl

theorem field_is_read_from_row :
    run fieldFile ["p.bin"] = .printed (render (rowBound "row") [firstField] (.boolean true)) ∧
      ∃ block projects condition, Lowers (rowNamed "row") fieldProgram block projects condition ∧
        ∀ d ∈ block.statements, d.name ≠ "row" := by
  have hoptions : Options.ofArguments? ["p.bin"] = some (rowNamed "row") := by rfl
  have hrun := run_fieldFile hoptions
  obtain ⟨o, p, block, projects, condition, hoptions', hload, hlowers, -, -, -, -, -, hnames⟩ :=
    printed_code_is_scoped fieldFile ["p.bin"] _ hrun
  obtain rfl := Option.some.inj (hoptions.symm.trans hoptions')
  obtain rfl := Except.ok.inj (load_fieldFile.symm.trans hload)
  exact ⟨hrun, block, projects, condition, hlowers, hnames not_makesUp_row⟩

/-- The variable that holds the row takes the name of the row. -/
theorem row_named_current0_is_captured :
    run fieldFile ["--row", "current0", "p.bin"] = .printed
        "final Object[] current0 = current0;\n\nproject 0: (String) current0[0]\ncondition: true\n" ∧
      run fieldFile ["--row", "current0", "p.bin"] =
        .printed (render (rowBound "current0") [firstField] (.boolean true)) ∧
      Lowers (rowNamed "current0") fieldProgram (rowBound "current0") [firstField] (.boolean true) ∧
      ∃ d ∈ (rowBound "current0").statements, d.name = (rowNamed "current0").row := by
  have hoptions : Options.ofArguments? ["--row", "current0", "p.bin"] = some (rowNamed "current0") := by
    rfl
  have hrun := run_fieldFile hoptions
  have htext : render (rowBound "current0") [firstField] (.boolean true) =
      "final Object[] current0 = current0;\n\nproject 0: (String) current0[0]\ncondition: true\n" := by
    simp only [render, rowBound, Block.text, Block.length, String.join, Declaration.text,
      Declaration.name, projectLines, firstField, Expr.text, Expr.boolean, List.map, List.foldl]
    rfl
  exact ⟨htext ▸ hrun, hrun, lowers_fieldProgram "current0", _, List.mem_singleton_self _, rfl⟩

end Command

end RowCode
