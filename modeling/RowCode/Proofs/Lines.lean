import RowCode.Proofs.Binding
import RowCode.Proofs.CommandScoping
import RowCode.Proofs.LineBreaks

/-!
# Lines of generated code

A pass writes each declaration and each result in a line of its own, as long as the names that it is
given do not break lines: those of rows, the prefix, and what the block has already. All other names it
makes up itself. Its strings are those of the program. They do not break a line by a line feed, but each
carriage return in them stands in the code as it is.
-/

namespace RowCode

open Text

namespace Expr

/-- All names in the expression are among the words, and all constants among the values. -/
structure MadeOf (words : String → Prop) (values : Value → Prop) (e : Expr) : Prop where
  names : ∀ name ∈ e.names, words name
  constants : ∀ v ∈ e.constants, values v

variable {words words' : String → Prop} {values : Value → Prop}

theorem MadeOf.mono {e : Expr} (h : e.MadeOf words values) (hwords : ∀ name, words name → words' name) :
    e.MadeOf words' values :=
  ⟨fun name hname => hwords name (h.names name hname), h.constants⟩

theorem madeOf_var {v : Variable} (h : words v.name) : (var v).MadeOf words values where
  names := by
    rw [names]
    exact List.forall_mem_singleton.mpr h
  constants := by
    rw [constants]
    exact List.forall_mem_nil _

theorem namesOfAll_eq (es : List Expr) : namesOfAll es = es.flatMap names := by
  induction es with
  | nil => rfl
  | cons e rest ih => rw [namesOfAll, ih, List.flatMap_cons]

theorem constantsOfAll_eq (es : List Expr) : constantsOfAll es = es.flatMap constants := by
  induction es with
  | nil => rfl
  | cons e rest ih => rw [constantsOfAll, ih, List.flatMap_cons]

theorem madeOf_args {args : List Expr} (h : ∀ arg ∈ args, arg.MadeOf words values) :
    (∀ name ∈ namesOfAll args, words name) ∧ ∀ v ∈ constantsOfAll args, values v := by
  rw [namesOfAll_eq, constantsOfAll_eq, List.forall_mem_flatMap, List.forall_mem_flatMap]
  exact ⟨fun arg harg => (h arg harg).names, fun arg harg => (h arg harg).constants⟩

theorem compositionalOver_madeOf : CompositionalOver words values (MadeOf words values) where
  constant _ hvalue := ⟨List.forall_mem_nil _, List.forall_mem_singleton.mpr hvalue⟩
  call _ hmethod htarget hargs := by
    obtain ⟨hnames, hconstants⟩ := madeOf_args hargs
    exact ⟨List.forall_mem_append.mpr ⟨htarget.names, List.forall_mem_cons.mpr ⟨hmethod, hnames⟩⟩,
      List.forall_mem_append.mpr ⟨htarget.constants, hconstants⟩⟩
  staticCall _ howner hmethod hargs := by
    obtain ⟨hnames, hconstants⟩ := madeOf_args hargs
    exact ⟨List.forall_mem_cons.mpr ⟨howner, List.forall_mem_cons.mpr ⟨hmethod, hnames⟩⟩, hconstants⟩
  construct _ _ hargs := ⟨(madeOf_args hargs).1, (madeOf_args hargs).2⟩
  binary _ _ _ _ hleft hright :=
    ⟨List.forall_mem_append.mpr ⟨hleft.names, hright.names⟩,
      List.forall_mem_append.mpr ⟨hleft.constants, hright.constants⟩⟩
  unary _ _ _ hoperand := ⟨hoperand.names, hoperand.constants⟩
  conditional _ htest htrue hfalse :=
    ⟨List.forall_mem_append.mpr ⟨List.forall_mem_append.mpr ⟨htest.names, htrue.names⟩, hfalse.names⟩,
      List.forall_mem_append.mpr
        ⟨List.forall_mem_append.mpr ⟨htest.constants, htrue.constants⟩, hfalse.constants⟩⟩
  cast _ hoperand := ⟨hoperand.names, hoperand.constants⟩
  element _ _ harray := ⟨harray.names, harray.constants⟩

end Expr

theorem OperatorTable.isInline_method {table : OperatorTable} {op : Operator} {method : String}
    (h : table.strategy? op = some (.runtimeCall method)) : IsInline method := by
  cases table <;> cases op <;> cases h <;> decide

theorem Expr.addedByLowering {words : String → Prop} {values : Value → Prop}
    (hwords : ∀ name, IsInline name → words name) (hvalues : ∀ v, (∀ s, v ≠ .string s) → values v) :
    AddedByLowering words values where
  valueMethod p := hwords _ (by cases p <;> decide)
  runtimeClass := hwords _ (by decide)
  null := hvalues _ nofun
  boolean b := hvalues _ nofun

/-! ### Names -/

theorem isInline_canonicalText {v : Value} (hv : ∀ s, v ≠ .string s) : IsInline v.canonicalText := by
  have hplain : IsInline v.text := isInline_of_isPrinted (Printing.isPrinted_text hv)
  cases v with
  | string s => exact absurd rfl (hv s)
  | null | boolean | int8 | int16 | int32 | int64 | float | double | decimal => exact hplain

theorem isInline_of_namedAfter {suggestion name : String} (h : NamedAfter suggestion name)
    (hsuggestion : IsInline suggestion) : IsInline name := by
  rcases h with rfl | ⟨n, rfl⟩
  · exact hsuggestion
  · exact isInline_append.mpr
      ⟨isInline_append.mpr ⟨hsuggestion, by decide⟩, isInline_toString n⟩

/-- The names that a pass makes up break lines only if the prefix does. -/
theorem LoweringContext.isInline_of_makesUp {c : LoweringContext} (hstem : IsInline c.stem)
    {name : String} (h : c.MakesUp name) : IsInline name := by
  obtain ⟨suggestion, ⟨position, -, rfl⟩ | ⟨slots, rfl⟩, hnamed⟩ := h
  · have hcurrent : IsInline "current" := by decide
    exact isInline_of_namedAfter hnamed (isInline_append.mpr ⟨hcurrent, isInline_toString position⟩)
  · exact isInline_of_namedAfter hnamed (isInline_append.mpr ⟨hstem, isInline_toString slots⟩)

namespace Block

/-- What code behind the block may be named: names that break no line, and those that it declares. -/
def Says (b : Block) (name : String) : Prop := IsInline name ∨ b.Declares name

theorem Grows.says {b b' : Block} (h : b.Grows b') {name : String} (hname : b.Says name) :
    b'.Says name := by
  refine hname.imp_right ?_
  rintro ⟨d, hd, rfl⟩
  exact ⟨d, h.statements_grow.subset hd, rfl⟩

theorem declares_append (b : Block) (suggestion : String) (e : Expr) :
    (b.append suggestion e).2.Declares (b.append suggestion e).1.name := by
  obtain ⟨init, hholds, -⟩ := b.exists_holds_append suggestion e
  exact ⟨_, hholds, rfl⟩

end Block

namespace LoweringContext

variable {c : LoweringContext} {start : Block}

/-- If the value has a carriage return, it is a string of the program, or of the block at the start. -/
def Accepts (c : LoweringContext) (start : Block) (v : Value) : Prop :=
  ∀ s, v = .string s → '\r' ∈ s.toList →
    (∃ ty, c.program.Has (.literal v ty)) ∨ ∃ d ∈ start.statements, v ∈ d.init.constants

/-- Each declaration is made of what the block says, and of accepted values. -/
def Written (c : LoweringContext) (start b : Block) : Prop :=
  ∀ d ∈ b.statements, d.init.MadeOf b.Says (c.Accepts start)

theorem Written.declareFinal {b : Block} (h : c.Written start b) {e : Expr}
    (he : e.MadeOf b.Says (c.Accepts start)) (suggestion : String) :
    c.Written start (b.declareFinal suggestion e).2 := by
  have hgrows := b.grows_declareFinal suggestion e
  intro d hd
  rcases Block.mem_statements_declareFinal hd with hold | rfl
  · exact (h d hold).mono fun _ => hgrows.says
  · exact he.mono fun _ => hgrows.says

theorem Written.append {b : Block} (h : c.Written start b) {e : Expr}
    (he : e.MadeOf b.Says (c.Accepts start)) (suggestion : String) :
    c.Written start (b.append suggestion e).2 := by
  unfold Block.append
  cases b.holder? e with
  | some v => exact h
  | none => exact h.declareFinal he suggestion

/-- **The reading of names and strings.** -/
theorem reading_written (start : Block)
    (hrows : ∀ input ∈ c.inputs, ∃ row : Variable, input.row = .var row ∧ IsInline row.name) :
    c.Reading (c.Written start) fun b _ e => e.MadeOf b.Says (c.Accepts start) where
  grows _ _ hgrows he := he.mono fun _ => hgrows.says
  field {b b'} {index ty e} hb _ hread := by
    obtain ⟨position, input, offset, hlocate, rfl, hfield⟩ := RowInput.of_readField_ok hread
    obtain ⟨row, hrow, hname⟩ := hrows input (RowInput.mem_of_locate? hlocate)
    have hrowMade : input.row.MadeOf b.Says (c.Accepts start) := by
      rw [hrow]
      exact Expr.madeOf_var (.inl hname)
    refine ⟨hb.append hrowMade _, Expr.compositionalOver_madeOf.fieldOf ?_ ?_ hfield⟩
    · exact Expr.addedByLowering (fun _ => .inl) fun v hv s hs => absurd hs (hv s)
    · exact Expr.madeOf_var (.inr (b.declares_append _ _))
  literal {b} {value ty} _ hnode := by
    refine Expr.compositionalOver_madeOf.lowerLiteral ?_ c.adapter ty ?_ ?_
    · exact Expr.addedByLowering (fun _ => .inl) fun v hv s hs => absurd hs (hv s)
    · exact fun s _ _ => .inl ⟨ty, hnode⟩
    · intro s hs hreturn
      by_cases hstring : ∃ t, value = .string t
      · obtain ⟨t, rfl⟩ := hstring
        exact .inl ⟨ty, hnode⟩
      · obtain rfl := Value.string.inj hs
        have hinline := isInline_canonicalText fun t ht => hstring ⟨t, ht⟩
        exact absurd hreturn (hinline.not_mem (by decide))
  reference _ _ _ he := he
  operation {b} {node op strategy args e} _ _ _ hstrategy hargs he := by
    refine Expr.compositionalOver_madeOf.assemble? ?_ ?_ (forall_of_forall₂ hargs fun _ _ h => h) he
    · exact Expr.addedByLowering (fun _ => .inl) fun v hv s hs => absurd hs (hv s)
    · rintro method rfl
      exact .inl (OperatorTable.isInline_method hstrategy)
  naming {b} {node e} suggestion hb he := by
    have hdeclared : (b.declareFinal suggestion e).2.Declares (b.declareFinal suggestion e).1.name :=
      ⟨_, Block.holds_declareFinal suggestion, rfl⟩
    exact ⟨hb.declareFinal he suggestion, Expr.madeOf_var (.inr hdeclared)⟩

end LoweringContext

/-! ### Passes -/

/-- Each declaration of the block is a line of its own, and each of the expressions stays in one. All
carriage returns are those of string constants. -/
structure WrittenInLines (block : Block) (es : List Expr) : Prop where
  declarations : block.text.toList.splitOn '\n' =
    block.statements.map (fun d => d.text.toList) ++ [[]]
  feeds : block.text.toList.count '\n' = block.length
  results : ∀ e ∈ es, '\n' ∉ e.text.toList
  returns : '\r' ∈ block.text.toList ↔ ∃ d ∈ block.statements, d.init.HasReturn
  resultReturns : ∀ e ∈ es, ('\r' ∈ e.text.toList ↔ e.HasReturn)

theorem Block.text_eq_linesOf (b : Block) : b.text = linesOf (b.statements.map Declaration.text) := by
  rw [linesOf, List.map_map]
  rfl

theorem Block.return_mem_text_iff (b : Block) :
    '\r' ∈ b.text.toList ↔ ∃ d ∈ b.statements, '\r' ∈ d.text.toList := by
  rw [b.text_eq_linesOf, return_mem_linesOf]
  simp only [List.mem_map, exists_exists_and_eq_and]

theorem writtenInLines_of_inline {block : Block} {es : List Expr}
    (hblock : ∀ d ∈ block.statements, d.HasInlineNames)
    (hes : ∀ e ∈ es, ∀ name ∈ e.names, IsInline name) : WrittenInLines block es := by
  have hlines : ∀ text ∈ block.statements.map Declaration.text, '\n' ∉ text.toList :=
    List.forall_mem_map.mpr fun d hd => (hblock d hd).newline_not_mem
  refine ⟨?_, ?_, fun e he => Expr.newline_not_mem_text (hes e he), ?_,
    fun e he => Expr.return_mem_text_iff (hes e he)⟩
  · rw [block.text_eq_linesOf, splitOn_linesOf hlines, List.map_map]
    rfl
  · rw [block.text_eq_linesOf, count_linesOf hlines, List.length_map]
    rfl
  · rw [block.return_mem_text_iff]
    exact exists_congr fun d => and_congr_right fun hd => (hblock d hd).return_mem_iff

theorem WrittenInLines.return_mem_iff {block : Block} {es : List Expr} (h : WrittenInLines block es) :
    ('\r' ∈ block.text.toList ∨ ∃ e ∈ es, '\r' ∈ e.text.toList) ↔
      ∃ e ∈ block.statements.map Declaration.init ++ es, e.HasReturn := by
  have hresults : (∃ e ∈ es, '\r' ∈ e.text.toList) ↔ ∃ e ∈ es, e.HasReturn :=
    exists_congr fun e => and_congr_right fun he => h.resultReturns e he
  rw [h.returns, hresults]
  simp only [List.mem_append, List.mem_map, or_and_right, exists_or, exists_exists_and_eq_and]

/-- Strings with carriage returns are strings of the program, or stood in the block at the start. -/
def Expr.ReturnsComeFrom (p : Program) (start : Block) (e : Expr) : Prop :=
  ∀ s, .string s ∈ e.constants → '\r' ∈ s.toList →
    (∃ ty, p.Has (.literal (.string s) ty)) ∨ ∃ d ∈ start.statements, .string s ∈ d.init.constants

theorem Expr.ReturnsComeFrom.trans {p : Program} {start between : Block} {e : Expr}
    (h : e.ReturnsComeFrom p between)
    (hbetween : ∀ d ∈ between.statements, d.init.ReturnsComeFrom p start) :
    e.ReturnsComeFrom p start := by
  intro s hs hreturn
  rcases h s hs hreturn with hliteral | ⟨d, hd, hconstant⟩
  · exact .inl hliteral
  · exact hbetween d hd s hconstant hreturn

/-- **A pass keeps to lines.** -/
theorem PassRequest.inline_of_run {r : PassRequest} {block after : Block} {es : List Expr}
    (hrows : ∀ input ∈ r.context.inputs, ∃ row : Variable, input.row = .var row ∧ IsInline row.name)
    (hstem : IsInline r.context.stem) (hblock : ∀ d ∈ block.statements, d.HasInlineNames)
    (hrun : r.run block = (.ok es, after)) :
    (∀ d ∈ after.statements, d.HasInlineNames) ∧ (∀ e ∈ es, ∀ name ∈ e.names, IsInline name) ∧
      ∀ e ∈ after.statements.map Declaration.init ++ es,
        e.ReturnsComeFrom r.context.program block := by
  have hstart : r.context.Written block block := fun d hd =>
    ⟨fun name hname => .inl ((hblock d hd).init name hname), fun v hv s hs _ => .inr ⟨d, hd, hv⟩⟩
  obtain ⟨hafter, hresults⟩ := reads (LoweringContext.reading_written block hrows) hstart hrun
  have hmade : ∀ e ∈ es, e.MadeOf after.Says (r.context.Accepts block) := by
    rcases hresults with ⟨-, rfl⟩ | ⟨-, hmeans⟩
    · rw [List.forall_mem_singleton]
      exact Expr.compositionalOver_madeOf.constant _ fun s hs => by cases hs
    · exact LoweringContext.forall_of_forall₂ hmeans fun _ _ he => he
  have hdeclared : ∀ d ∈ after.statements, IsInline d.name := by
    intro d hd
    have hmem : d ∈ (r.run block).2.statements := by rwa [hrun]
    rcases makesUp_run hmem with hold | hmakesUp
    · exact (hblock d hold).name
    · exact LoweringContext.isInline_of_makesUp hstem hmakesUp
  have hsays (name : String) (hname : after.Says name) : IsInline name := by
    rcases hname with hinline | ⟨d, hd, rfl⟩
    · exact hinline
    · exact hdeclared d hd
  have hreturns {e : Expr} (he : e.MadeOf after.Says (r.context.Accepts block)) :
      e.ReturnsComeFrom r.context.program block := fun s hs hreturn => he.constants _ hs s rfl hreturn
  refine ⟨fun d hd => ⟨hdeclared d hd, fun name hname => hsays name ((hafter d hd).names name hname)⟩,
    fun e he name hname => hsays name ((hmade e he).names name hname), ?_⟩
  rw [List.forall_mem_append, List.forall_mem_map]
  exact ⟨fun d hd => hreturns (hafter d hd), fun e he => hreturns (hmade e he)⟩

namespace Command

variable {o : Options} {p : Program} {block : Block} {projects : List Expr} {condition : Expr}

def labelled : Nat → List Expr → List String
  | _, [] => []
  | index, e :: rest => ("project " ++ toString index ++ ": " ++ e.text) :: labelled (index + 1) rest

/-- The lines of what the command prints. -/
def outputLines (block : Block) (projects : List Expr) (condition : Expr) : List String :=
  block.statements.map Declaration.text ++ (if block.length = 0 then [] else [""]) ++
    labelled 0 projects ++ ["condition: " ++ condition.text]

theorem projectLines_eq (index : Nat) (es : List Expr) :
    projectLines index es = linesOf (labelled index es) := by
  induction es generalizing index with
  | nil => rfl
  | cons e rest ih => rw [projectLines, labelled, linesOf_cons, ih]

theorem render_eq (block : Block) (projects : List Expr) (condition : Expr) :
    render block projects condition = linesOf (outputLines block projects condition) := by
  have hblank : linesOf (if block.length = 0 then [] else [""]) =
      if block.length = 0 then "" else "\n" := by
    split <;> rfl
  have hlast : linesOf ["condition: " ++ condition.text] = "condition: " ++ condition.text ++ "\n" := by
    rw [linesOf_cons]
    exact String.append_empty
  rw [render, outputLines, linesOf_append, linesOf_append, linesOf_append, hblank, hlast,
    block.text_eq_linesOf, projectLines_eq]
  simp only [String.append_assoc]

theorem endsLine_mem_labelled {c : Char} (hc : endsLine c = true) (index : Nat) (es : List Expr) :
    (∃ line ∈ labelled index es, c ∈ line.toList) ↔ ∃ e ∈ es, c ∈ e.text.toList := by
  induction es generalizing index with
  | nil => simp [labelled]
  | cons e rest ih =>
      have hproject : IsInline "project " := by decide
      have hcolon : IsInline ": " := by decide
      rw [labelled, List.exists_mem_cons_iff, List.exists_mem_cons_iff, ih]
      simp only [String.toList_append, List.mem_append, hproject.mem_iff hc, hcolon.mem_iff hc,
        (isInline_toString index).mem_iff hc, false_or]

/-- The output breaks lines where the code does that it shows. -/
theorem endsLine_mem_outputLines {c : Char} (hc : endsLine c = true) :
    (∃ line ∈ outputLines block projects condition, c ∈ line.toList) ↔
      (∃ d ∈ block.statements, c ∈ d.text.toList) ∨
        ∃ e ∈ projects ++ [condition], c ∈ e.text.toList := by
  have hcondition : IsInline "condition: " := by decide
  have hblank : ¬ ∃ line ∈ (if block.length = 0 then [] else [""]), c ∈ line.toList := by
    split <;> simp
  have hlabelled := endsLine_mem_labelled hc 0 projects
  simp only [outputLines, List.mem_append, or_and_right, exists_or, hlabelled, hblank,
    List.mem_map, exists_exists_and_eq_and, List.mem_singleton, exists_eq_left,
    String.toList_append, hcondition.mem_iff hc, false_or, or_assoc]

/-- The command prints a line for each declaration and each output. -/
theorem splitOn_render (hnames : ∀ d ∈ block.statements, d.HasInlineNames)
    (h : WrittenInLines block (projects ++ [condition])) :
    (render block projects condition).toList.splitOn '\n' =
      (outputLines block projects condition).map String.toList ++ [[]] := by
  rw [render_eq]
  refine splitOn_linesOf fun line hline hmem => ?_
  rcases (endsLine_mem_outputLines (by decide)).mp ⟨line, hline, hmem⟩ with
    ⟨d, hd, hfeed⟩ | ⟨e, he, hfeed⟩
  · exact (hnames d hd).newline_not_mem hfeed
  · exact h.results e he hfeed

theorem return_mem_render (h : WrittenInLines block (projects ++ [condition])) :
    '\r' ∈ (render block projects condition).toList ↔
      ∃ e ∈ block.statements.map Declaration.init ++ (projects ++ [condition]), e.HasReturn := by
  rw [render_eq, return_mem_linesOf, endsLine_mem_outputLines (by decide), ← block.return_mem_text_iff]
  exact h.return_mem_iff

theorem Lowers.inline (h : Lowers o p block projects condition) (hrow : IsInline o.row)
    (hstem : IsInline o.stem) :
    (∀ d ∈ block.statements, d.HasInlineNames) ∧
      (∀ e ∈ projects ++ [condition], ∀ name ∈ e.names, IsInline name) ∧
      ∀ e ∈ block.statements.map Declaration.init ++ (projects ++ [condition]),
        e.ReturnsComeFrom p .empty := by
  obtain ⟨between, hprojects, hcondition⟩ := h
  have hrows : ∀ input ∈ (context o p).inputs, ∃ row : Variable,
      input.row = .var row ∧ IsInline row.name := by
    intro input hinput
    rw [List.mem_singleton.mp hinput]
    exact ⟨_, rfl, hrow⟩
  have hbetween : (∀ d ∈ between.statements, d.HasInlineNames) ∧
      (∀ e ∈ projects, ∀ name ∈ e.names, IsInline name) ∧
      ∀ e ∈ between.statements.map Declaration.init ++ projects, e.ReturnsComeFrom p .empty := by
    cases honly : o.conditionOnly with
    | true =>
        rw [honly, if_pos rfl] at hprojects
        obtain ⟨hnone, rfl⟩ := Prod.mk.inj hprojects
        obtain rfl := Except.ok.inj hnone
        exact ⟨List.forall_mem_nil _, List.forall_mem_nil _, List.forall_mem_nil _⟩
    | false =>
        rw [honly, if_neg Bool.false_ne_true] at hprojects
        exact PassRequest.inline_of_run (r := ⟨context o p, .projects⟩) hrows hstem
          (List.forall_mem_nil _) hprojects
  have hrun : PassRequest.run ⟨context o p, .condition⟩ between = (.ok [condition], block) := by
    simp only [PassRequest.run, hcondition, Except.map]
  obtain ⟨hnames, hinline, hreturns⟩ := hbetween
  obtain ⟨hnames', hinline', hreturns'⟩ := PassRequest.inline_of_run hrows hstem hnames hrun
  rw [List.forall_mem_append] at hreturns hreturns'
  have hdeclared : ∀ d ∈ between.statements, d.init.ReturnsComeFrom p .empty :=
    List.forall_mem_map.mp hreturns.1
  refine ⟨hnames', List.forall_mem_append.mpr ⟨hinline, hinline'⟩, ?_⟩
  rw [List.forall_mem_append, List.forall_mem_append]
  exact ⟨fun e he => (hreturns'.1 e he).trans hdeclared, hreturns.2,
    fun e he => (hreturns'.2 e he).trans hdeclared⟩

end Command

/-- **Code stays on its lines, but for carriage returns in strings.** Take any pass over rows that are
variables, where neither their names nor the prefix nor the names in the block break lines. If it
succeeds, the block is one line for each declaration, which ends with its only line feed, and no result
has a line feed. All of it is free of carriage returns exactly if no string constant in it has one: each
of them stands in the code as it is. Such strings are string literals of the program, or stood in the
block before. The names in the block break no lines afterwards either.

So what the command prints has one line for each declaration and each output, unless the name of the row
or the prefix breaks lines, and it has a carriage return exactly if a string literal in its code has
one. -/
theorem generated_code_stays_on_lines (r : PassRequest) (block after : Block) (es : List Expr)
    (read? : String → Option (List UInt8)) (args : List String) (output : String) :
    ((∀ input ∈ r.context.inputs, ∃ row : Variable, input.row = .var row ∧ IsInline row.name) →
      IsInline r.context.stem → (∀ d ∈ block.statements, d.HasInlineNames) →
      r.run block = (.ok es, after) →
      WrittenInLines after es ∧ (∀ d ∈ after.statements, d.HasInlineNames) ∧
        (('\r' ∉ after.text.toList ∧ ∀ e ∈ es, '\r' ∉ e.text.toList) ↔
          ∀ e ∈ after.statements.map Declaration.init ++ es, ¬ e.HasReturn) ∧
        ∀ e ∈ after.statements.map Declaration.init ++ es,
          e.ReturnsComeFrom r.context.program block) ∧
    (Command.run read? args = .printed output →
      ∃ o p code projects condition, Options.ofArguments? args = some o ∧
        Program.load read? o.program o.format = .ok p ∧
        Command.Lowers o p code projects condition ∧
        output = Command.render code projects condition ∧
        (IsInline o.row → IsInline o.stem →
          WrittenInLines code (projects ++ [condition]) ∧
          output.toList.splitOn '\n' =
            (Command.outputLines code projects condition).map String.toList ++ [[]] ∧
          ('\r' ∈ output.toList ↔
            ∃ e ∈ code.statements.map Declaration.init ++ (projects ++ [condition]), e.HasReturn) ∧
          ∀ e ∈ code.statements.map Declaration.init ++ (projects ++ [condition]), ∀ s,
            .string s ∈ e.constants → '\r' ∈ s.toList → ∃ ty, p.Has (.literal (.string s) ty))) := by
  constructor
  · intro hrows hstem hblock hrun
    obtain ⟨hnames, hinline, hreturns⟩ := PassRequest.inline_of_run hrows hstem hblock hrun
    have hlines := writtenInLines_of_inline hnames hinline
    have hfree := not_congr hlines.return_mem_iff
    simp only [not_or, not_exists, not_and] at hfree
    exact ⟨hlines, hnames, hfree, hreturns⟩
  · intro hrun
    obtain ⟨o, p, hoptions, hload, hlower⟩ := Command.of_run read? hrun
    obtain ⟨code, projects, condition, hlowers, rfl⟩ := Command.of_lowerOutputs hlower
    refine ⟨o, p, code, projects, condition, hoptions, hload, hlowers, rfl, fun hrow hstem => ?_⟩
    obtain ⟨hnames, hinline, hreturns⟩ := hlowers.inline hrow hstem
    have hlines := writtenInLines_of_inline hnames hinline
    refine ⟨hlines, Command.splitOn_render hnames hlines, Command.return_mem_render hlines,
      fun e he s hs hreturn => ?_⟩
    rcases hreturns e he s hs hreturn with hliteral | ⟨d, hd, -⟩
    · exact hliteral
    · cases hd

/-- Projects a string that has a carriage return. -/
def returnProgram : Program where
  inputRowType := []
  exprs := [.literal (.string "a\rb") (.notNull .varchar)]
  projects := [.localRef 0 (.notNull .varchar)]
  condition := none
  faultless := by decide

def returnRequest (policy : NamingPolicy) : PassRequest where
  context := {
    program := returnProgram
    adapter := .standard
    inputs := [⟨.var ⟨"row", .objectArray⟩, .ofRowType returnProgram.inputRowType .standard⟩]
    policy := policy
    stem := "v"
    table := .standard }
  outputs := .projects

def returnBlock : Block := ⟨[⟨⟨"v0", .string⟩, .constant (.string "a\rb") .string, true⟩], ["v0"]⟩

theorem runs_returnRequest :
    (returnRequest .shared).run .empty = (.ok [.constant (.string "a\rb") .string], .empty) ∧
      (returnRequest .all).run .empty = (.ok [.var ⟨"v0", .string⟩], returnBlock) :=
  ⟨Prod.ext (by rfl) (by rfl), Prod.ext (by rfl) (by rfl)⟩

/-- Names break no lines here, and the code has one carriage return, which is that of the program. -/
theorem return_comes_from_program :
    IsInline "row" ∧ IsInline "v" ∧ WrittenInLines returnBlock [.var ⟨"v0", .string⟩] ∧
      '\r' ∈ returnBlock.text.toList := by
  have hrows : ∀ input ∈ (returnRequest .all).context.inputs,
      ∃ row : Variable, input.row = .var row ∧ IsInline row.name := by
    intro input hinput
    rw [List.mem_singleton.mp hinput]
    exact ⟨_, rfl, by decide⟩
  obtain ⟨hlines, -, -, -⟩ := (generated_code_stays_on_lines (returnRequest .all) .empty returnBlock
    [.var ⟨"v0", .string⟩] (fun _ => none) [] "").1 hrows (by decide) (List.forall_mem_nil _)
    runs_returnRequest.2
  refine ⟨by decide, by decide, hlines, hlines.returns.mpr ⟨_, List.mem_cons_self, "a\rb", ?_, ?_⟩⟩
  · rw [Expr.constants]
    exact List.mem_cons_self
  · decide

/-- **A carriage return breaks the line of a result**, and of a declaration if all nodes are named. -/
theorem carriage_return_breaks_line :
    IsInline "row" ∧ IsInline "v" ∧
      (∃ e, (returnRequest .shared).run .empty = (.ok [e], .empty) ∧ e.text = "\"a\rb\"" ∧
        '\r' ∈ e.text.toList) ∧
      (returnRequest .all).run .empty = (.ok [.var ⟨"v0", .string⟩], returnBlock) ∧
      returnBlock.text = "final String v0 = \"a\rb\";\n" := by
  have htext : (Expr.constant (.string "a\rb") .string).text = "\"a\rb\"" := by
    rw [Expr.text]
    rfl
  refine ⟨by decide, by decide, ⟨_, runs_returnRequest.1, htext, ?_⟩, runs_returnRequest.2, ?_⟩
  · rw [htext]
    decide
  · simp only [Block.text, returnBlock, List.map, Declaration.text, Declaration.name, htext]
    rfl

end RowCode
