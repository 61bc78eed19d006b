import RowCode.Proofs.Agreement
import RowCode.Proofs.BinaryForm
import RowCode.Proofs.JsonForm

/-!
# Which programs are read back

A program that comes back keeps what is asked of programs, so that reading its text fails for two
reasons only: a literal that is not finite, which is written as null, and nesting beyond the budget
of the reader. The binary form knows neither.
-/

namespace RowCode

/-! ### Literals and what becomes of them -/

namespace Value

def isFinite : Value → Bool
  | .float x => x.magnitude.isFinite
  | .double x => x.magnitude.isFinite
  | _ => true

theorem readBack?_of_not_floating {v : Value} (hv : v.isFloating = false) : v.readBack? = some v := by
  cases v with
  | float | double => cases hv
  | _ => rfl

theorem fits_of_readBack? {v made : Value} (h : v.readBack? = some made) (t : DataType) :
    made.fits t = v.fits t := by
  cases v with
  | float x | double x =>
      obtain ⟨y, -, rfl⟩ := Option.map_eq_some_iff.mp h
      rfl
  | null | boolean | int8 | int16 | int32 | int64 | decimal | string =>
      obtain rfl := Option.some.inj h
      rfl

theorem isSome_bind_fileNumber? {f : BinaryFormat} {plain : PlainRange} {negative : Bool}
    {magnitude : Magnitude} {α : Type} {convert : JsonNumber → Option α}
    (hconvert : ∀ n, f.fileNumber? plain negative magnitude = some n → (convert n).isSome = true) :
    ((f.fileNumber? plain negative magnitude).bind convert).isSome = magnitude.isFinite := by
  cases magnitude with
  | finite significand exponent => exact hconvert _ rfl
  | infinite | nan => rfl

theorem isSome_readBack? (v : Value) : v.readBack?.isSome = v.isFinite := by
  cases v with
  | float x =>
      rw [readBack?, Option.isSome_map]
      exact isSome_bind_fileNumber? fun n hn => Single.isSome_toSingle? hn
  | double x =>
      rw [readBack?, Option.isSome_map]
      exact isSome_bind_fileNumber? fun n hn => Double.isSome_toDouble? hn
  | null | boolean | int8 | int16 | int32 | int64 | decimal | string => rfl

end Value

namespace Node

def isFloating : Node → Bool
  | literal value _ => value.isFloating
  | _ => false

def isFinite : Node → Bool
  | literal value _ => value.isFinite
  | _ => true

theorem readBackBranch?_eq_some_iff {branch made : Node × Node} :
    readBackBranch? branch = some made ↔
      branch.1.readBack? = some made.1 ∧ branch.2.readBack? = some made.2 := by
  obtain ⟨condition, result⟩ := made
  simp only [readBackBranch?, Option.bind_eq_some_iff, Option.map_eq_some_iff, Prod.mk.injEq]
  grind

theorem call_readBack?_eq_some_iff {op : Operator} {operands : List Node} {ty : LogicalType}
    {made : Node} : (call op operands ty).readBack? = some made ↔
      ∃ operands', operands.mapM readBack? = some operands' ∧ call op operands' ty = made := by
  rw [readBack?, readBackAll?_eq, Option.map_eq_some_iff]

theorem case_readBack?_eq_some_iff {branches : List (Node × Node)} {otherwise : Node}
    {ty : LogicalType} {made : Node} : (case branches otherwise ty).readBack? = some made ↔
      ∃ branches', branches.mapM readBackBranch? = some branches' ∧
        ∃ otherwise', otherwise.readBack? = some otherwise' ∧
          case branches' otherwise' ty = made := by
  rw [readBack?, readBackBranches?_eq, Option.bind_eq_some_iff]
  simp only [Option.map_eq_some_iff]

theorem forall₂_flattenBranches {branches branches' : List (Node × Node)}
    (h : branches.mapM readBackBranch? = some branches') :
    List.Forall₂ (fun node made => node.readBack? = some made) (flattenBranches branches)
      (flattenBranches branches') := by
  induction mapM_eq_some_iff.mp h with
  | nil => exact .nil
  | cons hbranch hrest ih =>
      obtain ⟨hcondition, hresult⟩ := readBackBranch?_eq_some_iff.mp hbranch
      exact .cons hcondition (.cons hresult (ih (mapM_eq_some_iff.mpr hrest)))

/-- A call or a CASE comes back as one of the same operator, child by child. -/
theorem of_readBack?_of_operator? {node made : Node} {op : Operator} (hop : node.operator? = some op)
    (h : node.readBack? = some made) : made.operator? = some op ∧
      List.Forall₂ (fun child made => child.readBack? = some made) node.children made.children := by
  cases node with
  | call op' operands ty =>
      obtain ⟨operands', hoperands, rfl⟩ := call_readBack?_eq_some_iff.mp h
      exact ⟨hop, mapM_eq_some_iff.mp hoperands⟩
  | case branches otherwise ty =>
      obtain ⟨branches', hbranches, otherwise', hotherwise, rfl⟩ := case_readBack?_eq_some_iff.mp h
      exact ⟨hop, List.rel_append (forall₂_flattenBranches hbranches) (.cons hotherwise .nil)⟩
  | inputRef | localRef | literal | dynamicParam => cases hop

theorem isSome_readBack?_of_operator? {node : Node} {op : Operator} (hop : node.operator? = some op) :
    node.readBack?.isSome = true ↔ ∀ child ∈ node.children, child.readBack?.isSome = true := by
  cases node with
  | call op' operands ty => rw [readBack?, readBackAll?_eq, Option.isSome_map, isSome_mapM, children]
  | case branches otherwise ty =>
      rw [forall_mem_children_case, readBack?, readBackBranches?_eq]
      have hbranch (branch : Node × Node) : (readBackBranch? branch).isSome = true ↔
          branch.1.readBack?.isSome = true ∧ branch.2.readBack?.isSome = true := by
        unfold readBackBranch?
        cases branch.1.readBack? <;> cases branch.2.readBack? <;> simp
      simp only [← hbranch, ← isSome_mapM]
      cases branches.mapM readBackBranch? <;> cases otherwise.readBack? <;> simp
  | inputRef | localRef | literal | dynamicParam => cases hop

theorem isSome_readBack?_iff (node : Node) :
    node.readBack?.isSome = true ↔ ∀ part ∈ node.nodes, part.isFinite = true := by
  induction node using children_induction with
  | step node ih =>
      rw [forall_mem_nodes]
      cases hop : node.operator? with
      | some op =>
          have hown : node.isFinite = true := by
            cases node <;> first | rfl | cases hop
          rw [isSome_readBack?_of_operator? hop, and_iff_right hown]
          exact forall₂_congr ih
      | none =>
          cases node with
          | call | case => cases hop
          | inputRef | localRef | dynamicParam => simp [readBack?, isFinite, children]
          | literal value ty =>
              simp [readBack?, isFinite, children, Value.isSome_readBack?]

theorem readBack?_of_not_floating {node : Node} (hplain : ∀ part ∈ node.nodes, part.isFloating = false) :
    node.readBack? = some node := by
  induction node using children_induction with
  | step node ih =>
      obtain ⟨hown, hchildren⟩ := forall_mem_nodes.mp hplain
      have hread : ∀ child ∈ node.children, child.readBack? = some child :=
        fun child hchild => ih child hchild (hchildren child hchild)
      cases node with
      | inputRef | localRef | dynamicParam => rfl
      | literal value ty => rw [readBack?, Value.readBack?_of_not_floating hown, Option.map_some]
      | call op operands ty => exact call_readBack?_eq_some_iff.mpr ⟨operands, mapM_eq_self hread, rfl⟩
      | case branches otherwise ty =>
          obtain ⟨hbranches, hotherwise⟩ := forall_mem_children_case.mp hread
          refine case_readBack?_eq_some_iff.mpr ⟨branches, ?_, otherwise, hotherwise, rfl⟩
          exact mapM_eq_self fun branch hbranch =>
            readBackBranch?_eq_some_iff.mpr (hbranches branch hbranch)

section Faults

variable {position count width : Nat} {node made : Node}

/-- Only literals change, and what they become fits the same types. -/
theorem fault?_of_readBack? (h : node.readBack? = some made)
    (hnone : node.fault? position count width = none) : made.fault? position count width = none := by
  induction node using children_induction generalizing made with
  | step node ih =>
      cases hop : node.operator? with
      | some op =>
          obtain ⟨hop', hchildren⟩ := of_readBack?_of_operator? hop h
          rw [fault?_of_operator? hop', listFault?_eq_none_iff]
          intro made hmade
          obtain ⟨child, hchild, hread⟩ := exists_of_mem_right hchildren hmade
          exact ih child hchild hread (fault?_of_mem_children hnone hchild)
      | none =>
          cases node with
          | call | case => cases hop
          | inputRef | localRef | dynamicParam =>
              obtain rfl := Option.some.inj h
              exact hnone
          | literal value ty =>
              obtain ⟨value', hvalue, rfl⟩ := Option.map_eq_some_iff.mp h
              have hfits : value.fits ty.dataType = true := isSound_of_fault? hnone
              rw [fault?.eq_def]
              simp only [ownFault?, Value.fits_of_readBack? hvalue, hfits, if_true]

theorem exprFault?_of_readBack? {nodes made : List Node}
    (h : List.Forall₂ (fun node made => node.readBack? = some made) nodes made)
    (hnone : exprFault? count width position nodes = none) :
    exprFault? count width position made = none := by
  induction h generalizing position with
  | nil => rfl
  | cons hnode _ ih =>
      rw [exprFault?, Option.or_eq_none_iff] at hnone ⊢
      exact ⟨fault?_of_readBack? hnode hnone.1, ih hnone.2⟩

end Faults

end Node

namespace ProgramParts

theorem readBack?_eq_some_iff {p made : ProgramParts} : p.readBack? = some made ↔
    made.inputRowType = p.inputRowType ∧ p.exprs.mapM Node.readBack? = some made.exprs ∧
      p.projects.mapM Node.readBack? = some made.projects ∧
        p.condition.mapM Node.readBack? = some made.condition := by
  obtain ⟨row, exprs, projects, condition⟩ := made
  simp only [readBack?, Option.bind_eq_some_iff, Option.map_eq_some_iff, ProgramParts.mk.injEq]
  grind

theorem isSome_readBack?_iff (p : ProgramParts) :
    p.readBack?.isSome = true ↔ ∀ node ∈ p.nodes, node.isFinite = true := by
  have hcondition : (p.condition.mapM Node.readBack?).isSome = true ↔
      ∀ node ∈ p.condition.toList, node.readBack?.isSome = true := by
    cases p.condition with
    | none => simp
    | some node => cases h : node.readBack? <;> simp [h]
  rw [forall_mem_nodes]
  simp only [← Node.isSome_readBack?_iff]
  rw [← hcondition, ← isSome_mapM, ← isSome_mapM, readBack?]
  cases p.exprs.mapM Node.readBack? <;> cases p.projects.mapM Node.readBack? <;>
    cases p.condition.mapM Node.readBack? <;> simp

theorem readBack?_of_not_floating {p : ProgramParts}
    (hplain : ∀ node ∈ p.nodes, node.isFloating = false) : p.readBack? = some p := by
  obtain ⟨hexprs, hprojects, hcondition⟩ := forall_mem_nodes.mp hplain
  refine readBack?_eq_some_iff.mpr ⟨rfl, ?_, ?_, ?_⟩
  · exact mapM_eq_self fun node hnode => Node.readBack?_of_not_floating (hexprs node hnode)
  · exact mapM_eq_self fun node hnode => Node.readBack?_of_not_floating (hprojects node hnode)
  · cases h : p.condition with
    | none => rfl
    | some node =>
        have hnode := Node.readBack?_of_not_floating (hcondition node (by simp [h]))
        simp [hnode]

/-- The outputs of a program are references, which come back as they are. -/
theorem outputs_of_readBack? {p : Program} {made : ProgramParts} (h : p.readBack? = some made) :
    made.outputs = p.outputs := by
  have hself : ∀ output ∈ p.outputs, output.readBack? = some output := by
    intro output houtput
    obtain ⟨index, ty, rfl, -⟩ := Program.of_mem_outputs houtput
    rfl
  obtain ⟨hprojects', hcondition'⟩ := List.forall_mem_append.mp hself
  obtain ⟨-, -, hprojects, hcondition⟩ := readBack?_eq_some_iff.mp h
  rw [mapM_eq_self hprojects'] at hprojects
  have hcondition : made.condition = p.condition := by
    cases hp : p.condition with
    | none =>
        rw [hp] at hcondition
        exact (Option.some.inj hcondition).symm
    | some node =>
        rw [hp] at hcondition hcondition'
        rw [Option.mapM_some, hcondition' node (by simp)] at hcondition
        exact (Option.some.inj hcondition).symm
  rw [outputs, outputs, ← Option.some.inj hprojects, hcondition]

theorem fault?_of_readBack? {p : Program} {made : ProgramParts} (h : p.readBack? = some made) :
    made.fault? = none := by
  have hnone := p.faultless
  obtain ⟨hrow, hexprs, -, -⟩ := readBack?_eq_some_iff.mp h
  have hexprs := mapM_eq_some_iff.mp hexprs
  rw [fault?, Option.or_eq_none_iff] at hnone ⊢
  rw [hrow, outputs_of_readBack? h, ← hexprs.length_eq]
  exact ⟨Node.exprFault?_of_readBack? hexprs hnone.1, hnone.2⟩

end ProgramParts

/-! ### How deep the text of a program is nested -/

namespace Json

theorem nestingItems_le_iff {items : List Json} {bound : Nat} :
    nestingItems items ≤ bound ↔ ∀ j ∈ items, j.nesting ≤ bound := by
  induction items with
  | nil => simp [nestingItems]
  | cons j rest ih => rw [nestingItems, Nat.max_le, ih, List.forall_mem_cons]

theorem nestingMembers_le_iff {members : List (String × Json)} {bound : Nat} :
    nestingMembers members ≤ bound ↔ ∀ member ∈ members, member.2.nesting ≤ bound := by
  induction members with
  | nil => simp [nestingMembers]
  | cons member rest ih => rw [nestingMembers, Nat.max_le, ih, List.forall_mem_cons]

theorem nesting_list_le_iff {items : List Json} {bound : Nat} :
    (list items).nesting ≤ bound + 1 ↔ ∀ j ∈ items, j.nesting ≤ bound := by
  rw [nesting, Nat.add_le_add_iff_right, nestingItems_le_iff]

theorem nesting_object_le_iff {members : List (String × Json)} {bound : Nat} :
    (object members).nesting ≤ bound + 1 ↔ ∀ member ∈ members, member.2.nesting ≤ bound := by
  rw [nesting, Nat.add_le_add_iff_right, nestingMembers_le_iff]

theorem nesting_variant (name : String) (payload : Json) :
    (variant name payload).nesting = payload.nesting + 1 := by
  simp [variant, nesting, nestingMembers]

theorem nesting_ofLogicalType (t : LogicalType) : (ofLogicalType t).nesting = 1 := by
  simp [ofLogicalType, nesting, nestingMembers]

theorem nesting_ofValue_le (v : Value) : (ofValue v).nesting ≤ 1 := by
  have hfloat (text : Option String) : (ofFloatText text).nesting = 0 := by
    cases text <;> rfl
  cases v with
  | float | double => simp [ofValue, nesting_variant, hfloat]
  | null | boolean | int8 | int16 | int32 | int64 | decimal | string =>
      simp [ofValue, nesting_variant, nesting, ofInt]

theorem nesting_ofIndexed (name : String) (index : Nat) (ty : LogicalType) :
    (ofIndexed name index ty).nesting = 3 := by
  simp [ofIndexed, nesting_variant, nesting, nestingMembers, nesting_ofLogicalType, ofNat]

theorem nesting_record_le {name : String} {members : List (String × Json)} {bound : Nat}
    (hmembers : ∀ member ∈ members, member.2.nesting ≤ bound) :
    (variant name (object members)).nesting ≤ bound + 2 := by
  rw [nesting_variant]
  exact Nat.succ_le_succ (nesting_object_le_iff.mpr hmembers)

theorem nesting_ofNodes_le {nodes : List Node} {bound : Nat}
    (hnodes : ∀ node ∈ nodes, (ofNode node).nesting ≤ bound) :
    (list (ofNodes nodes)).nesting ≤ bound + 1 := by
  rw [nesting_list_le_iff, ofNodes_eq, List.forall_mem_map]
  exact hnodes

/-- A branch is a list in a list. -/
theorem nesting_ofBranches_le {branches : List (Node × Node)} {bound : Nat}
    (hbranches : ∀ branch ∈ branches,
      (ofNode branch.1).nesting ≤ bound ∧ (ofNode branch.2).nesting ≤ bound) :
    (list (ofBranches branches)).nesting ≤ bound + 2 := by
  rw [nesting_list_le_iff, ofBranches_eq, List.forall_mem_map]
  intro branch hbranch
  rw [ofBranch, nesting_list_le_iff]
  simpa using hbranches branch hbranch

/-- A node is a record in a variant, and the branches of a CASE are two levels deeper. -/
theorem nesting_ofNode_le (node : Node) : (ofNode node).nesting ≤ 4 * node.nesting + 3 := by
  induction node using Node.children_induction with
  | step node ih =>
      have hchild : ∀ child ∈ node.children, (ofNode child).nesting ≤ 4 * node.nesting - 1 := by
        intro child hchild
        have hle := ih child hchild
        have hlt := Node.nesting_lt_of_mem_children hchild
        omega
      have hlevel : ∀ child ∈ node.children, 0 < node.nesting :=
        fun child hchild => Nat.zero_lt_of_lt (Node.nesting_lt_of_mem_children hchild)
      generalize node.nesting = n at hchild hlevel ⊢
      cases node with
      | inputRef | localRef | dynamicParam => simp [ofNode, nesting_ofIndexed]
      | literal value ty =>
          have hvalue := nesting_ofValue_le value
          have hty := nesting_ofLogicalType ty
          apply nesting_record_le
          simp only [List.forall_mem_cons, List.not_mem_nil, false_implies, implies_true, and_true]
          omega
      | call op operands ty =>
          have hoperands : (list (ofNodes operands)).nesting ≤ _ := nesting_ofNodes_le hchild
          have hty := nesting_ofLogicalType ty
          have hop : (string op.fileName).nesting = 0 := rfl
          apply nesting_record_le
          simp only [List.forall_mem_cons, List.not_mem_nil, false_implies, implies_true, and_true]
          omega
      | case branches otherwise ty =>
          obtain ⟨hbranches, hotherwise⟩ := Node.forall_mem_children_case.mp hchild
          obtain ⟨-, hpos⟩ := Node.forall_mem_children_case.mp hlevel
          have hbranches := nesting_ofBranches_le hbranches
          have hty := nesting_ofLogicalType ty
          apply nesting_record_le
          simp only [List.forall_mem_cons, List.not_mem_nil, false_implies, implies_true, and_true]
          omega

theorem nesting_ofProgram_le {p : Program} {bound : Nat}
    (hp : ∀ node ∈ p.exprs ++ p.outputs, node.nesting ≤ bound) :
    (ofProgram p).nesting ≤ 4 * bound + 5 := by
  have hnodes : ∀ node ∈ p.exprs ++ p.outputs, (ofNode node).nesting ≤ 4 * bound + 3 := by
    intro node hnode
    have hle := nesting_ofNode_le node
    have hbound := hp node hnode
    omega
  rw [ProgramParts.outputs, List.forall_mem_append, List.forall_mem_append] at hnodes
  obtain ⟨hexprs, hprojects, hcondition⟩ := hnodes
  have hrow : (list (p.inputRowType.map ofLogicalType)).nesting ≤ 4 * bound + 4 := by
    rw [nesting_list_le_iff, List.forall_mem_map]
    intro t _
    rw [nesting_ofLogicalType]
    omega
  have hcondition : (ofCondition p.condition).nesting ≤ 4 * bound + 4 := by
    cases h : p.condition with
    | none => exact Nat.zero_le _
    | some node => exact Nat.le_succ_of_le (hcondition node (by simp [h]))
  have hexprs : (list (ofNodes p.exprs)).nesting ≤ 4 * bound + 4 := nesting_ofNodes_le hexprs
  have hprojects : (list (ofNodes p.projects)).nesting ≤ 4 * bound + 4 := nesting_ofNodes_le hprojects
  rw [ofProgram, nesting_object_le_iff]
  simp [hrow, hexprs, hprojects, hcondition]

end Json

/-! ### Reading what was written -/

namespace Json

open ByteReader

theorem encode_json (p : Program) :
    FileFormat.json.encode p = utf8Bytes ((ofProgram p).indented 0) :=
  toUTF8_ofList _

theorem run?_program (bytes : List UInt8) :
    run? JsonReader.program bytes =
      (run? (JsonReader.parts JsonReader.nestingLimit) bytes).bind fun result =>
        (Program.ofParts result.1).toOption.map (·, result.2) := by
  unfold JsonReader.program
  rw [run?_bind]
  refine Option.bind_congr fun result _ => ?_
  cases Program.ofParts result.1 <;> rfl

theorem readProgram_eq_ok_iff {bytes : List UInt8} {p : Program} :
    readProgram bytes = .ok p ↔
      ∃ rest, run? JsonReader.program bytes = some (p, rest) ∧ JsonToken.dropSpace rest = [] := by
  unfold readProgram run?
  cases JsonReader.program bytes with
  | error fault => simp [Except.toOption]
  | ok result =>
      obtain ⟨q, rest⟩ := result
      simp only [Except.toOption, Option.some.injEq, Prod.mk.injEq]
      by_cases hrest : JsonToken.dropSpace rest = []
      · simp [hrest]
      · simp [hrest]

/-- A program is read from what was written of it just if the text is not nested beyond the budget,
and it is then what comes back. -/
theorem readProgram_ofProgram_iff {p q : Program} (hp : p.fitsWords = true) :
    readProgram (FileFormat.json.encode p) = .ok q ↔
      (ofProgram p).nesting ≤ JsonReader.nestingLimit ∧ p.readBack? = some q.toProgramParts := by
  have hread := JsonReader.makes_parts hp JsonReader.nestingLimit (Nat.le_refl _) 0 [] []
    JsonToken.blank_nil (by rintro b ⟨⟩)
  rw [List.nil_append, List.append_nil] at hread
  rw [encode_json, readProgram_eq_ok_iff]
  simp only [run?_program, hread, JsonReader.bind_within]
  unfold JsonReader.within
  by_cases hnesting : (ofProgram p).nesting ≤ JsonReader.nestingLimit
  · cases hmade : p.readBack? with
    | none => simp
    | some made =>
        have hparts : Program.ofParts made = .ok q ↔ made = q.toProgramParts :=
          ⟨Program.of_ofParts_ok, fun h => h ▸ q.ofParts_toProgramParts⟩
        have hrest : JsonToken.dropSpace [] = [] := rfl
        simp only [if_pos hnesting, Option.map_some, Option.bind_some, Option.some.injEq, ← hparts]
        cases Program.ofParts made <;> simp [hnesting, hrest, Except.toOption]
  · simp [hnesting]

end Json

namespace FileFormat

/-- **JSON keeps programs without floating-point literals.** Such a program is read back from what is
written of it if no node is nested deeper than 20 levels. -/
theorem json_keeps_plain_programs (p : Program) (hp : p.fitsWords = true)
    (hplain : ∀ node ∈ p.nodes, node.isFloating = false)
    (hnesting : ∀ node ∈ p.exprs ++ p.outputs, node.nesting ≤ 20) :
    json.decode (json.encode p) = .ok p := by
  rw [decode, Json.readProgram_ofProgram_iff hp]
  refine ⟨?_, ProgramParts.readBack?_of_not_floating hplain⟩
  calc (Json.ofProgram p).nesting ≤ 4 * 20 + 5 := Json.nesting_ofProgram_le hnesting
    _ ≤ JsonReader.nestingLimit := by decide

/-- A decimal with its scale, a string that has to be escaped, and an index of 64 bits. -/
def plainProgram : Program where
  inputRowType := [.orNull .decimal, .notNull .varchar]
  exprs := [.literal (.decimal (.finite false 2500 (-2) (by decide))) (.notNull .decimal),
    .case [(.call .equals [.inputRef 1 (.notNull .varchar),
        .literal (.string "\"é\\\x01\n") (.notNull .varchar)] (.notNull .boolean),
      .localRef 0 (.notNull .decimal))] (.dynamicParam (2 ^ 64 - 1) (.orNull .decimal))
      (.orNull .decimal)]
  projects := [.localRef 1 (.orNull .decimal)]
  condition := none
  faultless := by decide

theorem plain_program_is_read_back :
    json.decode (json.encode plainProgram) = .ok plainProgram :=
  json_keeps_plain_programs plainProgram (by decide) (by decide) (by decide)

/-- **What a file holds is read again, or not.** What is written in binary is always read. What is
written in JSON is read just if it is nested within the budget of the reader and every literal is
finite. -/
theorem written_program_is_read_iff (p : Program) (hp : p.fitsWords = true) (format : FileFormat) :
    (∃ q, format.decode (format.encode p) = .ok q) ↔
      (format = .json → (Json.ofProgram p).nesting ≤ JsonReader.nestingLimit ∧
        ∀ node ∈ p.nodes, node.isFinite = true) := by
  cases format with
  | binary =>
      have hread := Binary.readProgram_ofProgram hp []
      rw [List.append_nil] at hread
      constructor
      · rintro _ ⟨⟩
      · exact fun _ => ⟨p, hread⟩
  | json =>
      have hmade : (∃ q : Program, p.readBack? = some q.toProgramParts) ↔
          ∀ node ∈ p.nodes, node.isFinite = true := by
        rw [← ProgramParts.isSome_readBack?_iff, Option.isSome_iff_exists]
        constructor
        · rintro ⟨q, hq⟩
          exact ⟨q.toProgramParts, hq⟩
        · rintro ⟨made, hmade⟩
          exact ⟨⟨made, ProgramParts.fault?_of_readBack? hmade⟩, hmade⟩
      simp only [decode, Json.readProgram_ofProgram_iff hp, exists_and_left, hmade,
        forall_true_left]

/-- One literal, which is projected. -/
def doubleProgram (x : Double) : Program where
  inputRowType := []
  exprs := [.literal (.double x) (.notNull .double)]
  projects := [.localRef 0 (.notNull .double)]
  condition := none
  faultless := by rfl

/-- A tenth. -/
theorem finite_program_is_read :
    ∃ q, json.decode (json.encode (doubleProgram ⟨0x3fb999999999999a⟩)) = .ok q :=
  (written_program_is_read_iff _ (by decide) .json).mpr fun _ => ⟨by decide, by decide⟩

/-- Infinity is written as null, which is no number, although the program may hold it. -/
theorem infinite_program_is_not_read :
    ¬∃ q, json.decode (json.encode (doubleProgram ⟨0x7ff0000000000000⟩)) = .ok q := by
  rintro ⟨q, hq⟩
  rw [decode, Json.readProgram_ofProgram_iff (by decide)] at hq
  obtain ⟨-, hmade⟩ := hq
  have hfinite := (ProgramParts.isSome_readBack?_iff _).mp (Option.isSome_of_eq_some hmade)
  revert hfinite
  decide

end FileFormat

end RowCode
