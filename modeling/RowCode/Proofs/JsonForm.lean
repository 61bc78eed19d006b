import Mathlib.Data.List.Forall2
import RowCode.File.Format
import RowCode.Proofs.DecimalReading
import RowCode.Proofs.FloatNumbers
import RowCode.Proofs.JsonShape
import RowCode.Proofs.StoredPrograms

/-!
# Programs are read back from JSON

A program is written member by member and read the same way. It comes back as it was, its
floating-point literals as their text is read, unless a literal is not finite or the text is nested
beyond the budget of the reader.
-/

namespace RowCode

/-! ### Items one by one -/

section Items

variable {α β : Type} {f : α → Option β}

theorem mapM_eq_some_iff {xs : List α} {ys : List β} :
    xs.mapM f = some ys ↔ List.Forall₂ (fun x y => f x = some y) xs ys := by
  induction xs generalizing ys with
  | nil => simp [eq_comm]
  | cons x xs ih =>
      rw [List.mapM_cons, List.forall₂_cons_left_iff]
      simp only [Option.pure_def, Option.bind_eq_bind, Option.bind_eq_some_iff, ih, Option.some.injEq]
      grind

theorem isSome_mapM {xs : List α} :
    (xs.mapM f).isSome = true ↔ ∀ x ∈ xs, (f x).isSome = true := by
  induction xs with
  | nil => simp
  | cons x xs ih =>
      rw [List.mapM_cons, List.forall_mem_cons, ← ih]
      cases f x <;> cases xs.mapM f <;> simp

theorem mapM_eq_self {f : α → Option α} {xs : List α} (h : ∀ x ∈ xs, f x = some x) :
    xs.mapM f = some xs :=
  mapM_eq_some_iff.mpr (List.forall₂_same.mpr h)

end Items

/-! ### What comes back -/

/-- A literal as it is read back: a floating-point number by its text. -/
def Value.readBack? : Value → Option Value
  | .float x => (x.fileNumber?.bind JsonNumber.toSingle?).map .float
  | .double x => (x.fileNumber?.bind JsonNumber.toDouble?).map .double
  | v => some v

namespace Node

mutual

/-- A node as it is read back. -/
def readBack? : Node → Option Node
  | inputRef index ty => some (.inputRef index ty)
  | localRef index ty => some (.localRef index ty)
  | literal value ty => value.readBack?.map fun value => .literal value ty
  | call op operands ty => (readBackAll? operands).map fun operands => .call op operands ty
  | case branches otherwise ty =>
    (readBackBranches? branches).bind fun branches =>
      (readBack? otherwise).map fun otherwise => .case branches otherwise ty
  | dynamicParam index ty => some (.dynamicParam index ty)

def readBackAll? : List Node → Option (List Node)
  | [] => some []
  | node :: rest =>
    (readBack? node).bind fun node => (readBackAll? rest).map fun rest => node :: rest

def readBackBranches? : List (Node × Node) → Option (List (Node × Node))
  | [] => some []
  | (condition, result) :: rest =>
    (readBack? condition).bind fun condition => (readBack? result).bind fun result =>
      (readBackBranches? rest).map fun rest => (condition, result) :: rest

end

theorem readBackAll?_eq (nodes : List Node) : readBackAll? nodes = nodes.mapM readBack? := by
  induction nodes with
  | nil => rfl
  | cons node rest ih =>
      rw [readBackAll?, ih, List.mapM_cons]
      cases readBack? node <;> cases rest.mapM readBack? <;> rfl

/-- A branch as it is read back. -/
def readBackBranch? (branch : Node × Node) : Option (Node × Node) :=
  branch.1.readBack?.bind fun condition => branch.2.readBack?.map fun result => (condition, result)

theorem readBackBranches?_eq (branches : List (Node × Node)) :
    readBackBranches? branches = branches.mapM readBackBranch? := by
  induction branches with
  | nil => rfl
  | cons branch rest ih =>
      rw [readBackBranches?, ih, List.mapM_cons, readBackBranch?]
      cases readBack? branch.1 <;> cases readBack? branch.2 <;>
        cases rest.mapM readBackBranch? <;> rfl

end Node

/-- The parts of a program as they are read back. -/
def ProgramParts.readBack? (p : ProgramParts) : Option ProgramParts :=
  (p.exprs.mapM Node.readBack?).bind fun exprs =>
    (p.projects.mapM Node.readBack?).bind fun projects =>
      (p.condition.mapM Node.readBack?).map fun condition =>
        ⟨p.inputRowType, exprs, projects, condition⟩

namespace Json

theorem ofNodes_eq (nodes : List Node) : ofNodes nodes = nodes.map ofNode := by
  induction nodes with
  | nil => rfl
  | cons node rest ih => rw [ofNodes, ih, List.map_cons]

def ofBranch (branch : Node × Node) : Json := .list [ofNode branch.1, ofNode branch.2]

theorem ofBranches_eq (branches : List (Node × Node)) :
    ofBranches branches = branches.map ofBranch := by
  induction branches with
  | nil => rfl
  | cons branch rest ih => rw [ofBranches, ih, List.map_cons, ofBranch]

theorem isCompound_ofNode (node : Node) : (ofNode node).IsCompound := by
  cases node <;> trivial

theorem nesting_ofNode_pos (node : Node) : 0 < (ofNode node).nesting := by
  cases node <;> exact Nat.succ_pos _

end Json

namespace JsonReader

open ByteReader JsonToken JsonNumber

variable {limit : Nat}

theorem makes_dataType (t : DataType) :
    Makes limit dataType (.string t.fileName) (some t) := by
  rw [← DataType.ofFileName?_fileName t]
  exact makes_name DataType.ofFileName? noPayload t.fileName

theorem makes_operator (op : Operator) :
    Makes limit operator (.string op.fileName) (some op) := by
  rw [← Operator.ofFileName?_fileName op]
  exact makes_name Operator.ofFileName? noPayload op.fileName

theorem makes_logicalType (t : LogicalType) :
    Makes limit logicalType (Json.ofLogicalType t) (some t) := by
  have hrecord : Makes (limit + 1) logicalType (Json.ofLogicalType t) (some t) :=
    makes_record (.cons rfl rfl (makes_dataType t.dataType) fun _ _ =>
      .cons rfl rfl (makes_boolean t.nullable) fun _ _ => .nil _) rfl
  exact hrecord.mono (Nat.le_succ limit)

theorem makes_indexed (make : Nat → LogicalType → Node) {index : Nat} (hindex : index < 2 ^ 64)
    (ty : LogicalType) :
    Makes (limit + 1) (indexed make)
      (.object [("index", .ofNat index), ("ty", .ofLogicalType ty)]) (some (make index ty)) :=
  makes_record (.cons rfl rfl (makes_index hindex) fun _ _ =>
    .cons rfl rfl (makes_logicalType ty) fun _ _ => .nil _) rfl

theorem makes_decimal (d : Decimal) : Makes limit (fun _ => decimal) (.string d.text) (some d) := by
  apply makes_of_scalar rfl
  intro _ space rest hspace _
  change run? decimal (space ++ (utf8Bytes (Json.quote d.text) ++ rest)) = some (d, rest)
  unfold decimal
  rw [run?_bind, run?_string hspace, Option.bind_some]
  simp only [Decimal.ofText?_text, run?_pure]

theorem run?_number_null {space : List UInt8} (hspace : Blank space) (rest : List UInt8) :
    run? number (space ++ (utf8Bytes (Json.scalarText .null) ++ rest)) = none := by
  change run? number (space ++ 'n'.toUInt8 :: _) = none
  unfold number
  rw [run?_bind, run?_peek_append hspace (by decide), Option.bind_some, run?_take]
  rfl

/-- A number that may have no text, in either precision. -/
theorem makes_float {α : Type} {n? : Option JsonNumber} (hn : ∀ n ∈ n?, n.WellFormed)
    (convert : JsonNumber → Option α) :
    Makes limit (fun _ => do ofOption (convert (← number)))
      (Json.ofFloatText (n?.map fun n => String.ofList n.chars)) (n?.bind convert) := by
  cases n? with
  | none =>
      apply makes_of_scalar rfl
      intro _ space rest hspace _
      rw [run?_bind]
      exact congrArg (Option.bind · _) (run?_number_null hspace rest)
  | some n =>
      apply makes_of_scalar rfl
      intro _ space rest hspace hrest
      have hread := run?_number hspace (hn n rfl) hrest.stops
      simp only [Option.map_some, Json.ofFloatText, Json.scalarText, String.toList_ofList]
      rw [run?_bind, hread, Option.bind_some, run?_ofOption]
      rfl

theorem makes_single (x : Single) :
    Makes limit (fun _ => single) (Json.ofFloatText x.fileText?)
      (x.fileNumber?.bind JsonNumber.toSingle?) := by
  rw [Single.fileText?_eq]
  exact makes_float (fun _ hn => Single.wellFormed_of_fileNumber? hn) JsonNumber.toSingle?

theorem makes_double (x : Double) :
    Makes limit (fun _ => double) (Json.ofFloatText x.fileText?)
      (x.fileNumber?.bind JsonNumber.toDouble?) := by
  rw [Double.fileText?_eq]
  exact makes_float (fun _ hn => Double.wellFormed_of_fileNumber? hn) JsonNumber.toDouble?

/-- A signed integer of a width that 64 bits are enough for, by which a value is made. -/
theorem makes_width {bits : Nat} (hbits : bits ≤ 64) {i : Int} (hlow : -2 ^ (bits - 1) ≤ i)
    (hhigh : i < 2 ^ (bits - 1)) {f : Int → Value} {v : Value} (hf : f i = v) :
    Makes limit (fun _ => f <$> signed bits) (.ofInt i) (some v) := by
  have hmax : (signedMax bits : Int) = 2 ^ (bits - 1) - 1 := by
    rw [signedMax, Int.ofNat_sub (Nat.two_pow_pos _)]
    simp
  have hread : Makes limit (fun _ => signed bits) (.ofInt i) (some i) :=
    makes_signed hbits (by omega) (by omega)
  subst hf
  exact hread.map f

theorem makes_value (v : Value) : Makes limit value (Json.ofValue v) v.readBack? := by
  have hvalue : Makes (limit + 1) value (Json.ofValue v) v.readBack? := by
    cases v with
    | null => exact makes_name _ _ "Null"
    | boolean b => exact makes_variant rfl (fun _ => rfl) ((makes_boolean b).map Value.boolean)
    | int8 n =>
        exact makes_variant rfl (fun _ => rfl)
          (makes_width (by decide) n.le_toInt n.toInt_lt (by rw [Int8.ofInt_toInt]))
    | int16 n =>
        exact makes_variant rfl (fun _ => rfl)
          (makes_width (by decide) n.le_toInt n.toInt_lt (by rw [Int16.ofInt_toInt]))
    | int32 n =>
        exact makes_variant rfl (fun _ => rfl)
          (makes_width (by decide) n.le_toInt n.toInt_lt (by rw [Int32.ofInt_toInt]))
    | int64 n =>
        exact makes_variant rfl (fun _ => rfl)
          (makes_width (by decide) n.le_toInt n.toInt_lt (by rw [Int64.ofInt_toInt]))
    | float x => exact makes_variant rfl (fun _ => rfl) ((makes_single x).map Value.float)
    | double x => exact makes_variant rfl (fun _ => rfl) ((makes_double x).map Value.double)
    | decimal d => exact makes_variant rfl (fun _ => rfl) ((makes_decimal d).map Value.decimal)
    | string s => exact makes_variant rfl (fun _ => rfl) ((makes_string s).map Value.string)
  exact hvalue.mono (Nat.le_succ limit)

theorem makes_literal (v : Value) (ty : LogicalType) :
    Makes (limit + 1) literal (.object [("value", .ofValue v), ("ty", .ofLogicalType ty)])
      (v.readBack?.map fun v => .literal v ty) := by
  refine makes_record (.cons rfl rfl (makes_value v) fun _ _ =>
    .cons rfl rfl (makes_logicalType ty) fun _ _ => .nil _) ?_
  cases v.readBack? <;> rfl

section Nodes

variable {read : Nat → ByteReader Node}

theorem makes_nodes {nodes : List Node}
    (hnodes : ∀ node ∈ nodes, Makes limit read (.ofNode node) node.readBack?) :
    Makes (limit + 1) (fun depth => list depth read) (.list (Json.ofNodes nodes))
      (nodes.mapM Node.readBack?) := by
  rw [Json.ofNodes_eq]
  exact makes_list fun node hnode => ⟨Json.isCompound_ofNode node, hnodes node hnode⟩

theorem makes_branches {branches : List (Node × Node)}
    (hbranches : ∀ branch ∈ branches, Makes limit read (.ofNode branch.1) branch.1.readBack? ∧
      Makes limit read (.ofNode branch.2) branch.2.readBack?) :
    Makes (limit + 1 + 1) (fun depth => list depth fun depth => pair depth read)
      (.list (Json.ofBranches branches)) (branches.mapM Node.readBackBranch?) := by
  rw [Json.ofBranches_eq]
  refine makes_list fun branch hbranch => ⟨trivial, ?_⟩
  obtain ⟨hcondition, hresult⟩ := hbranches branch hbranch
  exact makes_pair ⟨Json.isCompound_ofNode _, hcondition⟩ ⟨Json.isCompound_ofNode _, hresult⟩

theorem makes_call (op : Operator) {operands : List Node} (ty : LogicalType)
    (hoperands : ∀ node ∈ operands, Makes limit read (.ofNode node) node.readBack?) :
    Makes (limit + 1 + 1) (call read)
      (.object [("op", .string op.fileName), ("operands", .list (Json.ofNodes operands)),
        ("ty", .ofLogicalType ty)])
      ((operands.mapM Node.readBack?).map fun operands => .call op operands ty) := by
  refine makes_record (.cons rfl rfl (makes_operator op) fun _ _ =>
    .cons rfl rfl (makes_nodes hoperands) fun _ _ =>
      .cons rfl rfl (makes_logicalType ty) fun _ _ => .nil _) ?_
  cases operands.mapM Node.readBack? <;> rfl

theorem makes_case {branches : List (Node × Node)} {otherwise : Node} (ty : LogicalType)
    (hbranches : ∀ branch ∈ branches, Makes limit read (.ofNode branch.1) branch.1.readBack? ∧
      Makes limit read (.ofNode branch.2) branch.2.readBack?)
    (hotherwise : Makes limit read (.ofNode otherwise) otherwise.readBack?) :
    Makes (limit + 1) (case read)
      (.object [("branches", .list (Json.ofBranches branches)), ("otherwise", .ofNode otherwise),
        ("ty", .ofLogicalType ty)])
      ((branches.mapM Node.readBackBranch?).bind fun branches =>
        otherwise.readBack?.map fun otherwise => .case branches otherwise ty) := by
  have hlist := (makes_branches hbranches).mono (Nat.le_add_right limit 2)
  refine makes_record (.cons rfl rfl hlist fun _ _ => .cons rfl rfl hotherwise fun _ _ =>
    .cons rfl rfl (makes_logicalType ty) fun _ _ => .nil _) ?_
  cases branches.mapM Node.readBackBranch? <;> cases otherwise.readBack? <;> rfl

end Nodes

/-- A budget for nodes bounds the budget for nesting that it is enough for. -/
theorem makes_node (levels : Nat) {p : Node} (hp : p.AllFitWords) :
    Makes levels (node levels) (.ofNode p) p.readBack? := by
  induction levels generalizing p with
  | zero =>
      intro depth hdepth indent space rest _ _
      obtain rfl := Nat.le_zero.mp hdepth
      obtain ⟨n, hn⟩ := Nat.exists_eq_succ_of_ne_zero (Nat.ne_of_gt (Json.nesting_ofNode_pos p))
      rw [hn, within_exhausted]
      rfl
  | succ levels ih =>
      obtain ⟨hown, hchildren⟩ := Node.forall_mem_nodes.mp hp
      have hchildren : ∀ child ∈ p.children,
          Makes levels (node levels) (.ofNode child) child.readBack? :=
        fun child hchild => ih (hchildren child hchild)
      cases p with
      | inputRef index ty =>
          exact makes_variant rfl (fun _ => rfl)
            ((makes_indexed .inputRef (of_decide_eq_true hown) ty).mono (Nat.le_succ levels))
      | localRef index ty =>
          exact makes_variant rfl (fun _ => rfl)
            ((makes_indexed .localRef (of_decide_eq_true hown) ty).mono (Nat.le_succ levels))
      | literal value ty =>
          rw [Node.readBack?]
          exact makes_variant rfl (fun _ => rfl) ((makes_literal value ty).mono (Nat.le_succ levels))
      | call op operands ty =>
          rw [Node.readBack?, Node.readBackAll?_eq]
          exact makes_variant rfl (fun _ => rfl)
            ((makes_call op ty hchildren).mono (Nat.le_add_right levels 2))
      | case branches otherwise ty =>
          obtain ⟨hbranches, hotherwise⟩ := Node.forall_mem_children_case.mp hchildren
          rw [Node.readBack?, Node.readBackBranches?_eq]
          exact makes_variant rfl (fun _ => rfl)
            ((makes_case ty hbranches hotherwise).mono (Nat.le_succ levels))
      | dynamicParam index ty =>
          exact makes_variant rfl (fun _ => rfl)
            ((makes_indexed .dynamicParam (of_decide_eq_true hown) ty).mono (Nat.le_succ levels))

theorem makes_rowType (row : List LogicalType) :
    Makes limit (fun depth => list depth logicalType) (.list (row.map Json.ofLogicalType))
      (some row) := by
  have hrow : row.mapM (fun t => some t) = some row := mapM_eq_self fun _ _ => rfl
  have hlist : Makes (limit + 1) (fun depth => list depth logicalType)
      (.list (row.map Json.ofLogicalType)) (row.mapM fun t => some t) :=
    makes_list fun t _ => ⟨trivial, makes_logicalType t⟩
  rw [hrow] at hlist
  exact hlist.mono (Nat.le_succ limit)

theorem makes_condition {condition : Option Node} {read : Nat → ByteReader Node}
    (hcondition : ∀ node ∈ condition, Makes limit read (.ofNode node) node.readBack?) :
    Makes limit (fun depth => optional (read depth)) (Json.ofCondition condition)
      (condition.mapM Node.readBack?) := by
  cases condition with
  | none => exact makes_missing read
  | some node =>
      have hmade : (some node).mapM Node.readBack? = node.readBack?.map some := by
        cases h : node.readBack? <;> simp [h]
      rw [hmade]
      exact makes_present (Json.isCompound_ofNode node) (hcondition node rfl)

theorem makes_parts {p : Program} (hp : p.fitsWords = true) :
    Makes nestingLimit parts (Json.ofProgram p) p.readBack? := by
  obtain ⟨-, -, -, hnodes⟩ := ProgramParts.of_fitsWords hp
  obtain ⟨hexprs, hprojects, hcondition⟩ := ProgramParts.forall_mem_nodes.mp hnodes
  have hread := fun {q : Node} (hq : q.AllFitWords) => makes_node nestingLimit hq
  -- The reader of nodes and the budget are only passed on here, so neither is opened.
  unfold parts Json.ofProgram
  generalize node nestingLimit = read at hread ⊢
  generalize nestingLimit = limit at hread ⊢
  have hcondition : ∀ node ∈ p.condition, Makes limit read (.ofNode node) node.readBack? :=
    fun node hnode => hread (hcondition node (Option.mem_toList.mpr hnode))
  refine Makes.mono (makes_record (.cons rfl rfl (makes_rowType p.inputRowType) fun _ _ =>
    .cons rfl rfl ((makes_nodes fun node hnode => hread (hexprs node hnode)).mono (Nat.le_succ limit))
      fun _ _ =>
    .cons rfl rfl ((makes_nodes fun node hnode => hread (hprojects node hnode)).mono
      (Nat.le_succ limit)) fun _ _ =>
    .cons rfl rfl (makes_condition hcondition) fun _ _ => .nil _) ?_) (Nat.le_succ limit)
  unfold ProgramParts.readBack?
  cases p.exprs.mapM Node.readBack? <;> cases p.projects.mapM Node.readBack? <;>
    cases p.condition.mapM Node.readBack? <;> rfl

end JsonReader

end RowCode
