import RowCode.Lowering.Input
import RowCode.Proofs.Agreement

/-!
# Fields of several rows

Fields are numbered across rows, so that a number stands for one field of one row. Reading a field
binds its row to a variable unless one holds it already: however many fields are read, in whatever
order, each row is declared once.
-/

namespace RowCode

namespace RowInput

/-! ### Places of fields -/

/-- Whether field `index`, counted across the rows, is field `offset` of the row at `position`. -/
structure IsField (inputs : List RowInput) (index position : Nat) (input : RowInput)
    (offset : Nat) : Prop where
  input_at : inputs[position]? = some input
  offset_lt : offset < input.layout.fieldCount
  index_eq : index = totalFields (inputs.take position) + offset

variable {inputs rest : List RowInput} {head input : RowInput} {index position offset : Nat}

theorem totalFields_cons :
    totalFields (head :: rest) = head.layout.fieldCount + totalFields rest := rfl

theorem isField_zero :
    IsField (head :: rest) index 0 input offset ↔
      input = head ∧ offset = index ∧ index < head.layout.fieldCount := by
  constructor
  · rintro ⟨hinput, hoffset, hindex⟩
    obtain rfl := Option.some.inj hinput
    have hoffset' : offset = index := by simpa [totalFields] using hindex.symm
    exact ⟨rfl, hoffset', hoffset' ▸ hoffset⟩
  · rintro ⟨rfl, rfl, hlt⟩
    exact ⟨rfl, hlt, by simp [totalFields]⟩

theorem isField_succ :
    IsField (head :: rest) index (position + 1) input offset ↔
      head.layout.fieldCount ≤ index ∧
        IsField rest (index - head.layout.fieldCount) position input offset := by
  constructor
  · rintro ⟨hinput, hoffset, hindex⟩
    rw [List.take_succ_cons, totalFields_cons] at hindex
    exact ⟨by omega, hinput, hoffset, by omega⟩
  · rintro ⟨hle, hinput, hoffset, hindex⟩
    refine ⟨hinput, hoffset, ?_⟩
    rw [List.take_succ_cons, totalFields_cons]
    omega

/-- **The search finds the field with the given number.** -/
theorem locate?_eq_some_iff {start found : Nat} :
    locate? start inputs index = some (found, input, offset) ↔
      ∃ position, found = start + position ∧ IsField inputs index position input offset := by
  fun_induction locate? start inputs index with
  | case1 start index =>
      constructor
      · intro h
        cases h
      · rintro ⟨position, -, hinput, -, -⟩
        cases hinput
  | case2 start head rest index hlt =>
      constructor
      · intro h
        obtain ⟨rfl, rfl, rfl⟩ : start = found ∧ head = input ∧ index = offset := by simpa using h
        exact ⟨0, rfl, isField_zero.mpr ⟨rfl, rfl, hlt⟩⟩
      · rintro ⟨position, rfl, hfield⟩
        cases position with
        | zero =>
            obtain ⟨rfl, rfl, -⟩ := isField_zero.mp hfield
            rfl
        | succ position => exact absurd (isField_succ.mp hfield).1 (by omega)
  | case3 start head rest index hlt ih =>
      rw [ih]
      constructor
      · rintro ⟨position, rfl, hfield⟩
        exact ⟨position + 1, by omega, isField_succ.mpr ⟨by omega, hfield⟩⟩
      · rintro ⟨position, rfl, hfield⟩
        cases position with
        | zero => exact absurd (isField_zero.mp hfield).2.2 hlt
        | succ position => exact ⟨position, by omega, (isField_succ.mp hfield).2⟩

theorem locate?_eq_none_iff {start : Nat} :
    locate? start inputs index = none ↔ totalFields inputs ≤ index := by
  fun_induction locate? start inputs index with
  | case1 start index => simp [totalFields]
  | case2 start head rest index hlt =>
      rw [totalFields_cons]
      simp
      omega
  | case3 start head rest index hlt ih =>
      rw [ih, totalFields_cons]
      omega

theorem locate?_eq_some_iff_isField :
    locate? 0 inputs index = some (position, input, offset) ↔
      IsField inputs index position input offset := by
  rw [locate?_eq_some_iff]
  constructor
  · rintro ⟨position', rfl, hfield⟩
    rwa [Nat.zero_add]
  · intro hfield
    exact ⟨position, (Nat.zero_add _).symm, hfield⟩

theorem exists_isField_iff :
    (∃ position input offset, IsField inputs index position input offset) ↔
      index < totalFields inputs := by
  cases hlocate : locate? 0 inputs index with
  | none =>
      have hle := locate?_eq_none_iff.mp hlocate
      constructor
      · rintro ⟨position, input, offset, hfield⟩
        rw [locate?_eq_some_iff_isField.mpr hfield] at hlocate
        cases hlocate
      · intro hlt
        omega
  | some found =>
      have hlt : index < totalFields inputs := by
        refine Nat.lt_of_not_le fun hle => ?_
        rw [locate?_eq_none_iff.mpr hle] at hlocate
        cases hlocate
      exact ⟨fun _ => hlt, fun _ => ⟨_, _, _, locate?_eq_some_iff_isField.mp hlocate⟩⟩

theorem IsField.unique {position' offset' : Nat} {input' : RowInput}
    (h : IsField inputs index position input offset)
    (h' : IsField inputs index position' input' offset') :
    position' = position ∧ input' = input ∧ offset' = offset := by
  have hlocate := locate?_eq_some_iff_isField.mpr h'
  rw [locate?_eq_some_iff_isField.mpr h, Option.some_inj, Prod.mk.injEq, Prod.mk.injEq] at hlocate
  exact ⟨hlocate.1.symm, hlocate.2.1.symm, hlocate.2.2.symm⟩

theorem IsField.mem (h : IsField inputs index position input offset) : input ∈ inputs :=
  List.mem_of_getElem? h.input_at

/-- A difference of natural numbers, if there is one. -/
def difference? (n m : Nat) : Option Nat := if m ≤ n then some (n - m) else none

/-- The search for a field, which fails if the number that is left would fall below zero. -/
def locateChecked? (start : Nat) : List RowInput → Nat → Option (Option (Nat × RowInput × Nat))
  | [], _ => some none
  | input :: rest, offset =>
    if offset < input.layout.fieldCount then some (some (start, input, offset))
    else (difference? offset input.layout.fieldCount).bind (locateChecked? (start + 1) rest)

theorem locateChecked?_eq (start : Nat) (inputs : List RowInput) (index : Nat) :
    locateChecked? start inputs index = some (locate? start inputs index) := by
  fun_induction locate? start inputs index with
  | case1 start index => rfl
  | case2 start head rest index hlt => rw [locateChecked?, if_pos hlt]
  | case3 start head rest index hlt ih =>
      rw [locateChecked?, if_neg hlt, difference?, if_pos (Nat.le_of_not_lt hlt), Option.bind_some,
        ih]

/-! ### What a read does -/

/-- What a read of field `index` gives that is field `offset` of `input`: an element of a variable
that holds the row, in the host type of the field. The row is declared unless the block holds it. -/
def Reads (inputs : List RowInput) (block : Block) (index position : Nat) (input : RowInput)
    (offset : Nat) : Prop :=
  ∃ holder ty block',
    readField inputs block index = (.ok (((Expr.var holder).elementAt offset).coerce ty), block') ∧
    input.layout.fieldTypes[offset]? = some ty ∧
    block'.Holds holder input.row ∧
    ((∃ v, block.Holds v input.row) → block' = block) ∧
    ((∀ v, ¬ block.Holds v input.row) →
      (holder, block') = block.declareFinal (rowName position) input.row)

variable {block : Block}

theorem readField_of_isField (h : IsField inputs index position input offset) :
    readField inputs block index =
      (input.layout.fieldOf (.var (block.append (rowName position) input.row).1) offset,
        (block.append (rowName position) input.row).2) := by
  have hne : inputs.isEmpty = false :=
    List.isEmpty_eq_false_iff.mpr (List.ne_nil_of_mem h.mem)
  rw [readField, hne, locate?_eq_some_iff_isField.mpr h]
  rfl

theorem reads_of_isField (hrow : input.row.FloatFree)
    (h : IsField inputs index position input offset) :
    Reads inputs block index position input offset := by
  obtain ⟨ty, hty⟩ : ∃ ty, input.layout.fieldTypes[offset]? = some ty :=
    ⟨_, List.getElem?_eq_getElem h.offset_lt⟩
  refine ⟨(block.append (rowName position) input.row).1, ty,
    (block.append (rowName position) input.row).2, ?_, hty, Block.holds_append hrow _,
    fun hheld => Block.append_of_holds hrow hheld _,
    fun hheld => Block.append_of_not_holds hrow hheld _⟩
  rw [readField_of_isField h, RowLayout.fieldOf, hty]

theorem readField_of_le (hle : totalFields inputs ≤ index) :
    readField inputs block index =
      (.error (if inputs.isEmpty then .noInput index
        else .inputIndexOutOfBounds index (totalFields inputs)), block) := by
  rw [readField]
  split
  · rfl
  · rw [locate?_eq_none_iff.mpr hle]

/-! ### Any number of reads -/

/-- The block after reading the fields with the given numbers, one after the other. -/
def readAll (inputs : List RowInput) (block : Block) (indices : List Nat) : Block :=
  indices.foldl (fun block index => (readField inputs block index).2) block

/-- Whether one of the numbers is that of a field of `row`. -/
def IsRead (inputs : List RowInput) (indices : List Nat) (row : Expr) : Prop :=
  ∃ index ∈ indices, ∃ position input offset,
    IsField inputs index position input offset ∧ input.row = row

theorem isRead_cons {indices : List Nat} {row : Expr} :
    IsRead inputs (index :: indices) row ↔
      (∃ position input offset, IsField inputs index position input offset ∧ input.row = row) ∨
        IsRead inputs indices row := by
  simp only [IsRead, List.mem_cons, or_and_right, exists_or, exists_eq_left]

theorem isRead_of_all {indices : List Nat} (hall : ∀ index < totalFields inputs, index ∈ indices)
    (hmem : input ∈ inputs) (hpos : 0 < input.layout.fieldCount) :
    IsRead inputs indices input.row := by
  obtain ⟨position, hinput⟩ := List.mem_iff_getElem?.mp hmem
  have hfield : IsField inputs (totalFields (inputs.take position)) position input 0 :=
    ⟨hinput, hpos, rfl⟩
  exact ⟨_, hall _ (exists_isField_iff.mp ⟨_, _, _, hfield⟩), _, _, _, hfield, rfl⟩

/-- One read declares one row, or none. -/
theorem readField_declares (hrows : ∀ input ∈ inputs, input.row.FloatFree) (block : Block)
    (index : Nat) :
    ((readField inputs block index).2 = block ∧
      ∀ position input offset, IsField inputs index position input offset →
        ∃ v, block.Holds v input.row) ∨
    ∃ position input offset, IsField inputs index position input offset ∧
      (∀ v, ¬ block.Holds v input.row) ∧
      (readField inputs block index).2 = (block.declareFinal (rowName position) input.row).2 := by
  rcases Nat.lt_or_ge index (totalFields inputs) with hlt | hle
  · obtain ⟨position, input, offset, hfield⟩ := exists_isField_iff.mpr hlt
    have hrow := hrows input hfield.mem
    by_cases hheld : ∃ v, block.Holds v input.row
    · refine .inl ⟨?_, fun position' input' offset' hfield' => ?_⟩
      · rw [readField_of_isField hfield, Block.append_of_holds hrow hheld]
      · rw [(hfield.unique hfield').2.1]
        exact hheld
    · refine .inr ⟨position, input, offset, hfield, not_exists.mp hheld, ?_⟩
      rw [readField_of_isField hfield, Block.append_of_not_holds hrow (not_exists.mp hheld)]
  · refine .inl ⟨by rw [readField_of_le hle], fun position input offset hfield => ?_⟩
    have hlt := exists_isField_iff.mp ⟨position, input, offset, hfield⟩
    omega

/-- **Rows are declared once.** Of the rows of which a field is read, those that no variable holds
yet are declared, each of them once, and nothing else is. -/
theorem readAll_declares (hrows : ∀ input ∈ inputs, input.row.FloatFree) (block : Block)
    (indices : List Nat) :
    ∃ added : List Declaration,
      (readAll inputs block indices).statements = block.statements ++ added ∧
      (∀ d ∈ added, d.isFinal = true) ∧ (added.map Declaration.init).Nodup ∧
      ∀ row, row ∈ added.map Declaration.init ↔
        IsRead inputs indices row ∧ ∀ v, ¬ block.Holds v row := by
  -- Over every block, as the row that the first read declares is held for the others.
  induction indices generalizing block with
  | nil => exact ⟨[], by simp [readAll], by simp, by simp, by simp [IsRead]⟩
  | cons index indices ih =>
      obtain ⟨added, hstatements, hfinal, hnodup, hadded⟩ := ih (readField inputs block index).2
      rcases readField_declares hrows block index with
        ⟨hblock, hheld⟩ | ⟨position, input, offset, hfield, hnot, hblock⟩
      · rw [hblock] at hstatements hadded
        refine ⟨added, by rw [← hstatements, readAll, List.foldl_cons, hblock, readAll], hfinal,
          hnodup, fun row => ?_⟩
        rw [hadded, isRead_cons]
        refine and_congr_left fun hrow => (or_iff_right ?_).symm
        rintro ⟨position, input, offset, hfield, rfl⟩
        obtain ⟨v, hv⟩ := hheld position input offset hfield
        exact hrow v hv
      · rw [hblock] at hstatements hadded
        refine ⟨⟨(block.declareFinal (rowName position) input.row).1, input.row, true⟩ :: added,
          ?_, List.forall_mem_cons.mpr ⟨rfl, hfinal⟩, ?_, fun row => ?_⟩
        · rw [readAll, List.foldl_cons, hblock, ← readAll, hstatements,
            Block.statements_declareFinal, List.append_assoc, List.singleton_append]
        · refine List.nodup_cons.mpr ⟨fun hmem => ?_, hnodup⟩
          obtain ⟨v, hv⟩ := Block.holds_declareFinal_iff.mpr (.inr rfl)
          exact ((hadded _).mp hmem).2 v hv
        · rw [List.map_cons, List.mem_cons, hadded, isRead_cons, ← not_exists, ← not_exists,
            Block.holds_declareFinal_iff]
          constructor
          · rintro (rfl | ⟨hread, hnone⟩)
            · exact ⟨.inl ⟨position, input, offset, hfield, rfl⟩, not_exists.mpr hnot⟩
            · exact ⟨.inr hread, fun hheld => hnone (.inl hheld)⟩
          · rintro ⟨⟨position', input', offset', hfield', rfl⟩ | hread, hnone⟩
            · exact .inl (by rw [(hfield.unique hfield').2.1])
            · refine Classical.or_iff_not_imp_left.mpr fun hne => ⟨hread, ?_⟩
              exact not_or.mpr ⟨hnone, hne⟩

/-- **Fields are numbered across rows.** A number below the total stands for one field of one row;
reading it gives an element of a variable that holds the row, in the host type of the field, and
declares the row unless the block holds it. Any other number fails and leaves the block as it is.
However often fields are read, and in whatever order, the rows that are read and not held before are
declared once each; when all fields are read, these are all rows that have a field. The number that
is left of an index never falls below zero. -/
theorem fields_are_numbered_across_rows (inputs : List RowInput)
    (hrows : ∀ input ∈ inputs, input.row.FloatFree) (block : Block) :
    (∀ index, (∃ e, (readField inputs block index).1 = .ok e) ↔ index < totalFields inputs) ∧
    (∀ index < totalFields inputs, ∃ position input offset,
      IsField inputs index position input offset ∧
      (∀ position' input' offset', IsField inputs index position' input' offset' →
        position' = position ∧ input' = input ∧ offset' = offset) ∧
      Reads inputs block index position input offset) ∧
    (∀ index, totalFields inputs ≤ index →
      readField inputs block index =
        (.error (if inputs.isEmpty then .noInput index
          else .inputIndexOutOfBounds index (totalFields inputs)), block)) ∧
    (∀ indices : List Nat, ∃ added : List Declaration,
      (readAll inputs block indices).statements = block.statements ++ added ∧
      (∀ d ∈ added, d.isFinal = true) ∧ (added.map Declaration.init).Nodup ∧
      ∀ row, row ∈ added.map Declaration.init ↔
        IsRead inputs indices row ∧ ∀ v, ¬ block.Holds v row) ∧
    (∀ indices : List Nat, (∀ index < totalFields inputs, index ∈ indices) →
      ∀ input ∈ inputs, 0 < input.layout.fieldCount → IsRead inputs indices input.row) ∧
    ∀ index, locateChecked? 0 inputs index = some (locate? 0 inputs index) := by
  have hreads {index position : Nat} {input : RowInput} {offset : Nat}
      (hfield : IsField inputs index position input offset) :
      Reads inputs block index position input offset :=
    reads_of_isField (hrows input hfield.mem) hfield
  refine ⟨fun index => ⟨?_, fun hlt => ?_⟩, fun index hlt => ?_, fun index hle => readField_of_le hle,
    readAll_declares hrows block, fun indices hall input => isRead_of_all hall,
    locateChecked?_eq 0 inputs⟩
  · rintro ⟨e, he⟩
    refine Nat.lt_of_not_le fun hle => ?_
    rw [readField_of_le hle] at he
    cases he
  · obtain ⟨position, input, offset, hfield⟩ := exists_isField_iff.mpr hlt
    obtain ⟨holder, ty, block', hread, -⟩ := hreads hfield
    exact ⟨_, by rw [hread]⟩
  · obtain ⟨position, input, offset, hfield⟩ := exists_isField_iff.mpr hlt
    exact ⟨position, input, offset, hfield, fun _ _ _ => hfield.unique, hreads hfield⟩

/-- Rows of two fields, of none and of three. -/
def threeRows : List RowInput :=
  [⟨.var ⟨"left", .array .object⟩, ⟨[.object, .object]⟩⟩,
    ⟨.var ⟨"unit", .array .object⟩, ⟨[]⟩⟩,
    ⟨.var ⟨"right", .array .object⟩, ⟨[.object, .boxed .long, .object]⟩⟩]

theorem field_three_is_second_of_third_row :
    (∀ input ∈ threeRows, input.row.FloatFree) ∧ 3 < totalFields threeRows ∧
      Reads threeRows .empty 3 2
        ⟨.var ⟨"right", .array .object⟩, ⟨[.object, .boxed .long, .object]⟩⟩ 1 := by
  have hrows : ∀ input ∈ threeRows, input.row.FloatFree := by
    simp [threeRows, Expr.FloatFree, Expr.constants]
  have hlt : 3 < totalFields threeRows := by decide
  obtain ⟨position, input, offset, -, hunique, hreads⟩ :=
    (fields_are_numbered_across_rows threeRows hrows .empty).2.1 3 hlt
  obtain ⟨rfl, rfl, rfl⟩ := hunique 2 _ 1 ⟨rfl, by decide, rfl⟩
  exact ⟨hrows, hlt, hreads⟩

example : (readAll threeRows .empty [3, 0, 4, 1]).text =
    "final Object[] current2 = right;\nfinal Object[] current0 = left;\n" := by
  cbv

end RowInput

end RowCode
