import RowCode.File.Format
import RowCode.Proofs.ByteReading
import RowCode.Proofs.DecimalReading
import RowCode.Proofs.StoredPrograms

/-!
# The binary form is exact

Reading what was written makes the same value, whatever follows it; and what is read, decimals apart,
was written just so. Both are stated of a reader as such, so that sequencing, lists and variants are
looked at once.
-/

namespace RowCode

namespace BinaryReader

variable {α β : Type}

/-- Reading the bytes makes `a` and leaves what follows them. -/
def Reads (read : ByteReader α) (bytes : List UInt8) (a : α) : Prop :=
  ∀ rest, read (bytes ++ rest) = .ok (a, rest)

/-- What is read and the bytes that it took satisfy `Q`. -/
def Takes (read : ByteReader α) (Q : α → List UInt8 → Prop) : Prop :=
  ∀ bytes a rest, read bytes = .ok (a, rest) → ∃ taken, bytes = taken ++ rest ∧ Q a taken

/-! ### Sequencing -/

theorem Reads.pure (a : α) : Reads (Pure.pure a) [] a := fun _ => rfl

theorem Reads.bind {read : ByteReader α} {f : α → ByteReader β} {bytes bytes' : List UInt8} {a : α}
    {b : β} (hread : Reads read bytes a) (hf : Reads (f a) bytes' b) :
    Reads (read >>= f) (bytes ++ bytes') b := by
  intro rest
  rw [List.append_assoc, ByteReader.bind_ok (hread _), hf]

theorem Reads.finish {read : ByteReader α} {bytes : List UInt8} {a : α} (hread : Reads read bytes a)
    (f : α → β) : Reads (read >>= fun a => Pure.pure (f a)) bytes (f a) := by
  have hbind := hread.bind (f := fun a => Pure.pure (f a)) (.pure (f a))
  rwa [List.append_nil] at hbind

theorem Takes.pure (a : α) : Takes (Pure.pure a) fun b taken => b = a ∧ taken = [] := by
  intro bytes b rest h
  obtain ⟨rfl, rfl⟩ := Prod.mk.inj (Except.ok.inj h)
  exact ⟨[], rfl, rfl, rfl⟩

theorem Takes.fail (fault : DecodeFault) (Q : α → List UInt8 → Prop) : Takes (fail fault) Q := by
  intro bytes a rest h
  cases h

theorem Takes.bind {read : ByteReader α} {f : α → ByteReader β} {Q : α → List UInt8 → Prop}
    {R : α → β → List UInt8 → Prop} (hread : Takes read Q) (hf : ∀ a, Takes (f a) (R a)) :
    Takes (read >>= f) fun b taken =>
      ∃ a first second, taken = first ++ second ∧ Q a first ∧ R a b second := by
  intro bytes b rest h
  obtain ⟨a, mid, hfirst, hsecond⟩ := ByteReader.of_bind_ok h
  obtain ⟨first, rfl, hQ⟩ := hread _ _ _ hfirst
  obtain ⟨second, rfl, hR⟩ := hf a _ _ _ hsecond
  exact ⟨first ++ second, (List.append_assoc _ _ _).symm, a, first, second, rfl, hQ, hR⟩

theorem Takes.mono {read : ByteReader α} {Q R : α → List UInt8 → Prop} (hread : Takes read Q)
    (himp : ∀ a taken, Q a taken → R a taken) : Takes read R := by
  intro bytes a rest h
  obtain ⟨taken, hbytes, hQ⟩ := hread bytes a rest h
  exact ⟨taken, hbytes, himp a taken hQ⟩

theorem Takes.finish {read : ByteReader α} {Q : α → List UInt8 → Prop} (hread : Takes read Q)
    (f : α → β) :
    Takes (read >>= fun a => Pure.pure (f a)) fun b taken => ∃ a, b = f a ∧ Q a taken := by
  refine (hread.bind fun a => .pure (f a)).mono ?_
  rintro b taken ⟨a, first, second, rfl, hQ, rfl, rfl⟩
  exact ⟨a, rfl, by rwa [List.append_nil]⟩

/-! ### Numbers -/

theorem reads_take (bytes : List UInt8) : Reads (take bytes.length) bytes bytes := by
  intro rest
  unfold take
  rw [if_pos (by simp), List.take_left, List.drop_left]

theorem takes_take (count : Nat) :
    Takes (take count) fun bytes taken => taken = bytes ∧ bytes.length = count := by
  intro bytes a rest h
  unfold take at h
  split at h
  · obtain ⟨rfl, rfl⟩ := Prod.mk.inj (Except.ok.inj h)
    exact ⟨_, (List.take_append_drop count bytes).symm, rfl, List.length_take_of_le ‹_›⟩
  · cases h

theorem littleEndianValue_lt (bytes : List UInt8) :
    Binary.littleEndianValue bytes < 256 ^ bytes.length := by
  induction bytes with
  | nil => decide
  | cons b rest ih =>
      have hb := b.toNat_lt
      rw [Binary.littleEndianValue, List.length_cons, Nat.pow_succ]
      omega

theorem littleEndian_littleEndianValue (bytes : List UInt8) :
    Binary.littleEndian bytes.length (Binary.littleEndianValue bytes) = bytes := by
  induction bytes with
  | nil => rfl
  | cons b rest ih =>
      have hb := b.toNat_lt
      have hrest : (b.toNat + 256 * Binary.littleEndianValue rest) / 256 =
          Binary.littleEndianValue rest := by omega
      have hfirst : UInt8.ofNat (b.toNat + 256 * Binary.littleEndianValue rest) = b := by
        apply UInt8.toNat_inj.mp
        rw [UInt8.toNat_ofNat']
        omega
      rw [Binary.littleEndianValue, List.length_cons, Binary.littleEndian, hrest, ih, hfirst]

theorem reads_word {width n : Nat} (hn : n < 256 ^ width) :
    Reads (word width) (Binary.littleEndian width n) n := by
  have htake := reads_take (Binary.littleEndian width n)
  rw [Binary.length_littleEndian] at htake
  have hword := htake.finish Binary.littleEndianValue
  rwa [Binary.littleEndianValue_littleEndian width n hn] at hword

theorem takes_word (width : Nat) :
    Takes (word width) fun n taken => taken = Binary.littleEndian width n ∧ n < 256 ^ width := by
  refine ((takes_take width).finish _).mono ?_
  rintro n taken ⟨bytes, rfl, rfl, rfl⟩
  exact ⟨(littleEndian_littleEndianValue _).symm, littleEndianValue_lt _⟩

theorem reads_tag {n : Nat} (hn : n < 2 ^ 32) : Reads tag (Binary.ofTag n) n := reads_word hn

theorem reads_nat {n : Nat} (hn : n < 2 ^ 64) : Reads nat (Binary.ofNat n) n := reads_word hn

theorem takes_tag : Takes tag fun n taken => taken = Binary.ofTag n :=
  (takes_word 4).mono fun _ _ h => h.1

theorem takes_nat : Takes nat fun n taken => taken = Binary.ofNat n ∧ n < 2 ^ 64 := takes_word 8

theorem reads_boolean (b : Bool) : Reads boolean (Binary.ofBool b) b := by
  cases b <;> exact fun _ => rfl

theorem takes_boolean : Takes boolean fun b taken => taken = Binary.ofBool b := by
  refine ((takes_word 1).bind (R := fun n b taken => taken = [] ∧ n = if b then 1 else 0) ?_).mono ?_
  · intro n
    split
    · exact (Takes.pure false).mono (by rintro _ _ ⟨rfl, rfl⟩; exact ⟨rfl, rfl⟩)
    · exact (Takes.pure true).mono (by rintro _ _ ⟨rfl, rfl⟩; exact ⟨rfl, rfl⟩)
    · exact .fail _ _
  · rintro b taken ⟨n, first, second, rfl, ⟨rfl, -⟩, rfl, rfl⟩
    cases b <;> rfl

/-! ### Texts and variants -/

theorem reads_string {s : String} (hs : s.utf8ByteSize < 2 ^ 64) :
    Reads string (Binary.ofString s) s := by
  intro rest
  change (nat >>= _) (Binary.ofNat s.utf8ByteSize ++ s.toUTF8.data.toList ++ rest) = _
  rw [List.append_assoc, ByteReader.bind_ok (reads_nat hs _)]
  change (take s.toUTF8.data.toList.length >>= _) _ = _
  rw [ByteReader.bind_ok (reads_take _ rest), fromUTF8?_toUTF8]
  rfl

theorem takes_string :
    Takes string fun s taken => taken = Binary.ofString s ∧ s.utf8ByteSize < 2 ^ 64 := by
  refine (takes_nat.bind fun length => (takes_take length).bind
    (R := fun bytes s taken => taken = [] ∧ bytes = s.toUTF8.data.toList) fun bytes => ?_).mono ?_
  · split
    · rename_i s hs
      exact (Takes.pure s).mono (by rintro _ _ ⟨rfl, rfl⟩; exact ⟨rfl, eq_toUTF8_of_fromUTF8? hs⟩)
    · exact .fail _ _
  · rintro s taken ⟨length, first, second, rfl, ⟨rfl, hlength⟩, bytes, third, fourth, rfl, ⟨rfl, rfl⟩,
      rfl, rfl⟩
    rw [List.append_nil]
    exact ⟨rfl, hlength⟩

section Variants

variable {variants : List α} [BEq α] [LawfulBEq α]

theorem reads_oneOf {a : α} (ha : a ∈ variants) (hlength : variants.length ≤ 2 ^ 32) :
    Reads (oneOf variants) (Binary.ofTag (variants.idxOf a)) a := by
  have hlt : variants.idxOf a < variants.length := List.idxOf_lt_length_iff.mpr ha
  have hget : variants[variants.idxOf a]? = some a := by
    rw [List.getElem?_eq_getElem hlt, List.getElem_idxOf hlt]
  intro rest
  unfold oneOf
  rw [ByteReader.bind_ok (reads_tag (Nat.lt_of_lt_of_le hlt hlength) rest), hget]
  rfl

theorem takes_oneOf (hnodup : variants.Nodup) :
    Takes (oneOf variants) fun a taken => taken = Binary.ofTag (variants.idxOf a) := by
  refine (takes_tag.bind (R := fun n a taken => taken = [] ∧ variants[n]? = some a) ?_).mono ?_
  · intro n
    split
    · rename_i a ha
      exact (Takes.pure a).mono (by rintro _ _ ⟨rfl, rfl⟩; exact ⟨rfl, ha⟩)
    · exact .fail _ _
  · rintro a taken ⟨n, first, second, rfl, rfl, rfl, hget⟩
    obtain ⟨hlt, rfl⟩ := List.getElem?_eq_some_iff.mp hget
    rw [hnodup.idxOf_getElem, List.append_nil]

end Variants

/-! ### Lists -/

section Lists

variable {read : ByteReader α} {write : α → List UInt8}

theorem Reads.items {as : List α} (hread : ∀ a ∈ as, Reads read (write a) a) :
    Reads (items read as.length) (as.flatMap write) as := by
  induction as with
  | nil => exact .pure []
  | cons a rest ih =>
      obtain ⟨hfirst, hrest⟩ := List.forall_mem_cons.mp hread
      rw [List.flatMap_cons]
      exact hfirst.bind ((ih hrest).finish (a :: ·))

theorem Reads.list {as : List α} (hread : ∀ a ∈ as, Reads read (write a) a)
    (hlength : as.length < 2 ^ 64) :
    Reads (list read) (Binary.ofNat as.length ++ as.flatMap write) as :=
  (reads_nat hlength).bind (.items hread)

/-! Items that satisfy `P`, and that were written just so if they satisfy `D`. -/

variable {P D : α → Prop}

theorem Takes.items (hread : Takes read fun a taken => P a ∧ (D a → taken = write a)) (count : Nat) :
    Takes (items read count) fun as taken => as.length = count ∧ (∀ a ∈ as, P a) ∧
      ((∀ a ∈ as, D a) → taken = as.flatMap write) := by
  induction count with
  | zero =>
      refine (Takes.pure []).mono ?_
      rintro as taken ⟨rfl, rfl⟩
      simp
  | succ count ih =>
      refine (hread.bind fun a => ih.finish (a :: ·)).mono ?_
      rintro as taken ⟨a, first, second, rfl, ⟨hP, hD⟩, rest, rfl, rfl, hPs, hDs⟩
      simp only [List.forall_mem_cons, List.flatMap_cons, List.length_cons]
      exact ⟨trivial, ⟨hP, hPs⟩, fun h => by rw [hD h.1, hDs h.2]⟩

theorem Takes.list (hread : Takes read fun a taken => P a ∧ (D a → taken = write a)) :
    Takes (list read) fun as taken => (as.length < 2 ^ 64 ∧ ∀ a ∈ as, P a) ∧
      ((∀ a ∈ as, D a) → taken = Binary.ofNat as.length ++ as.flatMap write) := by
  refine (takes_nat.bind fun count => .items hread count).mono ?_
  rintro as taken ⟨count, first, second, rfl, ⟨rfl, hcount⟩, rfl, hP, hD⟩
  exact ⟨⟨hcount, hP⟩, fun h => by rw [hD h]⟩

end Lists

/-! ### Types and literals -/

theorem reads_logicalType (ty : LogicalType) :
    Reads logicalType (Binary.ofLogicalType ty) ty :=
  (reads_oneOf (DataType.mem_all ty.dataType) (by decide)).bind
    ((reads_boolean ty.nullable).finish (LogicalType.mk ty.dataType))

theorem takes_logicalType : Takes logicalType fun ty taken => taken = Binary.ofLogicalType ty := by
  refine ((takes_oneOf (by decide)).bind fun dataType =>
    takes_boolean.finish (LogicalType.mk dataType)).mono ?_
  rintro ty taken ⟨dataType, first, second, rfl, rfl, nullable, rfl, rfl⟩
  rfl

theorem reads_decimal (d : Decimal) : Reads decimal (Binary.ofString d.text) d := by
  have hlength : d.text.utf8ByteSize < 2 ^ 64 := by
    have hbytes := length_utf8Bytes_le d.chars
    have hchars := d.length_chars_le
    rw [← length_toUTF8, Decimal.text, toUTF8_ofList]
    omega
  intro rest
  unfold decimal
  rw [ByteReader.bind_ok (reads_string hlength rest), Decimal.ofText?_text]
  rfl

/-- A decimal may be written in more than one way, so that nothing is said of the bytes. -/
theorem takes_decimal : Takes decimal fun _ _ => True := by
  refine (takes_string.bind (R := fun _ _ _ => True) fun text => ?_).mono fun _ _ _ => trivial
  split
  · exact (Takes.pure _).mono fun _ _ _ => trivial
  · exact .fail _ _

theorem reads_number {width n : Nat} {f : Nat → Value} {v : Value} (hn : n < 256 ^ width)
    (hf : f n = v) : Reads (f <$> word width) (Binary.littleEndian width n) v :=
  hf ▸ (reads_word hn).finish f

theorem reads_value {v : Value} (hv : v.fitsWords = true) : Reads value (Binary.ofValue v) v := by
  cases v with
  | null => exact (reads_tag (by decide)).finish fun _ => Value.null
  | boolean b => exact (reads_tag (by decide)).bind ((reads_boolean b).finish Value.boolean)
  | int8 n => exact (reads_tag (by decide)).bind (reads_number n.toBitVec.isLt (by simp))
  | int16 n => exact (reads_tag (by decide)).bind (reads_number n.toBitVec.isLt (by simp))
  | int32 n => exact (reads_tag (by decide)).bind (reads_number n.toBitVec.isLt (by simp))
  | int64 n => exact (reads_tag (by decide)).bind (reads_number n.toBitVec.isLt (by simp))
  | float x => exact (reads_tag (by decide)).bind (reads_number x.bits.toNat_lt (by simp))
  | double x => exact (reads_tag (by decide)).bind (reads_number x.bits.toNat_lt (by simp))
  | decimal d => exact (reads_tag (by decide)).bind ((reads_decimal d).finish Value.decimal)
  | string s =>
      exact (reads_tag (by decide)).bind ((reads_string (of_decide_eq_true hv)).finish Value.string)

/-- Every number that is read is written as the bytes it was read from. -/
theorem takes_number {width : Nat} {f : Nat → Value} {tag : Nat}
    (hf : ∀ n < 256 ^ width, (f n).fitsWords = true ∧
      Binary.ofValue (f n) = Binary.ofTag tag ++ Binary.littleEndian width n) :
    Takes (f <$> word width) fun v taken => v.fitsWords = true ∧
      (v.isDecimal = false → Binary.ofTag tag ++ taken = Binary.ofValue v) := by
  refine ((takes_word width).finish f).mono ?_
  rintro v taken ⟨n, rfl, rfl, hn⟩
  exact ⟨(hf n hn).1, fun _ => (hf n hn).2.symm⟩

theorem takes_value : Takes value fun v taken => v.fitsWords = true ∧
    (v.isDecimal = false → taken = Binary.ofValue v) := by
  refine (takes_tag.bind (R := fun tag v taken => v.fitsWords = true ∧
    (v.isDecimal = false → Binary.ofTag tag ++ taken = Binary.ofValue v)) fun tag => ?_).mono ?_
  · split
    · refine (Takes.pure Value.null).mono ?_
      rintro v taken ⟨rfl, rfl⟩
      exact ⟨rfl, fun _ => rfl⟩
    · refine (takes_boolean.finish Value.boolean).mono ?_
      rintro v taken ⟨b, rfl, rfl⟩
      exact ⟨rfl, fun _ => rfl⟩
    iterate 6 · exact takes_number fun n hn => ⟨rfl, by simp [Binary.ofValue, Nat.mod_eq_of_lt hn]⟩
    · refine (takes_decimal.finish Value.decimal).mono ?_
      rintro v taken ⟨d, rfl, -⟩
      exact ⟨rfl, fun h => by cases h⟩
    · refine (takes_string.finish Value.string).mono ?_
      rintro v taken ⟨s, rfl, rfl, hs⟩
      exact ⟨decide_eq_true hs, fun _ => rfl⟩
    · exact .fail _ _
  · rintro v taken ⟨tag, first, second, rfl, rfl, hv⟩
    exact hv

end BinaryReader

/-! ### Nodes in bytes -/

namespace Binary

def ofPair (pair : Node × Node) : List UInt8 := ofNode pair.1 ++ ofNode pair.2

theorem ofNodes_eq (nodes : List Node) : ofNodes nodes = nodes.flatMap ofNode := by
  induction nodes with
  | nil => rfl
  | cons node rest ih => rw [ofNodes, ih, List.flatMap_cons]

theorem ofBranches_eq (branches : List (Node × Node)) : ofBranches branches = branches.flatMap ofPair := by
  induction branches with
  | nil => rfl
  | cons branch rest ih => rw [ofBranches, ih, List.flatMap_cons, ofPair]

theorem ofBranches_eq_ofNodes (branches : List (Node × Node)) :
    ofBranches branches = ofNodes (Node.flattenBranches branches) := by
  induction branches with
  | nil => rfl
  | cons branch rest ih =>
      rw [ofBranches, ih, Node.flattenBranches, ofNodes, ofNodes, List.append_assoc]

theorem length_ofNodes_le {nodes : List Node} {node : Node} (hmem : node ∈ nodes) :
    (ofNode node).length ≤ (ofNodes nodes).length := by
  rw [ofNodes_eq]
  exact (List.sublist_flatten_of_mem (List.mem_map_of_mem hmem)).length_le

/-- A node takes four bytes more than the nodes within it. -/
theorem length_ofNodes_children_le (node : Node) :
    (ofNodes node.children).length + 4 ≤ (ofNode node).length := by
  have htag (n : Nat) : (ofTag n).length = 4 := length_littleEndian 4 n
  cases node with
  | call op operands ty =>
      simp only [ofNode, Node.children, List.length_append, htag]
      omega
  | case branches otherwise ty =>
      simp only [ofNode, Node.children, ofBranches_eq_ofNodes, ofNodes_eq, List.flatMap_append,
        List.flatMap_singleton, List.length_append, htag]
      omega
  | inputRef | localRef | literal | dynamicParam =>
      simp only [ofNode, Node.children, ofNodes, List.length_append, List.length_nil, htag]
      omega

theorem nesting_lt_length (node : Node) : node.nesting < (ofNode node).length := by
  induction node using Node.children_induction with
  | step node ih =>
      have hchildren := length_ofNodes_children_le node
      have hnesting : Node.nestingWithin node.children ≤ (ofNodes node.children).length :=
        Node.nestingWithin_le_iff.mpr fun child hchild =>
          Nat.lt_of_lt_of_le (ih child hchild) (length_ofNodes_le hchild)
      rw [Node.nesting_eq]
      omega

end Binary

namespace BinaryReader

/-- A node that consists of an index and a type. -/
theorem reads_indexed (make : Nat → LogicalType → Node) {index : Nat} (hindex : index < 2 ^ 64)
    (ty : LogicalType) :
    Reads (do let index ← nat; let ty ← logicalType; pure (make index ty))
      (Binary.ofNat index ++ Binary.ofLogicalType ty) (make index ty) :=
  (reads_nat hindex).bind ((reads_logicalType ty).finish (make index))

theorem reads_node {node : Node} {levels : Nat} (hlevels : node.nesting < levels)
    (hfits : node.AllFitWords) : Reads (BinaryReader.node levels) (Binary.ofNode node) node := by
  induction node using Node.children_induction generalizing levels with
  | step node ih =>
      obtain ⟨hown, hnested⟩ := Node.forall_mem_nodes.mp hfits
      obtain ⟨levels, rfl⟩ : ∃ n, levels = n + 1 := ⟨levels - 1, by omega⟩
      have hchild : ∀ child ∈ node.children,
          Reads (BinaryReader.node levels) (Binary.ofNode child) child := by
        intro child hmem
        have hlt := Node.nesting_lt_of_mem_children hmem
        exact ih child hmem (by omega) (hnested child hmem)
      cases node with
      | inputRef index ty =>
          rw [Binary.ofNode, List.append_assoc]
          exact (reads_tag (by decide)).bind (reads_indexed .inputRef (of_decide_eq_true hown) ty)
      | localRef index ty =>
          rw [Binary.ofNode, List.append_assoc]
          exact (reads_tag (by decide)).bind (reads_indexed .localRef (of_decide_eq_true hown) ty)
      | literal value ty =>
          rw [Binary.ofNode, List.append_assoc]
          exact (reads_tag (by decide)).bind ((reads_value hown).bind
            ((reads_logicalType ty).finish (Node.literal value)))
      | call op operands ty =>
          rw [Binary.ofNode, List.append_assoc, List.append_assoc, Binary.ofNodes_eq]
          exact (reads_tag (by decide)).bind ((reads_oneOf op.mem_all (by decide)).bind
            ((Reads.list hchild (of_decide_eq_true hown)).bind
              ((reads_logicalType ty).finish (Node.call op operands))))
      | case branches otherwise ty =>
          obtain ⟨hbranches, hotherwise⟩ := Node.forall_mem_children_case.mp hchild
          have hbranch : ∀ branch ∈ branches,
              Reads (pair (BinaryReader.node levels)) (Binary.ofPair branch) branch :=
            fun branch hmem => (hbranches branch hmem).1.bind
              ((hbranches branch hmem).2.finish (Prod.mk branch.1))
          rw [Binary.ofNode, List.append_assoc, List.append_assoc, Binary.ofBranches_eq]
          exact (reads_tag (by decide)).bind ((Reads.list hbranch (of_decide_eq_true hown)).bind
            (hotherwise.bind
              ((reads_logicalType ty).finish (Node.case branches otherwise))))
      | dynamicParam index ty =>
          rw [Binary.ofNode, List.append_assoc]
          exact (reads_tag (by decide)).bind
            (reads_indexed .dynamicParam (of_decide_eq_true hown) ty)

/-- What is read after the tag of a node: the node fits, and is written as the tag and what was read
if it holds no decimal. -/
def TakesNode (tag : Nat) (read : ByteReader Node) : Prop :=
  Takes read fun node taken =>
    node.AllFitWords ∧ (node.HoldsNoDecimal → Binary.ofTag tag ++ taken = Binary.ofNode node)

theorem takes_indexed {tag : Nat} {make : Nat → LogicalType → Node}
    (hmake : ∀ index ty, (make index ty).nodes = [make index ty] ∧
      (make index ty).fitsWords = decide (index < 2 ^ 64) ∧ Binary.ofNode (make index ty) =
        Binary.ofTag tag ++ Binary.ofNat index ++ Binary.ofLogicalType ty) :
    TakesNode tag (do let index ← nat; let ty ← logicalType; pure (make index ty)) := by
  refine (takes_nat.bind fun index => takes_logicalType.finish (make index)).mono ?_
  rintro node taken ⟨index, first, second, rfl, ⟨rfl, hindex⟩, ty, rfl, rfl⟩
  obtain ⟨hnodes, hfits, hwrite⟩ := hmake index ty
  refine ⟨?_, fun _ => by rw [hwrite, List.append_assoc]⟩
  rw [Node.AllFitWords, hnodes]
  simpa [hfits] using hindex

/-- A pair of nodes, of each of which `P` holds, and which was written just so if `D` holds of
each. -/
theorem takes_pair {read : ByteReader Node} {P D : Node → Prop}
    (hread : Takes read fun node taken => P node ∧ (D node → taken = Binary.ofNode node)) :
    Takes (pair read) fun branch taken => (P branch.1 ∧ P branch.2) ∧
      (D branch.1 ∧ D branch.2 → taken = Binary.ofPair branch) := by
  refine (hread.bind fun condition => hread.finish (Prod.mk condition)).mono ?_
  rintro branch taken ⟨condition, first, second, rfl, ⟨hP, hD⟩, result, rfl, hP', hD'⟩
  exact ⟨⟨hP, hP'⟩, fun h => by rw [hD h.1, hD' h.2, Binary.ofPair]⟩

theorem takes_node (levels : Nat) : Takes (BinaryReader.node levels) fun node taken =>
    node.AllFitWords ∧ (node.HoldsNoDecimal → taken = Binary.ofNode node) := by
  induction levels with
  | zero => exact .fail _ _
  | succ levels ih =>
      refine (takes_tag.bind (R := fun tag node taken => node.AllFitWords ∧
        (node.HoldsNoDecimal → Binary.ofTag tag ++ taken = Binary.ofNode node)) fun tag => ?_).mono ?_
      · split
        · exact takes_indexed fun _ _ => ⟨rfl, rfl, rfl⟩
        · exact takes_indexed fun _ _ => ⟨rfl, rfl, rfl⟩
        · refine (takes_value.bind fun value => takes_logicalType.finish (Node.literal value)).mono ?_
          rintro node taken ⟨value, first, second, rfl, ⟨hfits, hwrite⟩, ty, rfl, rfl⟩
          refine ⟨Node.forall_mem_nodes.mpr ⟨hfits, by simp [Node.children]⟩, fun h => ?_⟩
          rw [Binary.ofNode, List.append_assoc, hwrite (Node.forall_mem_nodes.mp h).1]
        · refine ((takes_oneOf (by decide)).bind fun op => (Takes.list ih).bind fun operands =>
            takes_logicalType.finish (Node.call op operands)).mono ?_
          rintro node taken ⟨op, first, _, rfl, rfl, operands, second, third, rfl,
            ⟨⟨hlength, hfits⟩, hwrite⟩, ty, rfl, rfl⟩
          refine ⟨Node.forall_mem_nodes.mpr ⟨decide_eq_true hlength, hfits⟩, fun h => ?_⟩
          rw [Binary.ofNode, Binary.ofNodes_eq, hwrite (Node.forall_mem_nodes.mp h).2]
          simp only [List.append_assoc]
          rfl
        · refine ((Takes.list (takes_pair ih)).bind fun branches => ih.bind fun otherwise =>
            takes_logicalType.finish (Node.case branches otherwise)).mono ?_
          rintro node taken ⟨branches, first, _, rfl, ⟨⟨hlength, hfits⟩, hwrite⟩, otherwise, second,
            third, rfl, ⟨hfits', hwrite'⟩, ty, rfl, rfl⟩
          refine ⟨Node.forall_mem_nodes.mpr ⟨decide_eq_true hlength,
            Node.forall_mem_children_case.mpr ⟨hfits, hfits'⟩⟩, fun h => ?_⟩
          obtain ⟨hbranches, hotherwise⟩ :=
            Node.forall_mem_children_case.mp (Node.forall_mem_nodes.mp h).2
          rw [Binary.ofNode, Binary.ofBranches_eq, hwrite hbranches, hwrite' hotherwise]
          simp only [List.append_assoc]
        · exact takes_indexed fun _ _ => ⟨rfl, rfl, rfl⟩
        · exact .fail _ _
      · rintro node taken ⟨tag, first, second, rfl, rfl, hnode⟩
        exact hnode

/-! ### Programs -/

/-- The parts of a program, given what reads a node. -/
def partsFrom (node : ByteReader Node) : ByteReader ProgramParts := do
  let inputRowType ← list logicalType
  let exprs ← list node
  let projects ← list node
  let condition ← condition node
  pure ⟨inputRowType, exprs, projects, condition⟩

theorem parts_apply (bytes : List UInt8) :
    parts bytes = partsFrom (BinaryReader.node (bytes.length + 1)) bytes := rfl

theorem reads_condition {read : ByteReader Node} {c : Option Node}
    (hread : ∀ node ∈ c.toList, Reads read (Binary.ofNode node) node) :
    Reads (condition read) (Binary.ofCondition c) c := by
  have hmark {n : Nat} (hn : n < 256 ^ 1) : Reads (word 1) (Binary.littleEndian 1 n) n := reads_word hn
  cases c with
  | none => exact (hmark (by decide)).finish fun _ => none
  | some node => exact (hmark (by decide)).bind ((hread node (by simp)).finish some)

theorem takes_condition {read : ByteReader Node} {P D : Node → Prop}
    (hread : Takes read fun node taken => P node ∧ (D node → taken = Binary.ofNode node)) :
    Takes (condition read) fun c taken => (∀ node ∈ c.toList, P node) ∧
      ((∀ node ∈ c.toList, D node) → taken = Binary.ofCondition c) := by
  refine ((takes_word 1).bind (R := fun mark c taken => (∀ node ∈ c.toList, P node) ∧
    ((∀ node ∈ c.toList, D node) → Binary.littleEndian 1 mark ++ taken = Binary.ofCondition c))
      fun mark => ?_).mono ?_
  · split
    · refine (Takes.pure none).mono ?_
      rintro c taken ⟨rfl, rfl⟩
      exact ⟨by simp, fun _ => rfl⟩
    · refine (hread.finish some).mono ?_
      rintro c taken ⟨node, rfl, hP, hD⟩
      exact ⟨by simpa using hP, fun h => by rw [hD (h node (by simp))]; rfl⟩
    · exact .fail _ _
  · rintro c taken ⟨mark, first, second, rfl, ⟨rfl, -⟩, hc⟩
    exact hc

theorem reads_partsFrom {read : ByteReader Node} {p : ProgramParts} (hp : p.fitsWords = true)
    (hexprs : ∀ node ∈ p.exprs, Reads read (Binary.ofNode node) node)
    (hprojects : ∀ node ∈ p.projects, Reads read (Binary.ofNode node) node)
    (hcondition : ∀ node ∈ p.condition.toList, Reads read (Binary.ofNode node) node) :
    Reads (partsFrom read) (Binary.ofLogicalTypes p.inputRowType ++ Binary.ofNodeList p.exprs ++
      Binary.ofNodeList p.projects ++ Binary.ofCondition p.condition) p := by
  obtain ⟨hrow, hlength, hlength', -⟩ := ProgramParts.of_fitsWords hp
  rw [List.append_assoc, List.append_assoc, Binary.ofNodeList, Binary.ofNodeList, Binary.ofNodes_eq,
    Binary.ofNodes_eq]
  exact (Reads.list (fun ty _ => reads_logicalType ty) hrow).bind ((Reads.list hexprs hlength).bind
    ((Reads.list hprojects hlength').bind ((reads_condition hcondition).finish
      (ProgramParts.mk p.inputRowType p.exprs p.projects))))

theorem takes_partsFrom {read : ByteReader Node}
    (hread : Takes read fun node taken =>
      node.AllFitWords ∧ (node.HoldsNoDecimal → taken = Binary.ofNode node)) :
    Takes (partsFrom read) fun p taken => p.fitsWords = true ∧
      ((∀ node ∈ p.nodes, node.isDecimal = false) →
        taken = Binary.ofLogicalTypes p.inputRowType ++ Binary.ofNodeList p.exprs ++
          Binary.ofNodeList p.projects ++ Binary.ofCondition p.condition) := by
  have hrow : Takes logicalType fun ty taken =>
      True ∧ (True → taken = Binary.ofLogicalType ty) :=
    takes_logicalType.mono fun _ _ h => ⟨trivial, fun _ => h⟩
  refine ((Takes.list hrow).bind fun row => (Takes.list hread).bind fun exprs =>
    (Takes.list hread).bind fun projects =>
      (takes_condition hread).finish (ProgramParts.mk row exprs projects)).mono ?_
  rintro p taken ⟨row, first, _, rfl, ⟨⟨hrowLength, -⟩, hrowWrite⟩, exprs, second, _, rfl,
    ⟨⟨hlength, hfits⟩, hwrite⟩, projects, third, fourth, rfl, ⟨⟨hlength', hfits'⟩, hwrite'⟩, c, rfl,
    hfits'', hwrite''⟩
  constructor
  · have hnodes : ∀ node ∈ (ProgramParts.mk row exprs projects c).nodes, node.fitsWords = true :=
      ProgramParts.forall_mem_nodes.mpr ⟨hfits, hfits', hfits''⟩
    simp only [ProgramParts.fitsWords, Bool.and_eq_true, decide_eq_true_eq, List.all_eq_true]
    exact ⟨⟨⟨hrowLength, hlength⟩, hlength'⟩, hnodes⟩
  · intro hplain
    obtain ⟨hexprs, hprojects, hcondition⟩ := ProgramParts.forall_mem_nodes.mp hplain
    rw [hrowWrite (fun _ _ => trivial), hwrite hexprs, hwrite' hprojects, hwrite'' hcondition,
      Binary.ofNodeList, Binary.ofNodeList, Binary.ofNodes_eq, Binary.ofNodes_eq]
    simp only [List.append_assoc]
    rfl

end BinaryReader

namespace Binary

theorem program_apply (bytes : List UInt8) :
    BinaryReader.program bytes =
      match BinaryReader.parts bytes with
      | .ok (parts, rest) =>
        match Program.ofParts parts with
        | .ok p => .ok (p, rest)
        | .error fault => .error (.program fault)
      | .error fault => .error fault := by
  unfold BinaryReader.program
  rw [ByteReader.bind_apply]
  cases BinaryReader.parts bytes with
  | ok result => cases hparts : Program.ofParts result.1 <;> simp only [hparts] <;> rfl
  | error fault => rfl

theorem readProgram_eq_ok_iff {bytes : List UInt8} {p : Program} :
    readProgram bytes = .ok p ↔
      ∃ rest, BinaryReader.parts bytes = .ok (p.toProgramParts, rest) := by
  unfold readProgram
  rw [program_apply]
  cases BinaryReader.parts bytes with
  | ok result =>
      obtain ⟨parts, rest⟩ := result
      simp only [Except.ok.injEq, Prod.mk.injEq]
      constructor
      · intro h
        cases hparts : Program.ofParts parts with
        | ok q =>
            simp only [hparts, Except.ok.injEq] at h
            exact ⟨rest, h ▸ Program.of_ofParts_ok hparts, rfl⟩
        | error fault => simp [hparts] at h
      · rintro ⟨_, rfl, rfl⟩
        simp only [p.ofParts_toProgramParts]
  | error fault => simp

theorem length_ofNode_le_ofProgram (p : Program) :
    (∀ node ∈ p.exprs, (ofNode node).length ≤ (ofProgram p).length) ∧
      (∀ node ∈ p.projects, (ofNode node).length ≤ (ofProgram p).length) ∧
        ∀ node ∈ p.condition.toList, (ofNode node).length ≤ (ofProgram p).length := by
  simp only [ofProgram, ofNodeList, List.length_append]
  refine ⟨fun node hmem => ?_, fun node hmem => ?_, fun node hmem => ?_⟩
  · have hle := length_ofNodes_le hmem
    omega
  · have hle := length_ofNodes_le hmem
    omega
  · rw [Option.mem_toList] at hmem
    rw [Option.mem_def.mp hmem, ofCondition, List.length_cons]
    omega

/-- Reading a program undoes writing it, whatever follows. -/
theorem readProgram_ofProgram {p : Program} (hp : p.fitsWords = true) (rest : List UInt8) :
    readProgram (ofProgram p ++ rest) = .ok p := by
  obtain ⟨-, -, -, hnodes⟩ := ProgramParts.of_fitsWords hp
  obtain ⟨hexprs, hprojects, hcondition⟩ := ProgramParts.forall_mem_nodes.mp hnodes
  obtain ⟨hexprs', hprojects', hcondition'⟩ := length_ofNode_le_ofProgram p
  have henough : (ofProgram p).length < (ofProgram p ++ rest).length + 1 := by
    rw [List.length_append]
    omega
  rw [readProgram_eq_ok_iff]
  refine ⟨rest, ?_⟩
  rw [BinaryReader.parts_apply]
  generalize (ofProgram p ++ rest).length + 1 = levels at henough ⊢
  -- A node is nested less deep than it has bytes, so that there are levels enough for it.
  have hread (node : Node) (hfits : node.AllFitWords)
      (hlength : (ofNode node).length ≤ (ofProgram p).length) :
      BinaryReader.Reads (BinaryReader.node levels) (ofNode node) node := by
    have hlt := nesting_lt_length node
    exact BinaryReader.reads_node (by omega) hfits
  exact BinaryReader.reads_partsFrom hp
    (fun node hmem => hread node (hexprs node hmem) (hexprs' node hmem))
    (fun node hmem => hread node (hprojects node hmem) (hprojects' node hmem))
    (fun node hmem => hread node (hcondition node hmem) (hcondition' node hmem)) rest

/-- What is read fits, and was written just so if it holds no decimal. -/
theorem of_readProgram_ok {bytes : List UInt8} {p : Program} (h : readProgram bytes = .ok p) :
    p.fitsWords = true ∧
      ((∀ node ∈ p.nodes, node.isDecimal = false) → ofProgram p <+: bytes) := by
  obtain ⟨rest, hparts⟩ := readProgram_eq_ok_iff.mp h
  rw [BinaryReader.parts_apply] at hparts
  obtain ⟨taken, hbytes, hfits, hwrite⟩ :=
    BinaryReader.takes_partsFrom (BinaryReader.takes_node _) _ _ _ hparts
  refine ⟨hfits, fun hplain => ⟨rest, ?_⟩⟩
  rw [hbytes, hwrite hplain]
  rfl

end Binary

namespace FileFormat

/-- **The binary form is exact.** A program that 64 bits are enough for is read back from what is
written of it, whatever follows. A program that is read keeps what is asked of programs, 64 bits are
enough for it, and if it holds no decimal then what is written of it is how the bytes start. -/
theorem binary_is_exact :
    (∀ (p : Program) (rest : List UInt8), p.fitsWords = true →
      binary.decode (binary.encode p ++ rest) = .ok p) ∧
    ∀ (bytes : List UInt8) (p : Program), binary.decode bytes = .ok p →
      p.WellFormed ∧ p.fitsWords = true ∧
        ((∀ node ∈ p.nodes, node.isDecimal = false) → binary.encode p <+: bytes) :=
  ⟨fun _ rest hp => Binary.readProgram_ofProgram hp rest,
    fun _ p h => ⟨p.wellFormed, Binary.of_readProgram_ok h⟩⟩

/-- A decimal with its scale, what is not a number but has a payload, and a CASE that compares with a
string in quotes. -/
def storedProgram : Program where
  inputRowType := [.orNull .decimal, .notNull .varchar]
  exprs := [.literal (.decimal (.finite true 100 (-4) (by decide))) (.notNull .decimal),
    .literal (.double ⟨0x7ff0000000000001⟩) (.notNull .double),
    .case [(.call .equals [.inputRef 1 (.notNull .varchar),
        .literal (.string "\"é\"\n") (.notNull .varchar)] (.notNull .boolean),
      .localRef 0 (.notNull .decimal))] (.dynamicParam (2 ^ 64 - 1) (.orNull .decimal))
      (.orNull .decimal)]
  projects := [.localRef 2 (.orNull .decimal), .localRef 1 (.notNull .double)]
  condition := none
  faultless := by decide

def emptyProgram : Program where
  inputRowType := []
  exprs := []
  projects := []
  condition := none
  faultless := by decide

/-- Three lists without items and no condition take 25 bytes. -/
theorem stored_program_is_read_back :
    binary.decode (binary.encode storedProgram ++ [1, 2, 3]) = .ok storedProgram ∧
      binary.decode (List.replicate 25 0 ++ [9]) = .ok emptyProgram ∧
      binary.encode emptyProgram <+: List.replicate 25 0 ++ [9] := by
  obtain ⟨hwritten, hread⟩ := binary_is_exact
  have hempty : binary.decode (List.replicate 25 0 ++ [9]) = .ok emptyProgram := by rfl
  exact ⟨hwritten storedProgram [1, 2, 3] (by decide), hempty,
    (hread _ _ hempty).2.2 (by simp [ProgramParts.nodes, ProgramParts.outputs, emptyProgram])⟩

end FileFormat

end RowCode
