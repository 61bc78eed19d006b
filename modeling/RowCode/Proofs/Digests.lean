import RowCode.Proofs.NodeTree
import RowCode.Proofs.Printing

/-!
# What digests tell

A digest leaves out types, writes a literal as its value is printed, and a CASE like a call. Nothing
else is lost: strings are quoted and every other word ends where a delimiter stands, so that each
part of a digest ends at one place only, whatever is written in its strings.
-/

namespace RowCode

/-- What a digest says of a node. -/
inductive Outline where
  | inputRef (index : Nat)
  | localRef (index : Nat)
  | dynamicParam (index : Nat)
  | string (s : String)
  /-- A literal that is no string, as it is printed. -/
  | printed (text : String)
  | call (op : Operator) (operands : List Outline)

def Outline.ofValue : Value → Outline
  | .string s => .string s
  | v => .printed v.text

namespace Node

mutual

/-- The node without types, where literals other than strings are replaced by their texts and a CASE
by the call of CASE on its conditions and results in one list. -/
def outline : Node → Outline
  | inputRef index _ => .inputRef index
  | localRef index _ => .localRef index
  | literal value _ => .ofValue value
  | call op operands _ => .call op (outlines operands)
  | case branches otherwise _ => .call .case (branchOutlines branches ++ [outline otherwise])
  | dynamicParam index _ => .dynamicParam index

def outlines : List Node → List Outline
  | [] => []
  | node :: rest => outline node :: outlines rest

def branchOutlines : List (Node × Node) → List Outline
  | [] => []
  | (condition, result) :: rest => outline condition :: outline result :: branchOutlines rest

end

theorem outlines_eq (nodes : List Node) : outlines nodes = nodes.map outline := by
  induction nodes with
  | nil => rfl
  | cons node rest ih => rw [outlines, ih, List.map_cons]

theorem branchOutlines_eq (branches : List (Node × Node)) :
    branchOutlines branches = (flattenBranches branches).map outline := by
  induction branches with
  | nil => rfl
  | cons branch rest ih =>
      rw [branchOutlines, ih, flattenBranches, List.map_cons, List.map_cons]

theorem outline_of_operator? {node : Node} {op : Operator} (hop : node.operator? = some op) :
    node.outline = .call op (node.children.map outline) := by
  cases node with
  | call op' operands ty =>
      obtain rfl : op' = op := Option.some.inj hop
      rw [outline, outlines_eq, children]
  | case branches otherwise ty =>
      obtain rfl : Operator.case = op := Option.some.inj hop
      rw [outline, branchOutlines_eq, children, List.map_append, List.map_singleton]
  | inputRef | localRef | literal | dynamicParam => cases hop

end Node

/-! ### Outlines tell digests -/

mutual

def Outline.text : Outline → String
  | .inputRef index => "$" ++ toString index
  | .localRef index => "$t" ++ toString index
  | .dynamicParam index => "?" ++ toString index
  | .string s => (Value.string s).text
  | .printed text => text
  | .call op operands => op.text ++ "(" ++ String.intercalate ", " (Outline.texts operands) ++ ")"

def Outline.texts : List Outline → List String
  | [] => []
  | operand :: rest => operand.text :: Outline.texts rest

end

theorem Outline.texts_eq (outlines : List Outline) : texts outlines = outlines.map text := by
  induction outlines with
  | nil => rfl
  | cons outline rest ih => rw [texts, ih, List.map_cons]

theorem Node.text_outline (node : Node) : node.outline.text = node.digest := by
  induction node using children_induction with
  | step node ih =>
      cases hop : node.operator? with
      | some op =>
          have htexts : (node.children.map outline).map Outline.text = node.children.map digest := by
            rw [List.map_map]
            exact List.map_congr_left ih
          rw [outline_of_operator? hop, digest_of_operator? hop, Outline.text, Outline.texts_eq,
            htexts]
      | none =>
          cases node with
          | call | case => cases hop
          | inputRef | localRef | dynamicParam => rfl
          | literal v ty => cases v <;> rfl

/-! ### Words -/

theorem Operator.text_injective : Function.Injective text := by
  have hall : ∀ op ∈ all, ∀ op' ∈ all, text op = text op' → op = op' := by decide
  exact fun op op' => hall op op.mem_all op' op'.mem_all

namespace Digest

open Printing

/-- Whether a word goes on with this character. -/
def isWordChar (c : Char) : Bool := c ≠ '\'' && c ≠ ',' && c ≠ '(' && c ≠ ')'

structure IsWord (cs : List Char) : Prop where
  ne_nil : cs ≠ []
  open_end : ∀ c ∈ cs, isWordChar c = true

/-- Whether what follows a node within a digest does not go on in it. -/
def Closes (rest : List Char) : Prop := ∀ c ∈ rest.head?, c = ',' ∨ c = ')'

theorem Closes.not_isWordChar {rest : List Char} (h : Closes rest) :
    ∀ c ∈ rest.head?, isWordChar c = false := by
  intro c hc
  rcases h c hc with rfl | rfl
  · decide
  · decide

/-- A word goes on up to the first character that no word has. -/
theorem span_append {w rest : List Char} (hw : ∀ c ∈ w, isWordChar c = true)
    (hrest : ∀ c ∈ rest.head?, isWordChar c = false) :
    (w ++ rest).span isWordChar = (w, rest) := by
  rw [List.span_eq_takeWhile_dropWhile, List.takeWhile_append_of_pos hw,
    List.dropWhile_append_of_pos hw]
  cases rest with
  | nil => simp
  | cons c rest => simp [hrest c rfl]

theorem eq_of_append_eq {w w' rest rest' : List Char} (hw : ∀ c ∈ w, isWordChar c = true)
    (hw' : ∀ c ∈ w', isWordChar c = true) (hrest : ∀ c ∈ rest.head?, isWordChar c = false)
    (hrest' : ∀ c ∈ rest'.head?, isWordChar c = false) (h : w ++ rest = w' ++ rest') :
    w = w' ∧ rest = rest' := by
  have hspan := span_append hw hrest
  rw [h, span_append hw' hrest'] at hspan
  exact Prod.mk.inj hspan.symm

/-! ### Strings -/

/-- The string up to the first quote that is not doubled. -/
def unquoted : List Char → Option (List Char × List Char)
  | [] => none
  | '\'' :: '\'' :: rest => (unquoted rest).map fun (s, rest) => ('\'' :: s, rest)
  | '\'' :: rest => some ([], rest)
  | c :: rest => (unquoted rest).map fun (s, rest) => (c :: s, rest)

theorem unquoted_append (s : List Char) {rest : List Char} (hrest : Closes rest) :
    unquoted (Value.doubleQuotes s ++ '\'' :: rest) = some (s, rest) := by
  fun_induction Value.doubleQuotes s with
  | case1 =>
      cases rest with
      | nil => rfl
      | cons c rest =>
          rcases hrest c rfl with rfl | rfl
          · rfl
          · rfl
  | case2 s ih =>
      rw [List.cons_append, List.cons_append, unquoted, ih]
      rfl
  | case3 c s hc ih =>
      rw [List.cons_append, unquoted, ih]
      · rfl
      · exact fun _ h => absurd h hc
      · exact fun h => absurd h hc

/-! ### Single words -/

theorem isWordChar_of_isPlain {c : Char} (hc : isPlain c = true) : isWordChar c = true := by
  have hne {d : Char} (hd : isPlain d = false) : c ≠ d := by
    rintro rfl
    rw [hc] at hd
    cases hd
  simp only [isWordChar, Bool.and_eq_true, decide_eq_true_eq]
  exact ⟨⟨⟨hne (by decide), hne (by decide)⟩, hne (by decide)⟩, hne (by decide)⟩

theorem isWord_of_isPrinted {cs : List Char} (h : IsPrinted cs) : IsWord cs :=
  ⟨h.ne_nil, fun c hc => isWordChar_of_isPlain (h.plain c hc)⟩

/-- What a digest that is one word says. -/
def ofWord : List Char → Outline
  | '$' :: 't' :: digits => .localRef (digitsValue digits)
  | '$' :: digits => .inputRef (digitsValue digits)
  | '?' :: digits => .dynamicParam (digitsValue digits)
  | cs => .printed (String.ofList cs)

theorem ofWord_inputRef (index : Nat) : ofWord ('$' :: decimalDigits index) = .inputRef index := by
  rw [ofWord, digitsValue_decimalDigits]
  intro digits hdigits
  have hdigit : 't'.isDigit = true :=
    isDigit_of_mem_decimalDigits (hdigits ▸ List.mem_cons_self)
  exact absurd hdigit (by decide)

theorem ofWord_localRef (index : Nat) :
    ofWord ('$' :: 't' :: decimalDigits index) = .localRef index := by
  rw [ofWord, digitsValue_decimalDigits]

theorem ofWord_dynamicParam (index : Nat) :
    ofWord ('?' :: decimalDigits index) = .dynamicParam index := by
  rw [ofWord, digitsValue_decimalDigits]

theorem ofWord_of_isPrinted {cs : List Char} (h : IsPrinted cs) :
    ofWord cs = .printed (String.ofList cs) := by
  have hdollar : '$' ∉ cs := fun hmem => absurd (h.plain _ hmem) (by decide)
  have hquestion : '?' ∉ cs := fun hmem => absurd (h.plain _ hmem) (by decide)
  unfold ofWord
  split
  · exact absurd List.mem_cons_self hdollar
  · exact absurd List.mem_cons_self hdollar
  · exact absurd List.mem_cons_self hquestion
  · rfl

theorem isWord_marked {marks : List Char} (hmarks : marks.all isWordChar = true)
    (index : Nat) : IsWord (marks ++ decimalDigits index) :=
  ⟨List.append_ne_nil_of_right_ne_nil _ (decimalDigits_ne_nil index),
    List.forall_mem_append.mpr
      ⟨List.all_eq_true.mp hmarks, (isWord_of_isPrinted (isPrinted_decimalDigits index)).open_end⟩⟩

theorem isWord_operator (op : Operator) : IsWord op.text.toList := by
  have hall : ∀ op ∈ Operator.all,
      op.text.toList ≠ [] ∧ op.text.toList.all isWordChar = true := by decide
  obtain ⟨hne, hchars⟩ := hall op op.mem_all
  exact ⟨hne, List.all_eq_true.mp hchars⟩

/-! ### Digests of nodes -/

/-- The operands after the first, the parenthesis that closes them, and what follows it. -/
def furtherOperands (rest : List Char) : List String → List Char
  | [] => ')' :: rest
  | operand :: operands => ',' :: ' ' :: (operand.toList ++ furtherOperands rest operands)

def operandChars (rest : List Char) : List String → List Char
  | [] => ')' :: rest
  | operand :: operands => operand.toList ++ furtherOperands rest operands

theorem operandChars_eq (rest : List Char) (operands : List String) :
    (String.intercalate ", " operands).toList ++ ')' :: rest = operandChars rest operands := by
  cases operands with
  | nil => rfl
  | cons operand operands =>
      induction operands generalizing operand with
      | nil => simp [operandChars, furtherOperands]
      | cons next operands ih =>
          have hnext := ih next
          rw [operandChars] at hnext
          rw [String.intercalate_cons_cons, operandChars, furtherOperands, ← hnext]
          simp

theorem closes_furtherOperands (rest : List Char) (operands : List String) :
    Closes (furtherOperands rest operands) := by
  cases operands with
  | nil => exact fun c hc => .inr (Option.some.inj hc).symm
  | cons operand operands => exact fun c hc => .inl (Option.some.inj hc).symm

end Digest

namespace Node

open Digest Printing

theorem digest_append_of_operator? {node : Node} {op : Operator} (hop : node.operator? = some op)
    (rest : List Char) :
    node.digest.toList ++ rest =
      op.text.toList ++ '(' :: operandChars rest (node.children.map digest) := by
  rw [digest_of_operator? hop, ← operandChars_eq]
  simp

/-- How a digest is taken apart: the word that it starts with, and what stands after that word when
`rest` follows the digest. -/
inductive Spelled (node : Node) (rest : List Char) : List Char → List Char → Prop
  | string (s : String) (houtline : node.outline = .string s) :
      Spelled node rest [] ('\'' :: (Value.doubleQuotes s.toList ++ '\'' :: rest))
  | word {w : List Char} (hword : IsWord w) (houtline : node.outline = ofWord w) :
      Spelled node rest w rest
  | operation {op : Operator} (hop : node.operator? = some op) :
      Spelled node rest op.text.toList ('(' :: operandChars rest (node.children.map digest))

theorem spelled_marked {node : Node} {marks : String} {index : Nat} {rest : List Char}
    (hdigest : node.digest = marks ++ toString index)
    (hmarks : marks.toList.all isWordChar = true)
    (houtline : node.outline = ofWord (marks.toList ++ decimalDigits index)) :
    Spelled node rest node.digest.toList rest := by
  have hchars : node.digest.toList = marks.toList ++ decimalDigits index := by
    rw [hdigest, String.toList_append]
    simp [toString, Nat.repr, decimalDigits]
  rw [hchars]
  exact .word (isWord_marked hmarks index) houtline

theorem spelled_printed {v : Value} (hv : ∀ s, v ≠ .string s) (ty : LogicalType)
    (rest : List Char) : Spelled (literal v ty) rest (literal v ty).digest.toList rest := by
  have hprinted := isPrinted_text hv
  refine .word (isWord_of_isPrinted hprinted) ?_
  rw [digest, ofWord_of_isPrinted hprinted, String.ofList_toList, outline, Outline.ofValue]
  exact hv

theorem exists_spelled (node : Node) (rest : List Char) :
    ∃ w tail, node.digest.toList ++ rest = w ++ tail ∧ Spelled node rest w tail := by
  have hoperation {op : Operator} (hop : node.operator? = some op) :
      ∃ w tail, node.digest.toList ++ rest = w ++ tail ∧ Spelled node rest w tail :=
    ⟨_, _, digest_append_of_operator? hop rest, .operation hop⟩
  have hword (h : Spelled node rest node.digest.toList rest) :
      ∃ w tail, node.digest.toList ++ rest = w ++ tail ∧ Spelled node rest w tail :=
    ⟨_, _, rfl, h⟩
  cases node with
  | inputRef index ty =>
      exact hword (spelled_marked rfl (by decide) (ofWord_inputRef index).symm)
  | localRef index ty =>
      exact hword (spelled_marked rfl (by decide) (ofWord_localRef index).symm)
  | dynamicParam index ty =>
      exact hword (spelled_marked rfl (by decide) (ofWord_dynamicParam index).symm)
  | literal v ty =>
      by_cases hv : ∃ s, v = .string s
      · obtain ⟨s, rfl⟩ := hv
        refine ⟨_, _, ?_, .string s rfl⟩
        rw [digest, Value.text, String.toList_ofList, List.nil_append, List.cons_append,
          List.append_assoc, List.singleton_append]
      · exact hword (spelled_printed (not_exists.mp hv) ty rest)
  | call op operands ty => exact hoperation rfl
  | case branches otherwise ty => exact hoperation rfl

namespace Spelled

variable {node : Node} {rest w tail : List Char}

theorem isWordChar_of_mem (h : Spelled node rest w tail) : ∀ c ∈ w, isWordChar c = true := by
  cases h with
  | string s houtline => exact List.forall_mem_nil _
  | word hword houtline => exact hword.open_end
  | operation hop => exact (isWord_operator _).open_end

theorem not_isWordChar_head (h : Spelled node rest w tail) (hrest : Closes rest) :
    ∀ c ∈ tail.head?, isWordChar c = false := by
  cases h with
  | string s houtline =>
      intro c hc
      obtain rfl := Option.some.inj hc
      decide
  | word hword houtline => exact hrest.not_isWordChar
  | operation hop =>
      intro c hc
      obtain rfl := Option.some.inj hc
      decide

end Spelled

theorem digest_append_ne (node : Node) {rest rest' : List Char} (hrest : Closes rest) :
    node.digest.toList ++ rest ≠ ')' :: rest' := by
  intro h
  obtain ⟨w, tail, hsplit, hspelled⟩ := node.exists_spelled rest
  have hclose : ∀ c ∈ (')' :: rest').head?, isWordChar c = false := by
    intro c hc
    obtain rfl := Option.some.inj hc
    decide
  obtain ⟨hw, htail⟩ := eq_of_append_eq (w := []) (List.forall_mem_nil _) hspelled.isWordChar_of_mem
    hclose (hspelled.not_isWordChar_head hrest) ((List.nil_append _).trans (h.symm.trans hsplit))
  cases hspelled with
  | string s houtline => simp at htail
  | word hword houtline => exact hword.ne_nil hw.symm
  | operation hop => exact (isWord_operator _).ne_nil hw.symm

/-- Whether the outline of a node, and where its digest ends, can be told from its digest and what
follows it. -/
def IsTold (node : Node) : Prop :=
  ∀ (other : Node) {rest rest' : List Char}, Closes rest → Closes rest' →
    node.digest.toList ++ rest = other.digest.toList ++ rest' →
      node.outline = other.outline ∧ rest = rest'

theorem of_furtherOperands_eq {nodes others : List Node} {rest rest' : List Char}
    (hnodes : ∀ node ∈ nodes, IsTold node)
    (h : furtherOperands rest (nodes.map digest) = furtherOperands rest' (others.map digest)) :
    nodes.map outline = others.map outline ∧ rest = rest' := by
  induction nodes generalizing others with
  | nil =>
      cases others with
      | nil => exact ⟨rfl, List.tail_eq_of_cons_eq h⟩
      | cons other others => cases List.head_eq_of_cons_eq h
  | cons node nodes ih =>
      cases others with
      | nil => cases List.head_eq_of_cons_eq h
      | cons other others =>
          obtain ⟨hnode, hnodes⟩ := List.forall_mem_cons.mp hnodes
          obtain ⟨houtline, hfurther⟩ := hnode other (closes_furtherOperands _ _)
            (closes_furtherOperands _ _) (List.tail_eq_of_cons_eq (List.tail_eq_of_cons_eq h))
          obtain ⟨houtlines, hrest⟩ := ih hnodes hfurther
          exact ⟨by rw [List.map_cons, List.map_cons, houtline, houtlines], hrest⟩

theorem of_operandChars_eq {nodes others : List Node} {rest rest' : List Char}
    (hnodes : ∀ node ∈ nodes, IsTold node)
    (h : operandChars rest (nodes.map digest) = operandChars rest' (others.map digest)) :
    nodes.map outline = others.map outline ∧ rest = rest' := by
  cases nodes with
  | nil =>
      cases others with
      | nil => exact ⟨rfl, List.tail_eq_of_cons_eq h⟩
      | cons other others => exact absurd h.symm (digest_append_ne _ (closes_furtherOperands _ _))
  | cons node nodes =>
      cases others with
      | nil => exact absurd h (digest_append_ne _ (closes_furtherOperands _ _))
      | cons other others =>
          obtain ⟨hnode, hnodes⟩ := List.forall_mem_cons.mp hnodes
          obtain ⟨houtline, hfurther⟩ :=
            hnode other (closes_furtherOperands _ _) (closes_furtherOperands _ _) h
          obtain ⟨houtlines, hrest⟩ := of_furtherOperands_eq hnodes hfurther
          exact ⟨by rw [List.map_cons, List.map_cons, houtline, houtlines], hrest⟩

theorem isTold (node : Node) : IsTold node := by
  induction node using children_induction with
  | step node ih =>
      intro other rest rest' hrest hrest' h
      obtain ⟨w, tail, hsplit, hspelled⟩ := node.exists_spelled rest
      obtain ⟨w', tail', hsplit', hspelled'⟩ := other.exists_spelled rest'
      -- The words at the start are the same, which tells a string, a single word and an operator
      -- apart by what follows: a quote, the end, a parenthesis.
      obtain ⟨hw, htail⟩ := eq_of_append_eq hspelled.isWordChar_of_mem hspelled'.isWordChar_of_mem
        (hspelled.not_isWordChar_head hrest) (hspelled'.not_isWordChar_head hrest')
        (hsplit.symm.trans (h.trans hsplit'))
      cases hspelled with
      | string s houtline =>
          cases hspelled' with
          | string s' houtline' =>
              have hread := unquoted_append s.toList hrest
              rw [List.tail_eq_of_cons_eq htail, unquoted_append s'.toList hrest',
                Option.some_inj, Prod.mk.injEq, String.toList_inj] at hread
              exact ⟨by rw [houtline, houtline', hread.1], hread.2.symm⟩
          | word hword houtline' => exact absurd hw.symm hword.ne_nil
          | operation hop => exact absurd hw.symm (isWord_operator _).ne_nil
      | word hword houtline =>
          cases hspelled' with
          | string s' houtline' => exact absurd hw hword.ne_nil
          | word hword' houtline' => exact ⟨by rw [houtline, houtline', hw], htail⟩
          | operation hop =>
              rw [htail] at hrest
              exact absurd (hrest _ rfl) (by decide)
      | @operation op hop =>
          cases hspelled' with
          | string s' houtline' => exact absurd hw (isWord_operator _).ne_nil
          | word hword houtline' =>
              rw [← htail] at hrest'
              exact absurd (hrest' _ rfl) (by decide)
          | @operation op' hop' =>
              obtain rfl : op = op' := Operator.text_injective (String.toList_inj.mp hw)
              obtain ⟨houtlines, hends⟩ := of_operandChars_eq ih (List.tail_eq_of_cons_eq htail)
              refine ⟨?_, hends⟩
              rw [outline_of_operator? hop, outline_of_operator? hop', houtlines]

/-- **Digests tell everything but types, the kinds of numbers, and which way a CASE is written.** No
content of a string makes the digest of one expression look like that of another. -/
theorem digest_eq_iff_outline_eq (node other : Node) :
    node.digest = other.digest ↔ node.outline = other.outline := by
  constructor
  · intro h
    have hclosed : Closes [] := by rintro c ⟨⟩
    exact (node.isTold other hclosed hclosed (by rw [h])).1
  · intro h
    rw [← node.text_outline, ← other.text_outline, h]

example : (call .concat [literal (.string "a', '$t0") ⟨.varchar, false⟩] ⟨.varchar, false⟩).digest =
    "||('a'', ''$t0')" := by
  decide

end Node

end RowCode
