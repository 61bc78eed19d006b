import RowCode.Host.Block
import RowCode.Proofs.CodeTokens

/-!
# Quotation

A string literal of the host language ends at the first quote that is not escaped, and the only escapes
are those of the quote, the backslash, the line feed and the tab. What a string constant is written as
is read by these rules to its own end, whatever follows, and gives the string. So the constant is a part
of its own wherever it stands: in an argument list, anywhere else in an expression, in a declaration.
-/

namespace RowCode

namespace Quotation

/-- What a character stands for after a backslash. -/
def escaped? : Char → Option Char
  | '"' => some '"'
  | '\\' => some '\\'
  | 'n' => some '\n'
  | 't' => some '\t'
  | _ => none

/-- The string up to the first quote that is not escaped, and what follows that quote. -/
def body? : List Char → Option (List Char × List Char)
  | [] => none
  | '"' :: rest => some ([], rest)
  | '\\' :: c :: rest =>
    (escaped? c).bind fun c => (body? rest).map fun (s, rest) => (c :: s, rest)
  | ['\\'] => none
  | c :: rest => (body? rest).map fun (s, rest) => (c :: s, rest)

/-- Reads a string literal at the start of the text. -/
def read? : List Char → Option (String × List Char)
  | '"' :: rest => (body? rest).map fun (s, rest) => (String.ofList s, rest)
  | _ => none

theorem body?_escape (c : Char) (rest : List Char) :
    body? (Text.escape c ++ rest) = (body? rest).map fun (s, rest) => (c :: s, rest) := by
  unfold Text.escape
  split
  · rfl
  · rfl
  · rfl
  · rfl
  · rename_i hquote hbackslash _ _
    rw [List.singleton_append, body?]
    · exact hquote
    · intro d more hc
      exact absurd hc hbackslash
    · intro hc
      exact absurd hc hbackslash

/-- The closing quote is the first one that is not escaped. -/
theorem body?_append (s rest : List Char) :
    body? (s.flatMap Text.escape ++ '"' :: rest) = some (s, rest) := by
  induction s with
  | nil => rfl
  | cons c s ih =>
      rw [List.flatMap_cons, List.append_assoc, body?_escape, ih]
      rfl

theorem toList_literal (s : String) :
    (Text.literal s).toList = '"' :: (s.toList.flatMap Text.escape ++ ['"']) :=
  String.toList_ofList

theorem read?_literal (s : String) (rest : List Char) :
    read? ((Text.literal s).toList ++ rest) = some (s, rest) := by
  have hopen : (Text.literal s).toList ++ rest =
      '"' :: (s.toList.flatMap Text.escape ++ '"' :: rest) := by
    rw [toList_literal, List.cons_append, List.append_assoc, List.singleton_append]
  rw [hopen, read?, body?_append, Option.map_some]
  exact congrArg some (congrArg (·, rest) String.ofList_toList)

theorem newline_not_mem_escape (c : Char) : '\n' ∉ Text.escape c := by
  unfold Text.escape
  split
  · decide
  · decide
  · decide
  · decide
  · rename_i hnewline _
    exact fun hmem => hnewline (List.mem_singleton.mp hmem).symm

theorem newline_not_mem_literal (s : String) : '\n' ∉ (Text.literal s).toList := by
  rw [toList_literal, List.mem_cons, List.mem_append, List.mem_flatMap]
  rintro (hquote | ⟨c, -, hescape⟩ | hquote)
  · exact absurd hquote (by decide)
  · exact newline_not_mem_escape c hescape
  · exact absurd hquote (by decide)

/-- No literal is the start of another one, since both are read in the same way. -/
theorem literal_append_inj {s s' : String} {rest rest' : List Char} :
    (Text.literal s).toList ++ rest = (Text.literal s').toList ++ rest' ↔ s = s' ∧ rest = rest' := by
  constructor
  · intro heq
    have hread := congrArg read? heq
    rw [read?_literal, read?_literal] at hread
    exact Prod.mk.inj (Option.some.inj hread)
  · rintro ⟨rfl, rfl⟩
    rfl

end Quotation

/-! ### Places in an expression -/

/-- One layer of an expression around a place that is left open. -/
inductive Layer where
  | target (method : String) (args : List Expr) (ty : HostType)
  | callArgument (target : Expr) (method : String) (before after : List Expr) (ty : HostType)
  | staticArgument (owner method : String) (before after : List Expr) (ty : HostType)
  | constructArgument (ty : HostType) (before after : List Expr)
  | left (op : BinaryOp) (right : Expr) (ty : HostType)
  | right (op : BinaryOp) (left : Expr) (ty : HostType)
  | operand (op : UnaryOp) (ty : HostType)
  | test (ifTrue ifFalse : Expr) (ty : HostType)
  | ifTrue (test ifFalse : Expr) (ty : HostType)
  | ifFalse (test ifTrue : Expr) (ty : HostType)
  | castOperand (ty : HostType)
  | array (index : Nat) (ty : HostType)
  | body (parameters : List Variable)

def Layer.fill (e : Expr) : Layer → Expr
  | .target method args ty => .call e method args ty
  | .callArgument x method before after ty => .call x method (before ++ e :: after) ty
  | .staticArgument owner method before after ty => .staticCall owner method (before ++ e :: after) ty
  | .constructArgument ty before after => .construct ty (before ++ e :: after)
  | .left op y ty => .binary op e y ty
  | .right op x ty => .binary op x e ty
  | .operand op ty => .unary op e ty
  | .test x y ty => .conditional e x y ty
  | .ifTrue x y ty => .conditional x e y ty
  | .ifFalse x y ty => .conditional x y e ty
  | .castOperand ty => .cast e ty
  | .array index ty => .element e index ty
  | .body parameters => .lambda parameters e

/-- An expression with a place left open, as its layers from the outermost one inwards. -/
abbrev Layers := List Layer

def Layers.fill (e : Expr) (place : Layers) : Expr := place.foldr (fun layer e => layer.fill e) e

namespace Expr

/-- The argument list up to an argument. -/
def argumentsBefore (before : List Expr) : List Char :=
  '(' :: before.flatMap fun e => e.text.toList ++ [',', ' ']

/-- The argument list from the end of an argument on. -/
def argumentsAfter (after : List Expr) : List Char :=
  (after.flatMap fun e => [',', ' '] ++ e.text.toList) ++ [')']

theorem texts_eq_map (es : List Expr) : texts es = es.map text := by
  induction es with
  | nil => rw [texts, List.map_nil]
  | cons e es ih => rw [texts, ih, List.map_cons]

theorem intercalate_split (separator item : List Char) (before after : List (List Char)) :
    separator.intercalate (before ++ item :: after) =
      (before.flatMap (· ++ separator)) ++ (item ++ after.flatMap (separator ++ ·)) := by
  induction before generalizing item after with
  | nil =>
      induction after generalizing item with
      | nil => simp
      | cons next after ih =>
          rw [List.nil_append, List.intercalate_cons_cons, ← List.nil_append (next :: after), ih next]
          simp
  | cons first before ih =>
      cases before with
      | nil =>
          rw [List.singleton_append, List.intercalate_cons_cons, ← List.nil_append (item :: after), ih]
          simp
      | cons second before =>
          rw [List.cons_append, List.cons_append, List.intercalate_cons_cons, ← List.cons_append, ih]
          simp

theorem toList_argumentList (before after : List Expr) (e : Expr) :
    (argumentList (before ++ e :: after)).toList =
      argumentsBefore before ++ (e.text.toList ++ argumentsAfter after) := by
  have hsplit := intercalate_split [',', ' '] e.text.toList (before.map fun e => e.text.toList)
    (after.map fun e => e.text.toList)
  simp [argumentList, texts_eq_map, argumentsBefore, argumentsAfter, String.toList_intercalate,
    Function.comp_def, hsplit, List.flatMap_map]

end Expr

theorem Text.toList_guarded (needed : Bool) (text : String) :
    (Text.guarded needed text).toList =
      (if needed then ['('] else []) ++ (text.toList ++ if needed then [')'] else []) := by
  cases needed with
  | true => simp [Text.guarded]
  | false => simp [Text.guarded]

/-- Whether the filled layer needs parentheses does not depend on what it is filled with. -/
theorem Layer.needsParens_fill (layer : Layer) (e e' : Expr) :
    (layer.fill e).needsParens = (layer.fill e').needsParens := by
  cases layer with
  | target | callArgument | staticArgument | constructArgument | left | right | operand | test
  | ifTrue | ifFalse | castOperand | array | body => rfl

/-- What is written around the open place does not depend on what it is filled with, but for the
parentheses that this may need. -/
theorem Layer.exists_toList_fill (layer : Layer) (needed : Bool) :
    ∃ before after : List Char, ∀ e : Expr, e.needsParens = needed →
      (layer.fill e).text.toList = before ++ (e.text.toList ++ after) := by
  let opened : List Char := if needed then ['('] else []
  let closed : List Char := if needed then [')'] else []
  have hguarded (e : Expr) (he : e.needsParens = needed) :
      (Text.guarded e.needsParens e.text).toList = opened ++ (e.text.toList ++ closed) := by
    rw [he, Text.toList_guarded]
  cases layer with
  | target method args ty =>
      refine ⟨opened, closed ++ ("." ++ method ++ Expr.argumentList args).toList, fun e he => ?_⟩
      simp [Layer.fill, Expr.text, hguarded e he]
  | callArgument x method before after ty =>
      refine ⟨(Text.guarded x.needsParens x.text ++ "." ++ method).toList ++
        Expr.argumentsBefore before, Expr.argumentsAfter after, fun e he => ?_⟩
      simp [Layer.fill, Expr.text, Expr.toList_argumentList]
  | staticArgument owner method before after ty =>
      refine ⟨(owner ++ "." ++ method).toList ++ Expr.argumentsBefore before,
        Expr.argumentsAfter after, fun e he => ?_⟩
      simp [Layer.fill, Expr.text, Expr.toList_argumentList]
  | constructArgument ty before after =>
      refine ⟨("new " ++ ty.text).toList ++ Expr.argumentsBefore before,
        Expr.argumentsAfter after, fun e he => ?_⟩
      simp [Layer.fill, Expr.text, Expr.toList_argumentList]
  | left op y ty =>
      refine ⟨opened, closed ++ (" " ++ op.symbol ++ " " ++ Text.guarded y.needsParens y.text).toList,
        fun e he => ?_⟩
      simp [Layer.fill, Expr.text, hguarded e he]
  | right op x ty =>
      refine ⟨(Text.guarded x.needsParens x.text ++ " " ++ op.symbol ++ " ").toList ++ opened, closed,
        fun e he => ?_⟩
      simp [Layer.fill, Expr.text, hguarded e he]
  | operand op ty =>
      refine ⟨op.symbol.toList ++ opened, closed, fun e he => ?_⟩
      simp [Layer.fill, Expr.text, hguarded e he]
  | test x y ty =>
      refine ⟨opened, closed ++ (" ? " ++ Text.guarded x.needsParens x.text ++ " : " ++
        Text.guarded y.needsParens y.text).toList, fun e he => ?_⟩
      simp [Layer.fill, Expr.text, hguarded e he]
  | ifTrue x y ty =>
      refine ⟨(Text.guarded x.needsParens x.text ++ " ? ").toList ++ opened,
        closed ++ (" : " ++ Text.guarded y.needsParens y.text).toList, fun e he => ?_⟩
      simp [Layer.fill, Expr.text, hguarded e he]
  | ifFalse x y ty =>
      refine ⟨(Text.guarded x.needsParens x.text ++ " ? " ++ Text.guarded y.needsParens y.text ++
        " : ").toList ++ opened, closed, fun e he => ?_⟩
      simp [Layer.fill, Expr.text, hguarded e he]
  | castOperand ty =>
      refine ⟨("(" ++ ty.text ++ ") ").toList ++ opened, closed, fun e he => ?_⟩
      simp [Layer.fill, Expr.text, hguarded e he]
  | array index ty =>
      refine ⟨opened, closed ++ ("[" ++ toString index ++ "]").toList, fun e he => ?_⟩
      simp [Layer.fill, Expr.text, hguarded e he]
  | body parameters =>
      refine ⟨(Text.parameters parameters ++ " -> ").toList, [], fun e he => ?_⟩
      simp [Layer.fill, Expr.text]

theorem Layers.exists_toList_fill (place : Layers) (needed : Bool) :
    ∃ (before after : List Char) (outer : Bool), ∀ e : Expr, e.needsParens = needed →
      (place.fill e).needsParens = outer ∧
        (place.fill e).text.toList = before ++ (e.text.toList ++ after) := by
  induction place with
  | nil => exact ⟨[], [], needed, fun e he => ⟨he, (List.append_nil _).symm⟩⟩
  | cons layer inner ih =>
      obtain ⟨before, after, outer, hinner⟩ := ih
      obtain ⟨before', after', hlayer⟩ := layer.exists_toList_fill outer
      refine ⟨before' ++ before, after ++ after', (layer.fill .null).needsParens, fun e he => ?_⟩
      obtain ⟨hparens, htext⟩ := hinner e he
      refine ⟨layer.needsParens_fill _ _, ?_⟩
      calc
        (layer.fill (Layers.fill e inner)).text.toList
          = before' ++ ((Layers.fill e inner).text.toList ++ after') := hlayer (Layers.fill e inner) hparens
        _ = before' ++ (before ++ (e.text.toList ++ after) ++ after') := by rw [htext]
        _ = before' ++ before ++ (e.text.toList ++ (after ++ after')) := by
          simp only [List.append_assoc]

/-- What is written around the open place of a declaration. -/
theorem Declaration.exists_toList_fill (target : Variable) (isFinal : Bool) (place : Layers)
    (needed : Bool) :
    ∃ before after : List Char, ∀ e : Expr, e.needsParens = needed →
      (Declaration.text ⟨target, place.fill e, isFinal⟩).toList =
        before ++ (e.text.toList ++ after) := by
  obtain ⟨before, after, _, hplace⟩ := place.exists_toList_fill needed
  refine ⟨((if isFinal then "final " else "") ++ target.ty.text ++ " " ++ target.name ++
    " = ").toList ++ before, after ++ [';'], fun e he => ?_⟩
  simp [Declaration.text, Declaration.name, (hplace e he).2]

open Quotation in
/-- **A string constant does not break out of its quotes.** Whatever follows, its text is read to its
end and gives the string, and it contains no line feed; so texts of different strings differ, and none
goes on as another one. In an argument list, at any place in an expression and in a declaration, what
stands around the constant is the same for all strings, and the constant is read at its place. -/
theorem Expr.string_constant_is_quoted :
    (∀ s ty rest, read? ((constant (.string s) ty).text.toList ++ rest) = some (s, rest)) ∧
    (∀ s ty, '\n' ∉ (constant (.string s) ty).text.toList) ∧
    (∀ s s' ty ty' rest rest', (constant (.string s) ty).text.toList ++ rest =
      (constant (.string s') ty').text.toList ++ rest' ↔ s = s' ∧ rest = rest') ∧
    (∀ s s' ty ty', (constant (.string s) ty).text = (constant (.string s') ty').text ↔ s = s') ∧
    (∀ before after s ty, (argumentList (before ++ constant (.string s) ty :: after)).toList =
      argumentsBefore before ++ ((constant (.string s) ty).text.toList ++ argumentsAfter after)) ∧
    (∀ place : Layers, ∃ before after : List Char, ∀ s ty,
      (place.fill (constant (.string s) ty)).text.toList =
        before ++ ((constant (.string s) ty).text.toList ++ after) ∧
      read? ((constant (.string s) ty).text.toList ++ after) = some (s, after)) ∧
    ∀ (target : Variable) (isFinal : Bool) (place : Layers), ∃ before after : List Char, ∀ s ty,
      (Declaration.text ⟨target, place.fill (constant (.string s) ty), isFinal⟩).toList =
        before ++ ((constant (.string s) ty).text.toList ++ after) ∧
      read? ((constant (.string s) ty).text.toList ++ after) = some (s, after) := by
  have hliteral (s : String) (ty : HostType) : (constant (.string s) ty).text = Text.literal s := by
    rw [text, Text.constant]
  have hread (s : String) (ty : HostType) (rest : List Char) :
      read? ((constant (.string s) ty).text.toList ++ rest) = some (s, rest) := by
    rw [hliteral, read?_literal]
  refine ⟨hread, fun s ty => ?_, fun s s' ty ty' rest rest' => ?_, fun s s' ty ty' => ?_,
    fun before after s ty => toList_argumentList before after _, fun place => ?_,
    fun target isFinal place => ?_⟩
  · rw [hliteral]
    exact newline_not_mem_literal s
  · rw [hliteral, hliteral]
    exact literal_append_inj
  · rw [hliteral, hliteral]
    constructor
    · intro heq
      have hchars : (Text.literal s).toList ++ [] = (Text.literal s').toList ++ [] := by rw [heq]
      exact (literal_append_inj.mp hchars).1
    · exact fun heq => congrArg Text.literal heq
  · obtain ⟨before, after, _, hplace⟩ := place.exists_toList_fill false
    exact ⟨before, after, fun s ty => ⟨(hplace _ rfl).2, hread s ty after⟩⟩
  · obtain ⟨before, after, hplace⟩ := Declaration.exists_toList_fill target isFinal place false
    exact ⟨before, after, fun s ty => ⟨hplace _ rfl, hread s ty after⟩⟩

/-- Quotes and backslashes in a row, a backslash before the closing quote, and an argument after it. -/
example : Quotation.read? "\"\\\"\\\\\", x)".toList = some ("\"\\", ", x)".toList) := by decide

end RowCode
