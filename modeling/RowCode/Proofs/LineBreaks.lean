import RowCode.Proofs.Agreement
import RowCode.Proofs.Printing
import RowCode.Proofs.Quotation

/-!
# Line breaks in code

Line feeds and carriage returns end a line. The host's own words and symbols are free of both, so that
they come into code with names and with string constants only. Constants are written with their line
feeds escaped, but with their carriage returns as they are.
-/

namespace RowCode

namespace Text

def endsLine (c : Char) : Bool := c = '\n' || c = '\r'

/-- No character of the text ends a line. -/
def IsInline (s : String) : Prop := ∀ c ∈ s.toList, endsLine c = false

instance (s : String) : Decidable (IsInline s) := List.decidableBAll _ _

theorem isInline_append {s t : String} : IsInline (s ++ t) ↔ IsInline s ∧ IsInline t := by
  rw [IsInline, String.toList_append, List.forall_mem_append]
  rfl

theorem IsInline.not_mem {s : String} (h : IsInline s) {c : Char} (hc : endsLine c = true) :
    c ∉ s.toList := fun hmem => absurd hc (by simp [h c hmem])

theorem endsLine_of_isPlain {c : Char} (hc : Printing.isPlain c = true) : endsLine c = false := by
  refine eq_false_of_ne_true fun hends => ?_
  rcases Bool.or_eq_true_iff.mp hends with hfeed | hreturn
  · rw [of_decide_eq_true hfeed] at hc
    exact absurd hc (by decide)
  · rw [of_decide_eq_true hreturn] at hc
    exact absurd hc (by decide)

theorem isInline_of_isPrinted {s : String} (h : Printing.IsPrinted s.toList) : IsInline s :=
  fun c hc => endsLine_of_isPlain (h.plain c hc)

theorem isInline_toString (n : Nat) : IsInline (toString n) := by
  have hchars : (toString n).toList = decimalDigits n := by simp [decimalDigits]
  exact isInline_of_isPrinted (hchars ▸ Printing.isPrinted_decimalDigits n)

theorem isInline_type (ty : HostType) : IsInline ty.text := by
  induction ty with
  | primitive p => cases p <;> decide
  | boxed p => cases p <;> decide
  | array component ih => exact isInline_append.mpr ⟨ih, by decide⟩
  | string | decimal | bigInteger | object => decide

theorem isInline_special {owner : String} (howner : IsInline owner) (negative : Bool)
    {magnitude : Magnitude} {name : String} (h : special owner negative magnitude = some name) :
    IsInline name := by
  cases magnitude with
  | finite => cases h
  | infinite =>
      obtain rfl := Option.some.inj h
      refine isInline_append.mpr ⟨howner, ?_⟩
      cases negative with
      | true => decide
      | false => decide
  | nan =>
      obtain rfl := Option.some.inj h
      exact isInline_append.mpr ⟨howner, by decide⟩

/-- Constants that are no strings are written in one line. -/
theorem isInline_constant {v : Value} (hv : ∀ s, v ≠ .string s) (ty : HostType) :
    IsInline (constant v ty) := by
  have hplain : IsInline v.text := isInline_of_isPrinted (Printing.isPrinted_text hv)
  cases v with
  | string s => exact absurd rfl (hv s)
  | null =>
      rw [constant]
      split
      · decide
      · exact isInline_append.mpr ⟨isInline_append.mpr ⟨by decide, isInline_type ty⟩, by decide⟩
  | boolean b => exact hplain
  | int8 n => exact isInline_append.mpr ⟨by decide, hplain⟩
  | int16 n => exact isInline_append.mpr ⟨by decide, hplain⟩
  | int32 n => exact hplain
  | int64 n => exact isInline_append.mpr ⟨hplain, by decide⟩
  | float x =>
      rw [constant]
      cases hspecial : special "Float" x.negative x.magnitude with
      | none => exact isInline_append.mpr ⟨hplain, by decide⟩
      | some name => exact isInline_special (by decide) x.negative hspecial
  | double x =>
      rw [constant]
      cases hspecial : special "Double" x.negative x.magnitude with
      | none => exact isInline_append.mpr ⟨hplain, by decide⟩
      | some name => exact isInline_special (by decide) x.negative hspecial
  | decimal d => exact hplain

theorem return_mem_escape {c : Char} : '\r' ∈ escape c ↔ c = '\r' := by
  unfold escape
  split
  · decide
  · decide
  · decide
  · decide
  · rw [List.mem_singleton, eq_comm]

/-- A line feed is never written as such, and a carriage return always is. -/
theorem endsLine_mem_literal {c : Char} (hc : endsLine c = true) (s : String) :
    c ∈ (literal s).toList ↔ c = '\r' ∧ c ∈ s.toList := by
  rcases Bool.or_eq_true_iff.mp hc with hfeed | hreturn
  · obtain rfl := of_decide_eq_true hfeed
    exact iff_of_false (Quotation.newline_not_mem_literal s) fun hboth => absurd hboth.1 (by decide)
  · obtain rfl := of_decide_eq_true hreturn
    rw [Quotation.toList_literal, List.mem_cons, List.mem_append, List.mem_flatMap]
    constructor
    · rintro (hquote | ⟨d, hd, hescape⟩ | hquote)
      · exact absurd hquote (by decide)
      · exact ⟨rfl, return_mem_escape.mp hescape ▸ hd⟩
      · exact absurd hquote (by decide)
    · rintro ⟨-, hmem⟩
      exact .inr (.inl ⟨'\r', hmem, return_mem_escape.mpr rfl⟩)

end Text

/-- A character of the names, or a carriage return of the strings among the values. -/
def Breaks (c : Char) (names : List String) (values : List Value) : Prop :=
  (∃ name ∈ names, c ∈ name.toList) ∨ c = '\r' ∧ ∃ s, .string s ∈ values ∧ c ∈ s.toList

theorem breaks_append {c : Char} {names names' : List String} {values values' : List Value} :
    Breaks c (names ++ names') (values ++ values') ↔
      Breaks c names values ∨ Breaks c names' values' := by
  simp only [Breaks, List.mem_append, or_and_right, exists_or, and_or_left]
  exact or_or_or_comm

theorem breaks_cons {c : Char} {name : String} {names : List String} {values : List Value} :
    Breaks c (name :: names) values ↔ c ∈ name.toList ∨ Breaks c names values := by
  simp only [Breaks, List.exists_mem_cons_iff, or_assoc]

theorem not_breaks_nil {c : Char} : ¬ Breaks c [] [] := by
  rintro (⟨name, hname, -⟩ | ⟨-, s, hs, -⟩)
  · cases hname
  · cases hs

/-- Fixed text does not break lines. -/
theorem Text.IsInline.mem_iff {s : String} (h : IsInline s) {c : Char} (hc : endsLine c = true) :
    c ∈ s.toList ↔ False :=
  iff_false_intro (h.not_mem hc)

theorem Text.endsLine_mem_guarded {c : Char} (hc : endsLine c = true) (needed : Bool)
    (text : String) : c ∈ (guarded needed text).toList ↔ c ∈ text.toList := by
  cases needed with
  | true =>
      have hopen : IsInline "(" := by decide
      have hclose : IsInline ")" := by decide
      simp only [guarded, if_true, String.toList_append, List.mem_append, hopen.mem_iff hc,
        hclose.mem_iff hc, false_or, or_false]
  | false => rfl

theorem Text.mem_intercalate {c : Char} {separator : String} (h : c ∉ separator.toList)
    (texts : List String) :
    c ∈ (String.intercalate separator texts).toList ↔ ∃ text ∈ texts, c ∈ text.toList := by
  rw [String.toList_intercalate]
  induction texts with
  | nil => simp
  | cons text rest ih =>
      cases rest with
      | nil => simp
      | cons next rest =>
          rw [List.map_cons] at ih
          rw [List.map_cons, List.map_cons, List.intercalate_cons_cons, List.mem_append,
            List.mem_append, ih]
          simp only [h, or_false, List.exists_mem_cons_iff]

theorem Text.endsLine_mem_listed {c : Char} (hc : endsLine c = true) (texts : List String) :
    c ∈ ("(" ++ String.intercalate ", " texts ++ ")").toList ↔ ∃ text ∈ texts, c ∈ text.toList := by
  have hopen : IsInline "(" := by decide
  have hclose : IsInline ")" := by decide
  have hcomma : IsInline ", " := by decide
  simp only [String.toList_append, List.mem_append, hopen.mem_iff hc, hclose.mem_iff hc,
    mem_intercalate (hcomma.not_mem hc), false_or, or_false]

theorem Text.endsLine_mem_parameters {c : Char} (hc : endsLine c = true) (ps : List Variable) :
    c ∈ (parameters ps).toList ↔ ∃ name ∈ ps.map Variable.name, c ∈ name.toList := by
  have hlisted := endsLine_mem_listed hc (ps.map Variable.name)
  cases ps with
  | nil => exact hlisted
  | cons p ps =>
      cases ps with
      | nil => simp [parameters]
      | cons q ps => exact hlisted

theorem Text.endsLine_mem_constant {c : Char} (hc : endsLine c = true) (v : Value) (ty : HostType) :
    c ∈ (constant v ty).toList ↔ Breaks c [] [v] := by
  by_cases hv : ∃ s, v = .string s
  · obtain ⟨s, rfl⟩ := hv
    rw [constant, endsLine_mem_literal hc]
    simp [Breaks]
  · have hinline := isInline_constant (fun s hs => hv ⟨s, hs⟩) ty
    refine iff_of_false (hinline.not_mem hc) ?_
    rintro (⟨name, hname, -⟩ | ⟨-, s, hs, -⟩)
    · cases hname
    · exact hv ⟨s, (List.mem_singleton.mp hs).symm⟩

namespace Expr

open Text

mutual

/-- **What breaks lines in code.** Characters that end a line are those of names, and the carriage
returns of string constants. -/
theorem endsLine_mem_text {c : Char} (hc : endsLine c = true) : (e : Expr) →
    (c ∈ e.text.toList ↔ Breaks c e.names e.constants)
  | constant v ty => by rw [text, names, constants, endsLine_mem_constant hc]
  | var v => by simp [text, names, constants, Breaks]
  | call target method args ty => by
      have hdot : IsInline "." := by decide
      rw [text, names, constants, breaks_append, breaks_cons, ← endsLine_mem_text hc target,
        ← endsLine_mem_argumentList hc args]
      simp only [String.toList_append, List.mem_append, endsLine_mem_guarded hc, hdot.mem_iff hc,
        or_false, or_assoc]
  | staticCall owner method args ty => by
      have hdot : IsInline "." := by decide
      rw [text, names, constants, breaks_cons, breaks_cons, ← endsLine_mem_argumentList hc args]
      simp only [String.toList_append, List.mem_append, hdot.mem_iff hc, or_false, or_assoc]
  | construct ty args => by
      have hnew : IsInline "new " := by decide
      rw [text, names, constants, ← endsLine_mem_argumentList hc args]
      simp only [String.toList_append, List.mem_append, hnew.mem_iff hc,
        (isInline_type ty).mem_iff hc, false_or]
  | binary op left right ty => by
      have hspace : IsInline " " := by decide
      have hsymbol : IsInline op.symbol := by cases op <;> decide
      rw [text, names, constants, breaks_append, ← endsLine_mem_text hc left,
        ← endsLine_mem_text hc right]
      simp only [String.toList_append, List.mem_append, endsLine_mem_guarded hc,
        hspace.mem_iff hc, hsymbol.mem_iff hc, or_false]
  | unary op operand ty => by
      have hsymbol : IsInline op.symbol := by cases op <;> decide
      rw [text, names, constants, ← endsLine_mem_text hc operand]
      simp only [String.toList_append, List.mem_append, endsLine_mem_guarded hc,
        hsymbol.mem_iff hc, false_or]
  | conditional test ifTrue ifFalse ty => by
      have hquestion : IsInline " ? " := by decide
      have hcolon : IsInline " : " := by decide
      rw [text, names, constants, breaks_append, breaks_append, ← endsLine_mem_text hc test,
        ← endsLine_mem_text hc ifTrue, ← endsLine_mem_text hc ifFalse]
      simp only [String.toList_append, List.mem_append, endsLine_mem_guarded hc,
        hquestion.mem_iff hc, hcolon.mem_iff hc, or_false]
  | cast operand ty => by
      have hopen : IsInline "(" := by decide
      have hclose : IsInline ") " := by decide
      rw [text, names, constants, ← endsLine_mem_text hc operand]
      simp only [String.toList_append, List.mem_append, endsLine_mem_guarded hc, hopen.mem_iff hc,
        hclose.mem_iff hc, (isInline_type ty).mem_iff hc, false_or]
  | element array index ty => by
      have hopen : IsInline "[" := by decide
      have hclose : IsInline "]" := by decide
      rw [text, names, constants, ← endsLine_mem_text hc array]
      simp only [String.toList_append, List.mem_append, endsLine_mem_guarded hc, hopen.mem_iff hc,
        hclose.mem_iff hc, (isInline_toString index).mem_iff hc, or_false]
  | lambda parameters body => by
      have harrow : IsInline " -> " := by decide
      rw [text, names, constants, ← List.nil_append (constants body), breaks_append,
        ← endsLine_mem_text hc body]
      simp only [String.toList_append, List.mem_append, harrow.mem_iff hc, or_false,
        endsLine_mem_parameters hc]
      simp [Breaks]

theorem endsLine_mem_argumentList {c : Char} (hc : endsLine c = true) : (es : List Expr) →
    (c ∈ (argumentList es).toList ↔ Breaks c (namesOfAll es) (constantsOfAll es))
  | es => by
      rw [argumentList, endsLine_mem_listed hc, endsLine_mem_texts hc es]

theorem endsLine_mem_texts {c : Char} (hc : endsLine c = true) : (es : List Expr) →
    ((∃ text ∈ texts es, c ∈ text.toList) ↔ Breaks c (namesOfAll es) (constantsOfAll es))
  | [] => by
      rw [texts, namesOfAll, constantsOfAll]
      exact iff_of_false (by simp) not_breaks_nil
  | e :: rest => by
      rw [texts, namesOfAll, constantsOfAll, breaks_append, List.exists_mem_cons_iff,
        endsLine_mem_text hc e, endsLine_mem_texts hc rest]

end

end Expr

open Text

/-- A string constant of the expression has a carriage return. -/
def Expr.HasReturn (e : Expr) : Prop := ∃ s, .string s ∈ e.constants ∧ '\r' ∈ s.toList

/-- No name in the declaration breaks a line. -/
structure Declaration.HasInlineNames (d : Declaration) : Prop where
  name : Text.IsInline d.name
  init : ∀ name ∈ d.init.names, Text.IsInline name

theorem Expr.newline_not_mem_text {e : Expr} (h : ∀ name ∈ e.names, Text.IsInline name) :
    '\n' ∉ e.text.toList := by
  rw [endsLine_mem_text (by decide)]
  rintro (⟨name, hname, hmem⟩ | ⟨hreturn, -⟩)
  · exact (h name hname).not_mem (by decide) hmem
  · exact absurd hreturn (by decide)

theorem Expr.return_mem_text_iff {e : Expr} (h : ∀ name ∈ e.names, Text.IsInline name) :
    '\r' ∈ e.text.toList ↔ e.HasReturn := by
  rw [endsLine_mem_text (by decide)]
  constructor
  · rintro (⟨name, hname, hmem⟩ | ⟨-, hreturn⟩)
    · exact absurd hmem ((h name hname).not_mem (by decide))
    · exact hreturn
  · exact fun hreturn => .inr ⟨rfl, hreturn⟩

namespace Declaration

variable {d : Declaration}

theorem endsLine_mem_text (h : Text.IsInline d.name) {c : Char} (hc : endsLine c = true) :
    c ∈ d.text.toList ↔ c ∈ d.init.text.toList := by
  have hfinal : Text.IsInline (if d.isFinal then "final " else "") := by
    cases d.isFinal with
    | true => decide
    | false => decide
  have hspace : Text.IsInline " " := by decide
  have hequals : Text.IsInline " = " := by decide
  have hend : Text.IsInline ";" := by decide
  simp only [text, String.toList_append, List.mem_append, hfinal.mem_iff hc, hspace.mem_iff hc,
    hequals.mem_iff hc, hend.mem_iff hc, h.mem_iff hc, (isInline_type d.target.ty).mem_iff hc,
    false_or, or_false]

theorem HasInlineNames.newline_not_mem (h : d.HasInlineNames) : '\n' ∉ d.text.toList := by
  rw [endsLine_mem_text h.name (by decide)]
  exact Expr.newline_not_mem_text h.init

theorem HasInlineNames.return_mem_iff (h : d.HasInlineNames) : '\r' ∈ d.text.toList ↔ d.init.HasReturn := by
  rw [endsLine_mem_text h.name (by decide)]
  exact Expr.return_mem_text_iff h.init

end Declaration

/-! ### Lines -/

/-- Each text is ended by a line feed. -/
def linesOf (texts : List String) : String := String.join (texts.map (· ++ "\n"))

theorem toList_linesOf (texts : List String) :
    (linesOf texts).toList = texts.flatMap fun text => text.toList ++ ['\n'] := by
  rw [linesOf, String.toList_join, List.flatMap_map]
  simp

theorem linesOf_cons (text : String) (texts : List String) :
    linesOf (text :: texts) = text ++ "\n" ++ linesOf texts := by
  rw [← String.toList_inj]
  simp [toList_linesOf]

theorem linesOf_append (texts texts' : List String) :
    linesOf (texts ++ texts') = linesOf texts ++ linesOf texts' := by
  rw [← String.toList_inj]
  simp [toList_linesOf]

theorem linesOf_eq_intercalate (texts : List String) :
    (linesOf texts).toList = ['\n'].intercalate (texts.map String.toList ++ [[]]) := by
  rw [toList_linesOf]
  induction texts with
  | nil => rfl
  | cons text rest ih =>
      cases rest with
      | nil => simp
      | cons next rest =>
          rw [List.flatMap_cons, ih]
          simp

/-- **Lines are told by line feeds.** Texts without line feeds are the lines that are read back. -/
theorem splitOn_linesOf {texts : List String} (h : ∀ text ∈ texts, '\n' ∉ text.toList) :
    (linesOf texts).toList.splitOn '\n' = texts.map String.toList ++ [[]] := by
  rw [linesOf_eq_intercalate]
  apply List.splitOn_intercalate '\n'
  · rw [List.forall_mem_append, List.forall_mem_map, List.forall_mem_singleton]
    exact ⟨h, List.not_mem_nil⟩
  · exact List.append_ne_nil_of_right_ne_nil _ (List.cons_ne_nil _ _)

theorem count_linesOf {texts : List String} (h : ∀ text ∈ texts, '\n' ∉ text.toList) :
    (linesOf texts).toList.count '\n' = texts.length := by
  rw [toList_linesOf]
  induction texts with
  | nil => rfl
  | cons text rest ih =>
      obtain ⟨hfirst, hrest⟩ := List.forall_mem_cons.mp h
      rw [List.flatMap_cons, List.count_append, List.count_append, ih hrest,
        List.count_eq_zero.mpr hfirst]
      simp [Nat.add_comm]

theorem return_mem_linesOf {texts : List String} :
    '\r' ∈ (linesOf texts).toList ↔ ∃ text ∈ texts, '\r' ∈ text.toList := by
  rw [toList_linesOf, List.mem_flatMap]
  refine exists_congr fun text => and_congr_right fun _ => ?_
  rw [List.mem_append]
  exact or_iff_left (by decide)

end RowCode
