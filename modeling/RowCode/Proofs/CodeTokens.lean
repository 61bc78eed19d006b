import RowCode.Proofs.CodeTrees
import RowCode.Proofs.DecimalReading

/-!
# Tokens of code

Code is a sequence of tokens. Words and numbers go as far as they can, and of the symbols that start
alike the longest one is meant, so tokens are told apart as long as none of them goes on in the
next.
-/

namespace RowCode

/-- A token, where numbers are given by a type of their own. -/
inductive Token (ν : Type) where
  | word (s : String)
  | numeral (n : ν)
  | quoted (s : String)
  | index (n : Nat)
  | brackets
  | opening | closing | dot | comma | question | colon | arrow | bang | space
  | op (o : BinaryOp)

namespace Token

def map {ν ν' : Type} (f : ν → ν') : Token ν → Token ν'
  | numeral n => numeral (f n)
  | word s => word s
  | quoted s => quoted s
  | index n => index n
  | op o => op o
  | brackets => brackets
  | opening => opening
  | closing => closing
  | dot => dot
  | comma => comma
  | question => question
  | colon => colon
  | arrow => arrow
  | bang => bang
  | space => space

def chars : Token (List Char) → List Char
  | word s => s.toList
  | numeral n => n
  | quoted s => '"' :: (s.toList.flatMap Text.escape ++ ['"'])
  | index n => '[' :: (decimalDigits n ++ [']'])
  | brackets => ['[', ']']
  | opening => ['(']
  | closing => [')']
  | dot => ['.']
  | comma => [',']
  | question => ['?']
  | colon => [':']
  | arrow => ['-', '>']
  | bang => ['!']
  | space => [' ']
  | op o => o.symbol.toList

end Token

namespace Scan

/-! ### Numbers -/

/-- A point and digits. A point before anything else does not belong to the number. -/
def fraction : List Char → List Char × List Char
  | '.' :: d :: rest =>
    if d.isDigit then
      let (digits, rest) := Decimal.splitDigits (d :: rest)
      ('.' :: digits, rest)
    else ([], '.' :: d :: rest)
  | rest => ([], rest)

def exponent : List Char → List Char × List Char
  | 'E' :: sign :: rest =>
    let (digits, rest) := Decimal.splitDigits rest
    ('E' :: sign :: digits, rest)
  | rest => ([], rest)

def width : List Char → List Char × List Char
  | c :: rest => if c = 'L' ∨ c = 'F' ∨ c = 'D' then ([c], rest) else ([], c :: rest)
  | [] => ([], [])

def numeral (cs : List Char) : List Char × List Char :=
  let (whole, rest) := Decimal.splitDigits cs
  let (fraction, rest) := fraction rest
  let (exponent, rest) := exponent rest
  let (width, rest) := width rest
  (whole ++ fraction ++ exponent ++ width, rest)

/-! ### Other tokens -/

def unescape : Char → Char
  | 'n' => '\n'
  | 't' => '\t'
  | c => c

/-- The string up to the next quote that is not escaped. -/
def quoted : List Char → Option (List Char × List Char)
  | [] => none
  | '"' :: rest => some ([], rest)
  | '\\' :: c :: rest => (quoted rest).map fun (s, rest) => (unescape c :: s, rest)
  | c :: rest => (quoted rest).map fun (s, rest) => (c :: s, rest)

def index (cs : List Char) : Option (Token (List Char) × List Char) :=
  match Decimal.splitDigits cs with
  | ([], ']' :: rest) => some (.brackets, rest)
  | (digits, ']' :: rest) => some (.index (digitsValue digits), rest)
  | _ => none

/-- The longer token if the character follows, and else the shorter one. -/
def longest (c : Char) (long short : Token (List Char)) (cs : List Char) :
    Token (List Char) × List Char :=
  if cs.head? = some c then (long, cs.tail) else (short, cs)

def symbol : List Char → Option (Token (List Char) × List Char)
  | '(' :: rest => some (.opening, rest)
  | ')' :: rest => some (.closing, rest)
  | '.' :: rest => some (.dot, rest)
  | ',' :: rest => some (.comma, rest)
  | '?' :: rest => some (.question, rest)
  | ':' :: rest => some (.colon, rest)
  | ' ' :: rest => some (.space, rest)
  | '+' :: rest => some (.op .add, rest)
  | '*' :: rest => some (.op .multiply, rest)
  | '/' :: rest => some (.op .divide, rest)
  | '%' :: rest => some (.op .modulo, rest)
  | '&' :: '&' :: rest => some (.op .andAlso, rest)
  | '|' :: '|' :: rest => some (.op .orElse, rest)
  | '=' :: '=' :: rest => some (.op .equal, rest)
  | '!' :: rest => some (longest '=' (.op .notEqual) .bang rest)
  | '<' :: rest => some (longest '=' (.op .lessThanOrEqual) (.op .lessThan) rest)
  | '>' :: rest => some (longest '=' (.op .greaterThanOrEqual) (.op .greaterThan) rest)
  | '-' :: rest => some (longest '>' .arrow (.op .subtract) rest)
  | _ => none

/-- The first token of the text, and what follows it. -/
def token : List Char → Option (Token (List Char) × List Char)
  | [] => none
  | c :: cs =>
    if c.isDigit then
      let (n, rest) := numeral (c :: cs)
      some (.numeral n, rest)
    else if Text.isWordChar c then
      some (.word (String.ofList ((c :: cs).takeWhile Text.isWordChar)),
        (c :: cs).dropWhile Text.isWordChar)
    else if c = '"' then (quoted cs).map fun (s, rest) => (.quoted (String.ofList s), rest)
    else if c = '[' then index cs
    else symbol (c :: cs)

end Scan

/-! ### Numbers are read to their end -/

/-- Whether the characters are those of a number: digits, which may have a point among them, an
exponent and a letter for the width. -/
def IsNumber (n : List Char) : Prop :=
  ∃ whole fraction exponent width : List Char, n = whole ++ (fraction ++ (exponent ++ width)) ∧
    whole ≠ [] ∧ (∀ c ∈ whole, c.isDigit = true) ∧
    (fraction = [] ∨ ∃ digits, fraction = '.' :: digits ∧ digits ≠ [] ∧
      ∀ c ∈ digits, c.isDigit = true) ∧
    (exponent = [] ∨ ∃ sign digits, exponent = 'E' :: sign :: digits ∧
      ∀ c ∈ digits, c.isDigit = true) ∧
    (width = [] ∨ ∃ c ∈ ['L', 'F', 'D'], width = [c])

/-- Whether a word or a number that stands before the text ends there. -/
structure EndsHere (rest : List Char) : Prop where
  notWordChar : ∀ c ∈ rest.head?, Text.isWordChar c = false
  noFraction : ∀ c cs, rest = '.' :: c :: cs → c.isDigit = false

namespace Scan

theorem isWordChar_of_isDigit {c : Char} (hc : c.isDigit = true) : Text.isWordChar c = true := by
  simp [Text.isWordChar, Char.isAlphanum, hc]

variable {digits rest : List Char}

theorem fraction_of_not (h : ∀ c cs, rest = '.' :: c :: cs → c.isDigit = false) :
    fraction rest = ([], rest) := by
  unfold fraction
  split
  · rw [if_neg (by simp [h _ _ rfl])]
  · rfl

theorem fraction_append (hdigits : ∀ c ∈ digits, c.isDigit = true) (hne : digits ≠ [])
    (hrest : ∀ c ∈ rest.head?, c.isDigit = false) :
    fraction ('.' :: digits ++ rest) = ('.' :: digits, rest) := by
  obtain ⟨d, more, rfl⟩ := List.exists_cons_of_ne_nil hne
  have hsplit := Decimal.splitDigits_append hdigits hrest
  rw [List.cons_append] at hsplit
  rw [List.cons_append, List.cons_append, fraction, if_pos (hdigits d List.mem_cons_self), hsplit]

theorem exponent_of_not (h : ∀ c ∈ rest.head?, c ≠ 'E') : exponent rest = ([], rest) := by
  unfold exponent
  split
  · exact absurd rfl (h 'E' rfl)
  · rfl

theorem exponent_append (sign : Char) (hdigits : ∀ c ∈ digits, c.isDigit = true)
    (hrest : ∀ c ∈ rest.head?, c.isDigit = false) :
    exponent ('E' :: sign :: digits ++ rest) = ('E' :: sign :: digits, rest) := by
  rw [List.cons_append, List.cons_append, exponent, Decimal.splitDigits_append hdigits hrest]

theorem width_of_not (h : ∀ c ∈ rest.head?, Text.isWordChar c = false) :
    width rest = ([], rest) := by
  cases rest with
  | nil => rfl
  | cons c rest =>
      have hc := h c rfl
      rw [width, if_neg]
      rintro (rfl | rfl | rfl)
      · exact absurd hc (by decide)
      · exact absurd hc (by decide)
      · exact absurd hc (by decide)

/-- **Numbers are read to their end.** -/
theorem numeral_append {n : List Char} (hn : IsNumber n) (hrest : EndsHere rest) :
    numeral (n ++ rest) = (n, rest) := by
  obtain ⟨whole, fr, ex, w, rfl, -, hwhole, hfr, hex, hw⟩ := hn
  have hrestDigit : ∀ c ∈ rest.head?, c.isDigit = false := by
    intro c hc
    refine eq_false_of_ne_true fun hdigit => ?_
    exact absurd (isWordChar_of_isDigit hdigit) (by simp [hrest.notWordChar c hc])
  -- From the end to the start, each part is followed by something that it does not go on in.
  have hwidth : width (w ++ rest) = (w, rest) := by
    rcases hw with rfl | ⟨c, hc, rfl⟩
    · exact width_of_not hrest.notWordChar
    · exact if_pos (by simpa using hc)
  have hafterWidth : (∀ c ∈ (w ++ rest).head?, c.isDigit = false ∧ c ≠ 'E') ∧
      ∀ c cs, w ++ rest = '.' :: c :: cs → c.isDigit = false := by
    rcases hw with rfl | ⟨c, hc, rfl⟩
    · refine ⟨fun c hc => ⟨hrestDigit c hc, ?_⟩, hrest.noFraction⟩
      rintro rfl
      exact absurd (hrest.notWordChar 'E' hc) (by decide)
    · constructor
      · intro d hd
        obtain rfl : c = d := by simpa using hd
        have hletters : c = 'L' ∨ c = 'F' ∨ c = 'D' := by simpa using hc
        rcases hletters with rfl | rfl | rfl
        · decide
        · decide
        · decide
      · intro d cs heq
        obtain rfl : c = '.' := (List.cons.inj heq).1
        exact absurd hc (by decide)
  have hexponent : exponent (ex ++ (w ++ rest)) = (ex, w ++ rest) := by
    rcases hex with rfl | ⟨sign, digits, rfl, hdigits⟩
    · exact exponent_of_not fun c hc => (hafterWidth.1 c hc).2
    · exact exponent_append sign hdigits fun c hc => (hafterWidth.1 c hc).1
  have hafterExponent : (∀ c ∈ (ex ++ (w ++ rest)).head?, c.isDigit = false) ∧
      ∀ c cs, ex ++ (w ++ rest) = '.' :: c :: cs → c.isDigit = false := by
    rcases hex with rfl | ⟨sign, digits, rfl, -⟩
    · exact ⟨fun c hc => (hafterWidth.1 c hc).1, hafterWidth.2⟩
    · refine ⟨fun c hc => ?_, fun c cs heq => ?_⟩
      · obtain rfl : 'E' = c := by simpa using hc
        decide
      · exact absurd (List.cons.inj heq).1 (by decide)
  have hfraction : fraction (fr ++ (ex ++ (w ++ rest))) = (fr, ex ++ (w ++ rest)) := by
    rcases hfr with rfl | ⟨digits, rfl, hne, hdigits⟩
    · exact fraction_of_not hafterExponent.2
    · exact fraction_append hdigits hne hafterExponent.1
  have hafterFraction : ∀ c ∈ (fr ++ (ex ++ (w ++ rest))).head?, c.isDigit = false := by
    rcases hfr with rfl | ⟨digits, rfl, -, -⟩
    · exact hafterExponent.1
    · intro c hc
      obtain rfl : '.' = c := by simpa using hc
      decide
  have hsplit := Decimal.splitDigits_append hwhole hafterFraction
  simp only [List.append_assoc, numeral, hsplit, hfraction, hexponent, hwidth]

theorem quoted_escape (c : Char) (rest : List Char) :
    quoted (Text.escape c ++ rest) = (quoted rest).map fun (s, rest) => (c :: s, rest) := by
  unfold Text.escape
  split
  · rfl
  · rfl
  · rfl
  · rfl
  · rename_i hquote hbackslash _ _
    rw [List.singleton_append, quoted]
    · exact hquote
    · intro d more hc
      exact absurd hc hbackslash

/-- **Strings are read to their end.** -/
theorem quoted_append (s rest : List Char) :
    quoted (s.flatMap Text.escape ++ '"' :: rest) = some (s, rest) := by
  induction s with
  | nil => rfl
  | cons c s ih =>
      rw [List.flatMap_cons, List.append_assoc, quoted_escape, ih]
      rfl

theorem index_append (n : Nat) (rest : List Char) :
    index (decimalDigits n ++ ']' :: rest) = some (.index n, rest) := by
  have hsplit : Decimal.splitDigits (decimalDigits n ++ ']' :: rest) =
      (decimalDigits n, ']' :: rest) :=
    Decimal.splitDigits_append (fun _ => isDigit_of_mem_decimalDigits) (by simp)
  obtain ⟨d, digits, hdigits⟩ := List.exists_cons_of_ne_nil (decimalDigits_ne_nil n)
  unfold index
  rw [hsplit, hdigits]
  simp only
  rw [← hdigits, digitsValue_decimalDigits]

theorem longest_short {c : Char} (long short : Token (List Char))
    (h : ∀ d ∈ rest.head?, d ≠ c) : longest c long short rest = (short, rest) :=
  if_neg fun hc => h c hc rfl

end Scan

/-! ### Tokens are read to their end -/

namespace Token

/-- Words and numbers look as they should. -/
def IsProper : Token (List Char) → Prop
  | word s => Text.isWord s = true
  | numeral n => IsNumber n
  | _ => True

/-- The token does not go on in what follows. -/
def EndsBefore : Token (List Char) → List Char → Prop
  | word _, rest | numeral _, rest => EndsHere rest
  | op _, rest | bang, rest => ∀ c ∈ rest.head?, c ≠ '=' ∧ c ≠ '>'
  | _, _ => True

end Token

theorem Text.exists_of_isWord {s : String} (hs : Text.isWord s = true) :
    (∀ c ∈ s.toList, Text.isWordChar c = true) ∧
      ∃ c cs, s.toList = c :: cs ∧ c.isDigit = false := by
  obtain ⟨hall, hhead⟩ := Bool.and_eq_true_iff.mp hs
  refine ⟨List.all_eq_true.mp hall, ?_⟩
  cases hcs : s.toList with
  | nil => simp [hcs] at hhead
  | cons c cs => exact ⟨c, cs, rfl, by simpa [hcs] using hhead⟩

namespace Scan

variable {rest : List Char}

theorem token_word {s : String} (hs : Text.isWord s = true) (hrest : EndsHere rest) :
    token (s.toList ++ rest) = some (.word s, rest) := by
  obtain ⟨hall, c, cs, hcs, hc⟩ := Text.exists_of_isWord hs
  have htake : (s.toList ++ rest).takeWhile Text.isWordChar = s.toList := by
    rw [List.takeWhile_append_of_pos hall]
    cases rest with
    | nil => simp
    | cons d rest => simp [hrest.notWordChar d rfl]
  have hdrop : (s.toList ++ rest).dropWhile Text.isWordChar = rest := by
    rw [List.dropWhile_append_of_pos hall]
    cases rest with
    | nil => rfl
    | cons d rest => simp [hrest.notWordChar d rfl]
  have hword : Text.isWordChar c = true := hall c (hcs ▸ List.mem_cons_self)
  rw [hcs, List.cons_append] at htake hdrop ⊢
  rw [token, if_neg (by simp [hc]), if_pos hword, htake, hdrop, ← hcs, String.ofList_toList]

theorem token_numeral {n : List Char} (hn : IsNumber n) (hrest : EndsHere rest) :
    token (n ++ rest) = some (.numeral n, rest) := by
  have hread := numeral_append hn hrest
  obtain ⟨whole, fr, ex, w, heq, hne, hwhole, -⟩ := hn
  obtain ⟨d, digits, rfl⟩ := List.exists_cons_of_ne_nil hne
  have hcons : n ++ rest = d :: (digits ++ (fr ++ (ex ++ w)) ++ rest) := by rw [heq]; rfl
  rw [hcons] at hread ⊢
  rw [token, if_pos (hwhole d List.mem_cons_self), hread]

theorem token_op (o : BinaryOp) (hrest : ∀ c ∈ rest.head?, c ≠ '=' ∧ c ≠ '>') :
    token (o.symbol.toList ++ rest) = some (.op o, rest) := by
  have hequals : ∀ c ∈ rest.head?, c ≠ '=' := fun c hc => (hrest c hc).1
  have hgreater : ∀ c ∈ rest.head?, c ≠ '>' := fun c hc => (hrest c hc).2
  cases o with
  | lessThan => exact congrArg some (longest_short _ _ hequals)
  | greaterThan => exact congrArg some (longest_short _ _ hequals)
  | subtract => exact congrArg some (longest_short _ _ hgreater)
  | andAlso | orElse | lessThanOrEqual | greaterThanOrEqual | equal | notEqual | add | multiply
  | divide | modulo => rfl

/-- **Tokens are read to their end.** -/
theorem token_append {t : Token (List Char)} (ht : t.IsProper) (hrest : t.EndsBefore rest) :
    token (t.chars ++ rest) = some (t, rest) := by
  cases t with
  | word s => exact token_word ht hrest
  | numeral n => exact token_numeral ht hrest
  | quoted s =>
      have htext : (Token.quoted s).chars ++ rest =
          '"' :: (s.toList.flatMap Text.escape ++ '"' :: rest) := by
        simp [Token.chars]
      rw [htext, Scan.token, if_neg (by decide), if_neg (by decide), if_pos rfl, quoted_append,
        Option.map_some]
      simp only [String.ofList_toList]
  | index n =>
      have htext : (Token.index n).chars ++ rest = '[' :: (decimalDigits n ++ ']' :: rest) := by
        simp [Token.chars]
      rw [htext, Scan.token, if_neg (by decide), if_neg (by decide), if_neg (by decide), if_pos rfl,
        index_append]
  | op o => exact token_op o hrest
  | bang => exact congrArg some (longest_short _ _ fun c hc => (hrest c hc).1)
  | brackets | opening | closing | dot | comma | question | colon | arrow | space => rfl

end Scan

namespace Token

/-- Proper tokens none of which goes on in the next. -/
def Apart : List (Token (List Char)) → Prop
  | [] => True
  | t :: ts => t.IsProper ∧ t.EndsBefore (ts.flatMap chars) ∧ Apart ts

/-- **The text tells the tokens.** -/
theorem eq_of_flatMap_chars_eq {ts ts' : List (Token (List Char))} (hts : Apart ts)
    (hts' : Apart ts') (htext : ts.flatMap chars = ts'.flatMap chars) : ts = ts' := by
  induction ts generalizing ts' with
  | nil =>
      cases ts' with
      | nil => rfl
      | cons t' ts' =>
          have hread' := Scan.token_append hts'.1 hts'.2.1
          rw [← List.flatMap_cons, ← htext] at hread'
          cases hread'
  | cons t ts ih =>
      have hread := Scan.token_append hts.1 hts.2.1
      cases ts' with
      | nil =>
          rw [← List.flatMap_cons, htext] at hread
          cases hread
      | cons t' ts' =>
          have hread' := Scan.token_append hts'.1 hts'.2.1
          rw [← List.flatMap_cons] at hread hread'
          rw [htext, hread'] at hread
          obtain ⟨rfl, hrest⟩ := Prod.mk.inj (Option.some.inj hread)
          rw [ih hts.2.2 hts'.2.2 hrest.symm]

end Token

end RowCode
