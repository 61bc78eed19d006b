import RowCode.Proofs.CodeTokens
import RowCode.Proofs.JsonNumbers

/-!
# The tokens of an expression

The text of an expression is made up of tokens, which are found by the recursion that makes the
text.
-/

namespace RowCode

namespace Token

def signed (negative : Bool) (ts : List (Token Numeral)) : List (Token Numeral) :=
  if negative then .op .subtract :: ts else ts

def ofInteger (i : Int) : List (Token Numeral) := signed (i < 0) [.numeral (.plain i.natAbs 0)]

def ofType : HostType → List (Token Numeral)
  | .array component => ofType component ++ [.brackets]
  | ty => [.word ty.text]

def casting (ty : HostType) (ts : List (Token Numeral)) : List (Token Numeral) :=
  .opening :: (ofType ty ++ .closing :: .space :: ts)

def ofFloat (owner : String) (numeral : Nat → Int → Numeral) (negative : Bool) :
    Magnitude → List (Token Numeral)
  | .finite significand exponent => signed negative [.numeral (numeral significand exponent)]
  | .infinite =>
    [.word owner, .dot, .word (if negative then "NEGATIVE_INFINITY" else "POSITIVE_INFINITY")]
  | .nan => [.word owner, .dot, .word "NaN"]

def ofDecimal : Decimal → List (Token Numeral)
  | .finite negative coefficient exponent _ =>
    signed negative [.numeral (.plain coefficient exponent)]
  | .infinite negative => signed negative [.word "Infinity"]
  | .nan negative signaling payload _ =>
    signed negative [.word (Code.decimalName signaling payload)]

def ofConstant (value : Value) (ty : HostType) : List (Token Numeral) :=
  match value with
  | .null => if ty = .object then [.word "null"] else casting ty [.word "null"]
  | .boolean b => [.word (if b then "true" else "false")]
  | .int8 n => casting (.primitive .byte) (ofInteger n.toInt)
  | .int16 n => casting (.primitive .short) (ofInteger n.toInt)
  | .int32 n => ofInteger n.toInt
  | .int64 n => signed (n.toInt < 0) [.numeral (.long n.toInt.natAbs)]
  | .float x => ofFloat "Float" .single x.negative x.magnitude
  | .double x => ofFloat "Double" .double x.negative x.magnitude
  | .decimal d => ofDecimal d
  | .string s => [.quoted s]

def guarded (needed : Bool) (ts : List (Token Numeral)) : List (Token Numeral) :=
  if needed then .opening :: (ts ++ [.closing]) else ts

def listed (items : List (List (Token Numeral))) : List (Token Numeral) :=
  .opening :: ([.comma, .space].intercalate items ++ [.closing])

def ofParameters (ps : List Variable) : List (Token Numeral) :=
  match ps with
  | [p] => [.word p.name]
  | ps => listed (ps.map fun p => [.word p.name])

def ofUnary : UnaryOp → Token Numeral
  | .not => .bang
  | .negate => .op .subtract

end Token

namespace Expr

open Token

mutual

def tokens : Expr → List (Token Numeral)
  | constant value ty => ofConstant value ty
  | var v => [.word v.name]
  | call target method args _ =>
    guarded target.needsParens (tokens target) ++ .dot :: .word method :: listed (tokensOfAll args)
  | staticCall owner method args _ =>
    .word owner :: .dot :: .word method :: listed (tokensOfAll args)
  | construct ty args => .word "new" :: .space :: (ofType ty ++ listed (tokensOfAll args))
  | binary operator left right _ =>
    guarded left.needsParens (tokens left) ++
      .space :: .op operator :: .space :: guarded right.needsParens (tokens right)
  | unary operator operand _ =>
    ofUnary operator :: guarded operand.needsParens (tokens operand)
  | conditional test ifTrue ifFalse _ =>
    guarded test.needsParens (tokens test) ++
      .space :: .question :: .space :: (guarded ifTrue.needsParens (tokens ifTrue) ++
        .space :: .colon :: .space :: guarded ifFalse.needsParens (tokens ifFalse))
  | cast operand ty => casting ty (guarded operand.needsParens (tokens operand))
  | element array i _ => guarded array.needsParens (tokens array) ++ [.index i]
  | lambda parameters body => ofParameters parameters ++ .space :: .arrow :: .space :: tokens body

def tokensOfAll : List Expr → List (List (Token Numeral))
  | [] => []
  | e :: rest => tokens e :: tokensOfAll rest

end

/-- The tokens of the expression as an operand. -/
def operandTokens (e : Expr) : List (Token Numeral) := guarded e.needsParens e.tokens

end Expr

/-! ### Tokens make up the text -/

namespace Token

def written (ts : List (Token Numeral)) : List Char :=
  ts.flatMap fun t => (t.map Numeral.chars).chars

@[simp]
theorem written_nil : written [] = [] := rfl

@[simp]
theorem written_cons (t : Token Numeral) (ts : List (Token Numeral)) :
    written (t :: ts) = (t.map Numeral.chars).chars ++ written ts := rfl

@[simp]
theorem written_append (ts ts' : List (Token Numeral)) :
    written (ts ++ ts') = written ts ++ written ts' := List.flatMap_append

theorem toList_guarded (needed : Bool) {text : String} {ts : List (Token Numeral)}
    (h : text.toList = written ts) :
    (Text.guarded needed text).toList = written (guarded needed ts) := by
  cases needed with
  | true => simp [Text.guarded, guarded, map, chars, h]
  | false => exact h

theorem written_intercalate (separator : List (Token Numeral))
    (items : List (List (Token Numeral))) :
    written (separator.intercalate items) =
      (written separator).intercalate (items.map written) := by
  induction items with
  | nil => rfl
  | cons ts items ih =>
      cases items with
      | nil => simp
      | cons ts' items =>
          simp only [List.map_cons] at ih ⊢
          rw [List.intercalate_cons_cons, List.intercalate_cons_cons, written_append,
            written_append, ih]

theorem toList_listed {texts : List String} {items : List (List (Token Numeral))}
    (h : texts.map String.toList = items.map written) :
    ("(" ++ String.intercalate ", " texts ++ ")").toList = written (listed items) := by
  simp [listed, map, chars, String.toList_intercalate, written_intercalate, h]

theorem toList_ofType (ty : HostType) : ty.text.toList = written (ofType ty) := by
  induction ty with
  | array component ih => simp [HostType.text, ofType, map, chars, ih]
  | primitive p => simp [ofType, map, chars]
  | boxed p => simp [ofType, map, chars]
  | string => rfl
  | decimal => rfl
  | bigInteger => rfl
  | object => rfl

theorem toList_casting (ty : HostType) {text : String} {ts : List (Token Numeral)}
    (h : text.toList = written ts) :
    ("(" ++ ty.text ++ ") " ++ text).toList = written (casting ty ts) := by
  simp [casting, map, chars, toList_ofType, h]

theorem written_signed (negative : Bool) (ts : List (Token Numeral)) :
    written (signed negative ts) = Decimal.signText negative ++ written ts := by
  cases negative <;> rfl

theorem toList_toString_int (i : Int) (n : Numeral) (suffix : List Char)
    (hn : n.chars = decimalDigits i.natAbs ++ suffix) :
    (toString i).toList ++ suffix = written (signed (i < 0) [.numeral n]) := by
  rw [JsonNumber.toList_toString_int, written_signed]
  simp [JsonNumber.chars, JsonNumber.ofInteger, JsonNumber.fractionChars,
    JsonNumber.exponentChars, Decimal.signText, map, chars, hn]

/-- An integer has no point and no exponent. -/
theorem finiteText_zero (n : Nat) : Decimal.finiteText n 0 = decimalDigits n := by
  have hpositive : 0 < (decimalDigits n).length := List.length_pos_iff.mpr (decimalDigits_ne_nil n)
  unfold Decimal.finiteText
  simp only
  rw [Int.add_zero, if_pos (by omega), placePoint, if_neg (by omega), if_pos (by omega),
    Int.toNat_natCast, Nat.sub_self, List.replicate_zero, List.append_nil]

theorem toList_ofInteger (i : Int) : (toString i).toList = written (ofInteger i) := by
  rw [ofInteger, ← toList_toString_int i _ [], List.append_nil]
  rw [Numeral.chars, finiteText_zero, List.append_nil]

theorem toList_ofFloat (f : BinaryFormat) (owner suffix : String)
    (numeral : Nat → Int → Numeral) (negative : Bool) (magnitude : Magnitude)
    (hnumeral : ∀ significand exponent, (numeral significand exponent).chars =
      f.positionalText significand exponent ++ suffix.toList) :
    ((Text.special owner negative magnitude).getD
      (String.ofList (f.displayText negative magnitude) ++ suffix)).toList =
      written (ofFloat owner numeral negative magnitude) := by
  cases magnitude with
  | finite significand exponent =>
      simp [Text.special, BinaryFormat.displayText, ofFloat, written_signed, Decimal.signText, map,
        chars, hnumeral]
  | infinite => cases negative <;> simp [Text.special, ofFloat, map, chars]
  | nan => simp [Text.special, ofFloat, map, chars]

theorem toList_ofDecimal (d : Decimal) : d.text.toList = written (ofDecimal d) := by
  rw [Decimal.text, String.toList_ofList]
  cases d with
  | finite negative coefficient exponent _ =>
      simp [Decimal.chars, ofDecimal, written_signed, map, chars, Numeral.chars]
  | infinite negative => simp [Decimal.chars, ofDecimal, written_signed, map, chars]
  | nan negative signaling payload _ =>
      simp [Decimal.chars, ofDecimal, written_signed, map, chars, Code.decimalName]

theorem toList_ofConstant (value : Value) (ty : HostType) :
    (Text.constant value ty).toList = written (ofConstant value ty) := by
  cases value with
  | null =>
      unfold Text.constant ofConstant
      simp only
      split
      · rfl
      · have hnull : "null".toList = written [.word "null"] := rfl
        rw [← toList_casting ty hnull]
        simp
  | boolean b => cases b <;> simp [Text.constant, Value.canonicalText, ofConstant, map, chars]
  | int8 n => exact toList_casting (.primitive .byte) (toList_ofInteger n.toInt)
  | int16 n => exact toList_casting (.primitive .short) (toList_ofInteger n.toInt)
  | int32 n => exact toList_ofInteger n.toInt
  | int64 n =>
      rw [Text.constant, String.toList_append]
      exact toList_toString_int n.toInt (.long n.toInt.natAbs) ['L'] rfl
  | float x => exact toList_ofFloat Single.format "Float" "F" .single _ _ fun _ _ => rfl
  | double x => exact toList_ofFloat Double.format "Double" "D" .double _ _ fun _ _ => rfl
  | decimal d => exact toList_ofDecimal d
  | string s => simp [Text.constant, Text.literal, ofConstant, map, chars]

theorem toList_ofParameters (ps : List Variable) :
    (Text.parameters ps).toList = written (ofParameters ps) := by
  have hlisted : ("(" ++ String.intercalate ", " (ps.map Variable.name) ++ ")").toList =
      written (listed (ps.map fun p => [.word p.name])) := by
    refine toList_listed ?_
    rw [List.map_map, List.map_map]
    refine List.map_congr_left fun p _ => ?_
    simp [map, chars]
  cases ps with
  | nil => exact hlisted
  | cons p ps =>
      cases ps with
      | nil => simp [Text.parameters, ofParameters, map, chars]
      | cons q ps => exact hlisted

end Token

namespace Expr

open Token

mutual

theorem toList_text : (e : Expr) → e.text.toList = written e.tokens
  | constant value ty => by rw [text, tokens, toList_ofConstant]
  | var v => by simp [text, tokens, map, chars]
  | call target method args _ => by
      simp [text, argumentList, tokens, map, chars, toList_guarded _ (toList_text target),
        ← toList_listed (toList_texts args)]
  | staticCall owner method args _ => by
      simp [text, argumentList, tokens, map, chars, ← toList_listed (toList_texts args)]
  | construct ty args => by
      simp [text, argumentList, tokens, map, chars, toList_ofType,
        ← toList_listed (toList_texts args)]
  | binary o left right _ => by
      simp [text, tokens, map, chars, toList_guarded _ (toList_text left),
        toList_guarded _ (toList_text right)]
  | unary o operand _ => by
      cases o <;> simp [text, tokens, ofUnary, UnaryOp.symbol, BinaryOp.symbol, map, chars,
        toList_guarded _ (toList_text operand)]
  | conditional test ifTrue ifFalse _ => by
      simp [text, tokens, map, chars, toList_guarded _ (toList_text test),
        toList_guarded _ (toList_text ifTrue), toList_guarded _ (toList_text ifFalse)]
  | cast operand ty => by
      rw [text, toList_casting ty (toList_guarded _ (toList_text operand)), tokens]
  | element array i _ => by
      simp [text, tokens, map, chars, toList_guarded _ (toList_text array), decimalDigits]
  | lambda parameters body => by
      simp [text, tokens, map, chars, toList_text body, toList_ofParameters]

theorem toList_texts : (es : List Expr) → (texts es).map String.toList =
    (tokensOfAll es).map written
  | [] => by rw [texts, tokensOfAll, List.map_nil, List.map_nil]
  | e :: rest => by
      rw [texts, tokensOfAll, List.map_cons, List.map_cons, toList_text e, toList_texts rest]

end

end Expr

end RowCode
