import RowCode.Proofs.CodeNumbers
import RowCode.Proofs.CodeWriting

/-!
# Seams between tokens

None of the tokens of an expression goes on in the next, whatever the expression is an operand of.
Expressions with the same text therefore have the same tokens.
-/

namespace RowCode

namespace Token

/-- Tokens none of which goes on in the next, with numbers that are written. -/
structure Joined (ts : List (Token Numeral)) : Prop where
  apart : Apart (ts.map (map Numeral.chars))
  occurs : ∀ n, .numeral n ∈ ts → n.Occurs

theorem written_eq (ts : List (Token Numeral)) :
    written ts = (ts.map (map Numeral.chars)).flatMap chars := (List.flatMap_map ..).symm

/-- The number that is written like this. -/
noncomputable def readNumeral : List Char → Numeral :=
  Function.invFunOn Numeral.chars {n | n.Occurs}

theorem readNumeral_chars {n : Numeral} (hn : n.Occurs) : readNumeral n.chars = n :=
  have hinj : Set.InjOn Numeral.chars {n | n.Occurs} := fun _ h _ h' => Numeral.eq_of_chars_eq h h'
  hinj.leftInvOn_invFunOn hn

theorem Joined.map_readNumeral {ts : List (Token Numeral)} (h : Joined ts) :
    (ts.map (map Numeral.chars)).map (map readNumeral) = ts := by
  rw [List.map_map]
  refine (List.map_congr_left fun t ht => ?_).trans (List.map_id ts)
  cases t with
  | numeral n => exact congrArg numeral (readNumeral_chars (h.occurs n ht))
  | word _ | quoted _ | index _ | op _ | brackets | opening | closing | dot | comma | question
  | colon | arrow | bang | space => rfl

theorem Joined.eq_of_written_eq {ts ts' : List (Token Numeral)} (h : Joined ts) (h' : Joined ts')
    (htext : written ts = written ts') : ts = ts' := by
  rw [written_eq, written_eq] at htext
  rw [← h.map_readNumeral, eq_of_flatMap_chars_eq h.apart h'.apart htext, h'.map_readNumeral]

/-- Whether the token is told from whatever follows it. -/
def isSymbol : Token Numeral → Bool
  | word _ | numeral _ | op _ | bang => false
  | _ => true

variable {t : Token Numeral} {ts us rest : List (Token Numeral)}

theorem Joined.cons (h : Joined ts) (hproper : (t.map Numeral.chars).IsProper)
    (hends : (t.map Numeral.chars).EndsBefore (written ts))
    (hoccurs : ∀ n, t = .numeral n → n.Occurs) :
    Joined (t :: ts) where
  apart := ⟨hproper, written_eq ts ▸ hends, h.apart⟩
  occurs n hn := by
    rcases List.mem_cons.mp hn with heq | hn
    · exact hoccurs n heq.symm
    · exact h.occurs n hn

theorem Joined.symbol (h : Joined ts) (ht : t.isSymbol = true) : Joined (t :: ts) := by
  cases t with
  | word _ | numeral _ | op _ | bang => cases ht
  | quoted _ | index _ | brackets | opening | closing | dot | comma | question | colon | arrow
  | space => exact h.cons trivial trivial (by simp)

theorem Joined.op (h : Joined ts) (o : BinaryOp)
    (hhead : ∀ c ∈ (written ts).head?, c ≠ '=' ∧ c ≠ '>') : Joined (.op o :: ts) :=
  h.cons trivial hhead (by simp)

theorem Joined.bang (h : Joined ts) (hhead : ∀ c ∈ (written ts).head?, c ≠ '=' ∧ c ≠ '>') :
    Joined (.bang :: ts) :=
  h.cons trivial hhead (by simp)

theorem Joined.word {s : String} (h : Joined ts) (hs : Text.isWord s = true)
    (hends : EndsHere (written ts)) : Joined (.word s :: ts) :=
  h.cons hs hends (by simp)

theorem Joined.numeral {n : Numeral} (h : Joined ts) (hn : n.Occurs)
    (hends : EndsHere (written ts)) : Joined (.numeral n :: ts) := by
  refine h.cons n.isNumber_chars hends fun n' heq => ?_
  obtain rfl := numeral.inj heq
  exact hn

theorem endsHere_cons {c : Char} (cs : List Char) (hword : Text.isWordChar c = false)
    (hpoint : c ≠ '.') : EndsHere (c :: cs) where
  notWordChar d hd := by
    obtain rfl : c = d := by simpa using hd
    exact hword
  noFraction d ds heq := absurd (List.cons.inj heq).1 hpoint

theorem endsHere_symbol (ts : List (Token Numeral)) (ht : t.isSymbol = true) (hdot : t ≠ .dot) :
    EndsHere (written (t :: ts)) := by
  cases t with
  | word _ | numeral _ | op _ | bang => cases ht
  | dot => exact absurd rfl hdot
  | quoted _ | index _ | brackets | opening | closing | comma | question | colon | arrow | space =>
      exact endsHere_cons _ (by decide) (by decide)

/-- A point before a word does not go on in it. -/
theorem endsHere_dot {s : String} (ts : List (Token Numeral)) (hs : Text.isWord s = true) :
    EndsHere (written (.dot :: .word s :: ts)) where
  notWordChar c hc := by
    obtain rfl : '.' = c := by simpa [map, chars] using hc
    decide
  noFraction c cs heq := by
    obtain ⟨-, d, ds, hds, hd⟩ := Text.exists_of_isWord hs
    have hc : d = c := by
      have htail := (List.cons.inj heq).2
      simp [map, chars, hds] at htail
      exact htail.1
    rwa [← hc]

/-- Operands: no operator goes on in the tokens, and they are told apart from a text that does not
go on in a word. -/
structure Fits (ts : List (Token Numeral)) : Prop where
  joined : ∀ rest, Joined rest → EndsHere (written rest) → Joined (ts ++ rest)
  head : ∀ rest, ∀ c ∈ (written (ts ++ rest)).head?, c ≠ '=' ∧ c ≠ '>'

/-- What may follow an operand. -/
structure Follows (us : List (Token Numeral)) : Prop where
  joined : ∀ rest, Joined rest → EndsHere (written rest) → Joined (us ++ rest)
  ends : ∀ rest, EndsHere (written (us ++ rest))

theorem Fits.append (h : Fits ts) (hus : Follows us) : Fits (ts ++ us) where
  joined rest hrest hends := by
    rw [List.append_assoc]
    exact h.joined _ (hus.joined rest hrest hends) (hus.ends rest)
  head rest := by
    rw [List.append_assoc]
    exact h.head _

theorem Follows.symbol (ht : t.isSymbol = true) (hdot : t ≠ .dot)
    (h : ∀ rest, Joined rest → EndsHere (written rest) → Joined (us ++ rest)) :
    Follows (t :: us) where
  joined rest hrest hends := (h rest hrest hends).symbol ht
  ends rest := endsHere_symbol (us ++ rest) ht hdot

theorem ne_of_isWordChar {c : Char} (hc : Text.isWordChar c = true) : c ≠ '=' ∧ c ≠ '>' := by
  constructor
  · rintro rfl
    exact absurd hc (by decide)
  · rintro rfl
    exact absurd hc (by decide)

theorem fits_word {s : String} (hs : Text.isWord s = true) : Fits [.word s] where
  joined rest hrest hends := hrest.word hs hends
  head rest c hc := by
    obtain ⟨hall, d, ds, hds, -⟩ := Text.exists_of_isWord hs
    obtain rfl : d = c := by simpa [map, chars, hds] using hc
    exact ne_of_isWordChar (hall d (hds ▸ List.mem_cons_self))

theorem fits_numeral {n : Numeral} (hn : n.Occurs) : Fits [.numeral n] where
  joined rest hrest hends := hrest.numeral hn hends
  head rest c hc := by
    obtain ⟨whole, fr, ex, w, heq, hne, hwhole, -⟩ := n.isNumber_chars
    obtain ⟨d, digits, rfl⟩ := List.exists_cons_of_ne_nil hne
    obtain rfl : d = c := by simpa [map, chars, heq] using hc
    exact ne_of_isWordChar (Scan.isWordChar_of_isDigit (hwhole d List.mem_cons_self))

theorem fits_symbol (ht : t.isSymbol = true)
    (h : ∀ rest, Joined rest → EndsHere (written rest) → Joined (ts ++ rest)) : Fits (t :: ts) where
  joined rest hrest hends := (h rest hrest hends).symbol ht
  head rest := by
    cases t with
    | word _ | numeral _ | op _ | bang => cases ht
    | quoted _ | index _ | brackets | opening | closing | comma | question | colon | arrow | space
    | dot => simp [map, chars]

theorem Fits.signed (h : Fits ts) (negative : Bool) : Fits (signed negative ts) := by
  cases negative with
  | false => exact h
  | true =>
      refine ⟨fun rest hrest hends => (h.joined rest hrest hends).op .subtract (h.head rest), ?_⟩
      intro rest
      simp [Token.signed, map, chars, BinaryOp.symbol]

theorem Fits.guarded (h : Fits ts) (needed : Bool) : Fits (guarded needed ts) := by
  cases needed with
  | false => exact h
  | true =>
      refine fits_symbol rfl fun rest hrest hends => ?_
      rw [List.append_assoc]
      exact h.joined _ (hrest.symbol rfl) (endsHere_symbol rest rfl (by simp))

theorem fits_ofType (ty : HostType) : Fits (ofType ty) := by
  induction ty with
  | array component ih =>
      exact ih.append (Follows.symbol rfl (by simp) fun rest hrest _ => hrest)
  | primitive p => exact fits_word (by cases p <;> decide)
  | boxed p => exact fits_word (by cases p <;> decide)
  | string | decimal | bigInteger | object => exact fits_word (by decide)

theorem Fits.casting (h : Fits ts) (ty : HostType) : Fits (casting ty ts) := by
  refine fits_symbol rfl fun rest hrest hends => ?_
  have hoperand : Joined (.closing :: .space :: (ts ++ rest)) :=
    ((h.joined rest hrest hends).symbol rfl).symbol rfl
  rw [List.append_assoc]
  exact (fits_ofType ty).joined _ hoperand (endsHere_symbol _ rfl (by simp))

theorem joined_intercalate {items : List (List (Token Numeral))} (h : ∀ ts ∈ items, Fits ts)
    (hrest : Joined rest) (hends : EndsHere (written rest)) :
    Joined ([.comma, .space].intercalate items ++ rest) := by
  induction items with
  | nil => exact hrest
  | cons ts items ih =>
      obtain ⟨hts, hitems⟩ := List.forall_mem_cons.mp h
      cases items with
      | nil =>
          rw [List.intercalate_singleton]
          exact hts.joined rest hrest hends
      | cons ts' items =>
          rw [List.intercalate_cons_cons, List.append_assoc, List.append_assoc]
          exact hts.joined _ (((ih hitems).symbol rfl).symbol rfl) (endsHere_symbol _ rfl (by simp))

theorem joined_items {items : List (List (Token Numeral))} (h : ∀ ts ∈ items, Fits ts)
    (hrest : Joined rest) : Joined ([.comma, .space].intercalate items ++ [.closing] ++ rest) := by
  rw [List.append_assoc]
  exact joined_intercalate h (hrest.symbol rfl) (endsHere_symbol rest rfl (by simp))

theorem follows_listed {items : List (List (Token Numeral))} (h : ∀ ts ∈ items, Fits ts) :
    Follows (listed items) :=
  Follows.symbol rfl (by simp) fun _ hrest _ => joined_items h hrest

theorem fits_listed {items : List (List (Token Numeral))} (h : ∀ ts ∈ items, Fits ts) :
    Fits (listed items) :=
  fits_symbol rfl fun _ hrest _ => joined_items h hrest

/-- A call or an access of a field. -/
theorem follows_access {s : String} (hs : Text.isWord s = true) (hus : Follows us) :
    Follows (.dot :: .word s :: us) where
  joined rest hrest hends := ((hus.joined rest hrest hends).word hs (hus.ends rest)).symbol rfl
  ends rest := endsHere_dot (us ++ rest) hs

theorem follows_operand (h : Fits ts) : Follows (.space :: ts) :=
  Follows.symbol rfl (by simp) h.joined

/-- A symbol between two operands. -/
theorem follows_spaced (ht : t.isSymbol = true) (h : Fits ts) :
    Follows (.space :: t :: .space :: ts) :=
  Follows.symbol rfl (by simp) fun rest hrest hends =>
    (((h.joined rest hrest hends).symbol rfl).symbol ht)

theorem follows_operator (o : BinaryOp) (h : Fits ts) :
    Follows (.space :: .op o :: .space :: ts) :=
  Follows.symbol rfl (by simp) fun rest hrest hends =>
    ((h.joined rest hrest hends).symbol rfl).op o (by simp [map, chars])

theorem Fits.ofUnary (h : Fits ts) (o : UnaryOp) : Fits (ofUnary o :: ts) := by
  cases o with
  | negate => exact h.signed true
  | not =>
      refine ⟨fun rest hrest hends => (h.joined rest hrest hends).bang (h.head rest), ?_⟩
      intro rest
      simp [Token.ofUnary, map, chars]

theorem fits_plain {coefficient : Nat} {exponent : Int}
    (h : Decimal.Representable coefficient exponent) :
    Fits [.numeral (.plain coefficient exponent)] :=
  fits_numeral (n := .plain coefficient exponent) h

theorem fits_ofInteger {i : Int} (hlow : -2 ^ 31 ≤ i) (hhigh : i < 2 ^ 31) :
    Fits (ofInteger i) := by
  have hprecision : 2 ^ 31 < 10 ^ Decimal.precision := by decide
  exact (fits_plain ⟨by omega, by decide, by decide⟩).signed _

theorem fits_ofFloat {owner : String} {numeral : Nat → Int → Numeral} (negative : Bool)
    {magnitude : Magnitude} (howner : Text.isWord owner = true)
    (hnumeral : ∀ significand exponent, magnitude = .finite significand exponent →
      (numeral significand exponent).Occurs) :
    Fits (ofFloat owner numeral negative magnitude) := by
  have hfield : ∀ {name}, Text.isWord name = true → Fits [.word owner, .dot, .word name] := by
    intro name hname
    have haccess : Follows [.dot, .word name] :=
      ⟨fun rest hrest hends => (hrest.word hname hends).symbol rfl,
        fun rest => endsHere_dot rest hname⟩
    exact (fits_word howner).append haccess
  cases magnitude with
  | finite significand exponent => exact (fits_numeral (hnumeral _ _ rfl)).signed negative
  | infinite => exact hfield (by cases negative <;> decide)
  | nan => exact hfield (by decide)

theorem isWord_decimalName (signaling : Bool) (payload : Nat) :
    Text.isWord (Code.decimalName signaling payload) = true := by
  have hdigits : ∀ c ∈ Decimal.payloadDigits payload, Text.isWordChar c = true :=
    fun c hc => Scan.isWordChar_of_isDigit (Decimal.isDigit_of_mem_payloadDigits hc)
  have hall : (Decimal.payloadDigits payload).all Text.isWordChar = true :=
    List.all_eq_true.mpr hdigits
  change Text.isWord (String.ofList (_ ++ _ ++ Decimal.payloadDigits payload)) = true
  unfold Text.isWord
  rw [String.toList_ofList, Bool.and_eq_true_iff, List.all_append, hall]
  cases signaling with
  | true => exact ⟨rfl, rfl⟩
  | false => exact ⟨rfl, rfl⟩

theorem fits_ofDecimal (d : Decimal) : Fits (ofDecimal d) := by
  cases d with
  | finite negative coefficient exponent h => exact (fits_plain h).signed negative
  | infinite negative => exact (fits_word (by decide)).signed negative
  | nan negative signaling payload _ =>
      exact (fits_word (isWord_decimalName signaling payload)).signed negative

theorem fits_ofConstant (value : Value) (ty : HostType) : Fits (ofConstant value ty) := by
  have hnull : Fits [.word "null"] := fits_word (by decide)
  cases value with
  | null =>
      unfold ofConstant
      simp only
      split
      · exact hnull
      · exact hnull.casting ty
  | boolean b => exact fits_word (by cases b <;> decide)
  | int8 n =>
      have hlow := n.le_toInt
      have hhigh := n.toInt_lt
      exact (fits_ofInteger (by omega) (by omega)).casting (.primitive .byte)
  | int16 n =>
      have hlow := n.le_toInt
      have hhigh := n.toInt_lt
      exact (fits_ofInteger (by omega) (by omega)).casting (.primitive .short)
  | int32 n => exact fits_ofInteger n.le_toInt n.toInt_lt
  | int64 n => exact (fits_numeral (n := .long _) trivial).signed _
  | float x => exact fits_ofFloat x.negative (by decide) fun _ _ h => ⟨x, h⟩
  | double x => exact fits_ofFloat x.negative (by decide) fun _ _ h => ⟨x, h⟩
  | decimal d => exact fits_ofDecimal d
  | string s => exact fits_symbol rfl fun rest hrest _ => hrest

theorem fits_ofParameters {ps : List Variable} (h : ∀ p ∈ ps, Text.isWord p.name = true) :
    Fits (ofParameters ps) := by
  have hlisted : Fits (listed (ps.map fun p => [.word p.name])) :=
    fits_listed (List.forall_mem_map.mpr fun p hp => fits_word (h p hp))
  cases ps with
  | nil => exact hlisted
  | cons p ps =>
      cases ps with
      | nil => exact fits_word (h p List.mem_cons_self)
      | cons q ps => exact hlisted

end Token

namespace Expr

open Token

mutual

theorem fits_tokens : (e : Expr) → (∀ name ∈ e.names, Text.isWord name = true) → Fits e.tokens
  | constant value ty, _ => by
      rw [tokens]
      exact fits_ofConstant value ty
  | var v, h => by
      rw [tokens]
      exact fits_word (h v.name (by simp [names]))
  | call target method args _, h => by
      rw [names, List.forall_mem_append, List.forall_mem_cons] at h
      obtain ⟨htarget, hmethod, hargs⟩ := h
      rw [tokens]
      exact ((fits_tokens target htarget).guarded _).append
        (follows_access hmethod (follows_listed (fits_tokensOfAll args hargs)))
  | staticCall owner method args _, h => by
      rw [names, List.forall_mem_cons, List.forall_mem_cons] at h
      obtain ⟨howner, hmethod, hargs⟩ := h
      rw [tokens]
      exact (fits_word howner).append
        (follows_access hmethod (follows_listed (fits_tokensOfAll args hargs)))
  | construct ty args, h => by
      rw [names] at h
      have hnew : Fits [.word "new"] := fits_word (by decide)
      rw [tokens]
      exact hnew.append (follows_operand
        ((fits_ofType ty).append (follows_listed (fits_tokensOfAll args h))))
  | binary o left right _, h => by
      rw [names, List.forall_mem_append] at h
      rw [tokens]
      exact ((fits_tokens left h.1).guarded _).append
        (follows_operator o ((fits_tokens right h.2).guarded _))
  | unary o operand _, h => by
      rw [names] at h
      rw [tokens]
      exact ((fits_tokens operand h).guarded _).ofUnary o
  | conditional test ifTrue ifFalse _, h => by
      rw [names, List.forall_mem_append, List.forall_mem_append] at h
      obtain ⟨⟨htest, hifTrue⟩, hifFalse⟩ := h
      rw [tokens]
      exact ((fits_tokens test htest).guarded _).append (follows_spaced rfl
        (((fits_tokens ifTrue hifTrue).guarded _).append (follows_spaced rfl
          ((fits_tokens ifFalse hifFalse).guarded _))))
  | cast operand ty, h => by
      rw [names] at h
      rw [tokens]
      exact ((fits_tokens operand h).guarded _).casting ty
  | element array i _, h => by
      rw [names] at h
      rw [tokens]
      exact ((fits_tokens array h).guarded _).append
        (Follows.symbol rfl (by simp) fun _ hrest _ => hrest)
  | lambda parameters body, h => by
      rw [names, List.forall_mem_append, List.forall_mem_map] at h
      rw [tokens]
      exact (fits_ofParameters h.1).append (follows_spaced rfl (fits_tokens body h.2))

theorem fits_tokensOfAll : (es : List Expr) → (∀ name ∈ namesOfAll es, Text.isWord name = true) →
    ∀ ts ∈ tokensOfAll es, Fits ts
  | [], _ => by simp [tokensOfAll]
  | e :: rest, h => by
      rw [namesOfAll, List.forall_mem_append] at h
      rw [tokensOfAll, List.forall_mem_cons]
      exact ⟨fits_tokens e h.1, fits_tokensOfAll rest h.2⟩

end

theorem text_eq_of_tokens_eq {e e' : Expr} (h : e.tokens = e'.tokens) : e.text = e'.text := by
  rw [← String.toList_inj, toList_text, toList_text, h]

/-- **The text tells the tokens.** -/
theorem tokens_eq_of_text_eq {e e' : Expr} (hnames : ∀ name ∈ e.names, Text.isWord name = true)
    (hnames' : ∀ name ∈ e'.names, Text.isWord name = true) (htext : e.text = e'.text) :
    e.tokens = e'.tokens := by
  have hends : EndsHere (written []) := ⟨by simp, by simp⟩
  have hjoined := (fits_tokens e hnames).joined [] ⟨trivial, by simp⟩ hends
  have hjoined' := (fits_tokens e' hnames').joined [] ⟨trivial, by simp⟩ hends
  rw [List.append_nil] at hjoined hjoined'
  refine hjoined.eq_of_written_eq hjoined' ?_
  rw [← toList_text, htext, toList_text]

end Expr

end RowCode
