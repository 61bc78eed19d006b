import Mathlib.Algebra.Group.Nat.Defs
import RowCode.File.JsonWriter
import RowCode.Proofs.JsonTokens
import RowCode.Proofs.Numerals

/-!
# Numbers are read back

A number whose digits follow the grammar is read back digit by digit, whatever follows it, unless
that would continue it. Integers that fit are read back as they are.
-/

namespace RowCode

theorem ascii_of_isDigit {c : Char} (hc : c.isDigit = true) :
    c.toNat < 128 ∧ JsonNumber.isDigit c.toUInt8 = true ∧ Char.ofUInt8 c.toUInt8 = c := by
  obtain ⟨hlow, hhigh⟩ := Char.isDigit_iff_toNat.mp hc
  have hascii : c.toNat < 128 := Nat.lt_of_le_of_lt hhigh (by decide)
  have hbyte := toNat_toUInt8 hascii
  refine ⟨hascii, ?_, ?_⟩
  · simp only [JsonNumber.isDigit, Bool.and_eq_true, decide_eq_true_eq, UInt8.le_iff_toNat_le, hbyte]
    exact ⟨hlow, hhigh⟩
  · apply Char.toNat_inj.mp
    rw [← hbyte]
    rfl

theorem head_decimalDigits {n : Nat} (hn : 0 < n) :
    ∃ d rest, decimalDigits n = d :: rest ∧ d ≠ '0' := by
  induction n using Nat.strongRecOn with
  | ind n ih =>
      unfold decimalDigits
      rw [Nat.toDigits_eq_if (by decide)]
      split
      · have hdigit : ∀ m < 10, 0 < m → Nat.digitChar m ≠ '0' := by decide
        exact ⟨_, [], rfl, hdigit n ‹_› hn⟩
      · obtain ⟨d, rest, hdigits, hd⟩ := ih (n / 10) (by omega) (by omega)
        unfold decimalDigits at hdigits
        rw [hdigits]
        exact ⟨d, _, rfl, hd⟩

namespace JsonNumber

def fractionChars : Option (List Char) → List Char
  | none => []
  | some digits => '.' :: digits

def exponentChars : Option (Bool × List Char) → List Char
  | none => []
  | some (negative, digits) => 'e' :: (if negative then '-' else '+') :: digits

/-- The text of a number, with the sign of its exponent always written. -/
def chars (n : JsonNumber) : List Char :=
  (if n.negative then ['-'] else []) ++
    (n.whole ++ (fractionChars n.fraction ++ exponentChars n.exponent))

/-- Digits where the grammar asks for them, and no zero in front of others. -/
structure WellFormed (n : JsonNumber) : Prop where
  whole : ∀ c ∈ n.whole, c.isDigit = true
  leading : n.whole = ['0'] ∨ ∃ d rest, n.whole = d :: rest ∧ d ≠ '0'
  fraction : ∀ digits ∈ n.fraction, digits ≠ [] ∧ ∀ c ∈ digits, c.isDigit = true
  exponent : ∀ e ∈ n.exponent, e.2 ≠ [] ∧ ∀ c ∈ e.2, c.isDigit = true

theorem WellFormed.whole_ne_nil {n : JsonNumber} (hn : n.WellFormed) : n.whole ≠ [] := by
  rcases hn.leading with hzero | ⟨d, rest, hdigits, -⟩
  · simp [hzero]
  · simp [hdigits]

/-- Whether the bytes do not continue a number. -/
def Stops (rest : List UInt8) : Prop :=
  ∀ b ∈ rest.head?, isDigit b = false ∧ b ≠ '.'.toUInt8 ∧ b ≠ 'e'.toUInt8 ∧ b ≠ 'E'.toUInt8

theorem splitDigits_append {digits : List Char} {rest : List UInt8}
    (hdigits : ∀ c ∈ digits, c.isDigit = true) (hrest : ∀ b ∈ rest.head?, isDigit b = false) :
    splitDigits (utf8Bytes digits ++ rest) = (digits, rest) := by
  induction digits with
  | nil =>
      cases rest with
      | nil => rfl
      | cons b rest => simp [utf8Bytes, splitDigits, hrest b rfl]
  | cons c digits ih =>
      obtain ⟨hc, hdigits⟩ := List.forall_mem_cons.mp hdigits
      obtain ⟨hascii, hdigit, hback⟩ := ascii_of_isDigit hc
      rw [utf8Bytes_cons_ascii hascii, List.cons_append, splitDigits, if_pos hdigit, ih hdigits]
      simp only [hback]

theorem readWhole?_append {whole : List Char} {rest : List UInt8}
    (hwhole : ∀ c ∈ whole, c.isDigit = true)
    (hleading : whole = ['0'] ∨ ∃ d rest, whole = d :: rest ∧ d ≠ '0')
    (hrest : ∀ b ∈ rest.head?, isDigit b = false) :
    readWhole? (utf8Bytes whole ++ rest) = some (whole, rest) := by
  unfold readWhole?
  rw [splitDigits_append hwhole hrest]
  rcases hleading with rfl | ⟨d, tail, rfl, hd⟩
  · rfl
  · simp only
    split <;> simp_all

theorem readFraction?_append {fraction : Option (List Char)} {rest : List UInt8}
    (hfraction : ∀ digits ∈ fraction, digits ≠ [] ∧ ∀ c ∈ digits, c.isDigit = true)
    (hrest : ∀ b ∈ rest.head?, isDigit b = false ∧ b ≠ '.'.toUInt8) :
    readFraction? (utf8Bytes (fractionChars fraction) ++ rest) = some (fraction, rest) := by
  cases fraction with
  | none =>
      cases rest with
      | nil => rfl
      | cons b rest => simp [fractionChars, utf8Bytes, readFraction?, (hrest b rfl).2]
  | some digits =>
      obtain ⟨hne, hdigits⟩ := hfraction digits rfl
      rw [fractionChars, utf8Bytes_cons_ascii (by decide), List.cons_append, readFraction?,
        if_pos rfl, splitDigits_append hdigits fun b hb => (hrest b hb).1]
      simp [hne]

theorem readExponent?_append {exponent : Option (Bool × List Char)} {rest : List UInt8}
    (hexponent : ∀ e ∈ exponent, e.2 ≠ [] ∧ ∀ c ∈ e.2, c.isDigit = true) (hrest : Stops rest) :
    readExponent? (utf8Bytes (exponentChars exponent) ++ rest) = some (exponent, rest) := by
  cases exponent with
  | none =>
      cases rest with
      | nil => rfl
      | cons b rest =>
          obtain ⟨-, -, he, hE⟩ := hrest b rfl
          simp [exponentChars, utf8Bytes, readExponent?, he, hE]
  | some e =>
      obtain ⟨negative, digits⟩ := e
      obtain ⟨hne, hdigits⟩ := hexponent _ rfl
      have hsplit : splitDigits (utf8Bytes digits ++ rest) = (digits, rest) :=
        splitDigits_append hdigits fun b hb => (hrest b hb).1
      have hsign : splitSign ((if negative then '-' else '+').toUInt8 :: (utf8Bytes digits ++ rest)) =
          (negative, utf8Bytes digits ++ rest) := by
        cases negative <;> rfl
      rw [exponentChars, utf8Bytes_cons_ascii (by decide), utf8Bytes_cons_ascii
        (by cases negative <;> decide), List.cons_append, List.cons_append, readExponent?,
        if_pos (by decide), hsign]
      simp only [hsplit]
      exact if_neg hne

theorem head_exponentChars (exponent : Option (Bool × List Char)) {rest : List UInt8}
    (hrest : Stops rest) :
    ∀ b ∈ (utf8Bytes (exponentChars exponent) ++ rest).head?, isDigit b = false ∧ b ≠ '.'.toUInt8 := by
  cases exponent with
  | none => exact fun b hb => ⟨(hrest b hb).1, (hrest b hb).2.1⟩
  | some e =>
      rw [exponentChars, utf8Bytes_cons_ascii (by decide)]
      rintro b ⟨⟩
      decide

theorem head_fractionChars (fraction : Option (List Char)) {rest : List UInt8}
    (hrest : ∀ b ∈ rest.head?, isDigit b = false) :
    ∀ b ∈ (utf8Bytes (fractionChars fraction) ++ rest).head?, isDigit b = false := by
  cases fraction with
  | none => exact hrest
  | some digits =>
      rw [fractionChars, utf8Bytes_cons_ascii (by decide)]
      rintro b ⟨⟩
      decide

theorem head_whole {whole : List Char} (hwhole : ∀ c ∈ whole, c.isDigit = true)
    (hne : whole ≠ []) (rest : List UInt8) :
    ∃ b tail, utf8Bytes whole ++ rest = b :: tail ∧ isDigit b = true := by
  obtain ⟨d, digits, rfl⟩ := List.exists_cons_of_ne_nil hne
  obtain ⟨hascii, hdigit, -⟩ := ascii_of_isDigit (hwhole d List.mem_cons_self)
  rw [utf8Bytes_cons_ascii hascii]
  exact ⟨_, _, rfl, hdigit⟩

theorem read?_chars {n : JsonNumber} (hn : n.WellFormed) {rest : List UInt8} (hrest : Stops rest) :
    read? (utf8Bytes n.chars ++ rest) = some (n, rest) := by
  obtain ⟨negative, whole, fraction, exponent⟩ := n
  have hdot := head_exponentChars exponent hrest
  have hdigit := head_fractionChars fraction fun b hb => (hdot b hb).1
  have hwhole : readWhole? (utf8Bytes whole ++ _) = some (whole, _) :=
    readWhole?_append hn.whole hn.leading hdigit
  have hfraction : readFraction? (utf8Bytes (fractionChars fraction) ++ _) = some (fraction, _) :=
    readFraction?_append hn.fraction hdot
  have hexponent : readExponent? (utf8Bytes (exponentChars exponent) ++ rest) = some (exponent, rest) :=
    readExponent?_append hn.exponent hrest
  simp only [chars, utf8Bytes_append, List.append_assoc]
  unfold read?
  cases negative with
  | true =>
      have hminus (bytes : List UInt8) : utf8Bytes ['-'] ++ bytes = '-'.toUInt8 :: bytes := rfl
      simp [hminus, hwhole, hfraction, hexponent]
  | false =>
      obtain ⟨b, tail, hbytes, hb⟩ := head_whole hn.whole hn.whole_ne_nil
        (utf8Bytes (fractionChars fraction) ++ (utf8Bytes (exponentChars exponent) ++ rest))
      have hplus (bytes : List UInt8) : utf8Bytes [] ++ bytes = bytes := rfl
      have hminus : b ≠ '-'.toUInt8 := by
        rintro rfl
        cases hb
      simp only at hbytes
      rw [hbytes] at hwhole
      simp [hplus, hbytes, hminus, hwhole, hfraction, hexponent]

theorem not_isSpace_of_isDigit {b : UInt8} (hb : isDigit b = true) : JsonToken.isSpace b = false := by
  apply Bool.eq_false_iff.mpr
  intro hspace
  simp only [JsonToken.isSpace, Bool.or_eq_true, decide_eq_true_eq] at hspace
  rcases hspace with ((rfl | rfl) | rfl) | rfl <;> cases hb

theorem dropSpace_chars {n : JsonNumber} (hn : n.WellFormed) (rest : List UInt8) :
    JsonToken.dropSpace (utf8Bytes n.chars ++ rest) = utf8Bytes n.chars ++ rest := by
  obtain ⟨negative, whole, fraction, exponent⟩ := n
  simp only [chars, utf8Bytes_append, List.append_assoc]
  cases negative with
  | true => exact JsonToken.dropSpace_cons (b := '-'.toUInt8) (by decide) _
  | false =>
      obtain ⟨b, tail, hbytes, hb⟩ := head_whole hn.whole hn.whole_ne_nil
        (utf8Bytes (fractionChars fraction) ++ (utf8Bytes (exponentChars exponent) ++ rest))
      change JsonToken.dropSpace (utf8Bytes whole ++ _) = utf8Bytes whole ++ _
      simp only at hbytes
      rw [hbytes]
      exact JsonToken.dropSpace_cons (not_isSpace_of_isDigit hb) tail

/-! ### Integers -/

def ofInteger (i : Int) : JsonNumber := ⟨i < 0, decimalDigits i.natAbs, none, none⟩

theorem toList_toString_int (i : Int) : (toString i).toList = (ofInteger i).chars := by
  unfold chars ofInteger
  cases i with
  | ofNat n =>
      change (Nat.repr n).toList = _
      simp [Nat.repr, fractionChars, exponentChars, decimalDigits]
  | negSucc n =>
      change ("-" ++ Nat.repr (n + 1)).toList = _
      simp [Nat.repr, fractionChars, exponentChars, decimalDigits, Int.negSucc_lt_zero]

theorem wellFormed_ofInteger (i : Int) : (ofInteger i).WellFormed where
  whole _ := isDigit_of_mem_decimalDigits
  leading := by
    rcases Nat.eq_zero_or_pos i.natAbs with hzero | hpos
    · exact .inl (by rw [ofInteger, hzero]; rfl)
    · exact .inr (head_decimalDigits hpos)
  fraction := by rintro _ ⟨⟩
  exponent := by rintro _ ⟨⟩

theorem integer?_ofInteger {i : Int} (hlow : -(signedMax 64 : Int) - 1 ≤ i)
    (hhigh : i ≤ unsignedMax 64) : (ofInteger i).integer? = some i := by
  simp only [integer?, ofInteger, digitsValue_decimalDigits]
  by_cases hneg : i < 0
  · have hbound : i.natAbs ≠ 0 ∧ i.natAbs ≤ signedMax 64 + 1 := by omega
    have hback : (-(i.natAbs : Int)) = i := by omega
    simp only [hback]
    simp [hneg, hbound]
  · have hbound : i.natAbs ≤ unsignedMax 64 := by omega
    have hback : (i.natAbs : Int) = i := by omega
    simp [hneg, hbound, hback]

end JsonNumber

namespace JsonReader

open ByteReader JsonToken JsonNumber

variable {space rest : List UInt8}

theorem run?_number (hspace : Blank space) {n : JsonNumber} (hn : n.WellFormed)
    (hrest : Stops rest) :
    run? number (space ++ (utf8Bytes n.chars ++ rest)) = some (n, rest) := by
  unfold number
  rw [run?_bind, run?_peek, dropSpace_append hspace, dropSpace_chars hn, Option.bind_some, run?_take,
    read?_chars hn hrest]

theorem run?_integer (hspace : Blank space) {i low high : Int} (hlow : low ≤ i) (hhigh : i ≤ high)
    (hleast : -(signedMax 64 : Int) - 1 ≤ low) (hgreatest : high ≤ unsignedMax 64)
    (hrest : Stops rest) :
    run? (integer low high) (space ++ (utf8Bytes (toString i).toList ++ rest)) = some (i, rest) := by
  unfold integer
  rw [toList_toString_int, run?_bind, run?_number hspace (wellFormed_ofInteger i) hrest,
    Option.bind_some, integer?_ofInteger (by omega) (by omega)]
  simp [hlow, hhigh]

theorem run?_index (hspace : Blank space) {n : Nat} (hn : n < 2 ^ 64) (hrest : Stops rest) :
    run? index (space ++ (utf8Bytes (Json.scalarText (.ofNat n)) ++ rest)) = some (n, rest) := by
  have hread : run? (integer 0 (unsignedMax 64))
      (space ++ (utf8Bytes (toString (n : Int)).toList ++ rest)) = some ((n : Int), rest) :=
    run?_integer hspace (by omega) (by unfold unsignedMax; omega) (by unfold signedMax; omega)
      (by omega) hrest
  have htext : (toString n).toList = (toString (n : Int)).toList := rfl
  unfold index
  rw [run?_bind, Json.ofNat, Json.scalarText, htext, hread]
  rfl

theorem run?_signed (hspace : Blank space) {bits : Nat} {i : Int} (hbits : bits ≤ 64)
    (hlow : -(signedMax bits : Int) - 1 ≤ i) (hhigh : i ≤ signedMax bits) (hrest : Stops rest) :
    run? (signed bits) (space ++ (utf8Bytes (Json.scalarText (.ofInt i)) ++ rest)) =
      some (i, rest) := by
  have hmax : signedMax bits ≤ signedMax 64 :=
    Nat.sub_le_sub_right (Nat.pow_le_pow_right (by decide) (by omega)) 1
  have hword : signedMax 64 ≤ unsignedMax 64 := by decide
  exact run?_integer hspace hlow hhigh (by omega) (by omega) hrest

end JsonReader

end RowCode
