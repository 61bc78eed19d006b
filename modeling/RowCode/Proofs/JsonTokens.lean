import RowCode.File.Json
import RowCode.File.JsonReader
import RowCode.Proofs.ByteReading

/-!
# Tokens are read back

White space is passed over, and the bytes between the quotes of a written string are those of the
string once its escapes are undone.
-/

namespace RowCode

section Ascii

variable {c : Char}

theorem utf8EncodeChar_ascii (hc : c.toNat < 128) : String.utf8EncodeChar c = [c.toUInt8] := by
  have hsize : c.utf8Size = 1 := by
    rw [Char.utf8Size_eq_one_iff, UInt32.le_iff_toNat_le]
    change c.toNat ≤ 127
    omega
  rw [String.utf8EncodeChar_eq_singleton hsize]
  rfl

theorem toNat_toUInt8 (hc : c.toNat < 128) : c.toUInt8.toNat = c.toNat := by
  change c.val.toUInt8.toNat = c.val.toNat
  change c.val.toNat < 128 at hc
  rw [UInt32.toNat_toUInt8]
  omega

theorem utf8Bytes_cons_ascii (hc : c.toNat < 128) (cs : List Char) :
    utf8Bytes (c :: cs) = c.toUInt8 :: utf8Bytes cs := by
  rw [utf8Bytes_cons, utf8EncodeChar_ascii hc]
  rfl

theorem le_of_mem_utf8EncodeChar (hc : 128 ≤ c.toNat) :
    ∀ b ∈ String.utf8EncodeChar c, 128 ≤ b := by
  intro b hb
  change 128 ≤ c.val.toNat at hc
  rw [UInt8.le_iff_toNat_le]
  change 128 ≤ b.toNat
  unfold String.utf8EncodeChar at hb
  simp only at hb
  split at hb
  · omega
  · split at hb
    · simp only [List.mem_cons, List.not_mem_nil, or_false] at hb
      rcases hb with rfl | rfl <;> rw [UInt8.toNat_ofNat'] <;> omega
    · split at hb
      · simp only [List.mem_cons, List.not_mem_nil, or_false] at hb
        rcases hb with rfl | rfl | rfl <;> rw [UInt8.toNat_ofNat'] <;> omega
      · simp only [List.mem_cons, List.not_mem_nil, or_false] at hb
        rcases hb with rfl | rfl | rfl | rfl <;> rw [UInt8.toNat_ofNat'] <;> omega

end Ascii

namespace JsonToken

/-! ### White space -/

def Blank (bytes : List UInt8) : Prop := ∀ b ∈ bytes, isSpace b = true

theorem blank_nil : Blank [] := by
  rintro b ⟨⟩

theorem blank_space : Blank [' '.toUInt8] :=
  List.forall_mem_singleton.mpr (by decide)

theorem dropSpace_append {space : List UInt8} (hspace : Blank space) (bytes : List UInt8) :
    dropSpace (space ++ bytes) = dropSpace bytes :=
  List.dropWhile_append_of_pos hspace

theorem dropSpace_cons {b : UInt8} (hb : isSpace b = false) (bytes : List UInt8) :
    dropSpace (b :: bytes) = b :: bytes :=
  List.dropWhile_cons_of_neg (by simp [hb])

theorem blank_newLine (indent : Nat) : Blank (utf8Bytes (Json.newLine indent)) := by
  have hline : ∀ b ∈ String.utf8EncodeChar '\n', isSpace b = true := by
    rw [utf8EncodeChar_ascii (by decide)]
    exact List.forall_mem_singleton.mpr (by decide)
  have hspace : ∀ b ∈ String.utf8EncodeChar ' ', isSpace b = true := by
    rw [utf8EncodeChar_ascii (by decide)]
    exact blank_space
  intro b hb
  obtain ⟨c, hc, hbc⟩ := List.mem_flatMap.mp hb
  rcases List.mem_cons.mp hc with rfl | hc
  · exact hline b hbc
  · rw [(List.mem_replicate.mp hc).2] at hbc
    exact hspace b hbc

/-! ### Strings -/

theorem push_append (left right : List UInt8) (read : Option (List UInt8 × List UInt8)) :
    push (left ++ right) read = push left (push right read) := by
  cases read <;> simp [push]

/-- A byte that stands for itself in a string. -/
def IsPlain (b : UInt8) : Prop := b ≠ '"'.toUInt8 ∧ b ≠ '\\'.toUInt8 ∧ 32 ≤ b

theorem stringBody?_cons {b : UInt8} (hb : IsPlain b) (bytes : List UInt8) :
    stringBody? (b :: bytes) = push [b] (stringBody? bytes) := by
  obtain ⟨hquote, hslash, hcontrol⟩ := hb
  cases bytes with
  | nil => simp [stringBody?, push, hquote]
  | cons e rest =>
      rw [stringBody?.eq_def]
      simp [hquote, hslash, UInt8.not_lt.mpr hcontrol]

theorem stringBody?_append {content : List UInt8} (hcontent : ∀ b ∈ content, IsPlain b)
    (bytes : List UInt8) : stringBody? (content ++ bytes) = push content (stringBody? bytes) := by
  induction content with
  | nil => cases h : stringBody? bytes <;> simp [push, h]
  | cons b rest ih =>
      obtain ⟨hb, hrest⟩ := List.forall_mem_cons.mp hcontent
      rw [List.cons_append, stringBody?_cons hb, ih hrest, ← push_append]
      rfl

theorem isPlain_of_mem {c : Char} (hquote : c ≠ '"') (hslash : c ≠ '\\') (hcontrol : 32 ≤ c.toNat) :
    ∀ b ∈ String.utf8EncodeChar c, IsPlain b := by
  intro b hb
  by_cases hascii : c.toNat < 128
  · rw [utf8EncodeChar_ascii hascii, List.mem_singleton] at hb
    subst hb
    have hnat := toNat_toUInt8 hascii
    refine ⟨?_, ?_, ?_⟩
    · intro heq
      rw [heq] at hnat
      exact hquote (Char.toNat_inj.mp hnat.symm)
    · intro heq
      rw [heq] at hnat
      exact hslash (Char.toNat_inj.mp hnat.symm)
    · rw [UInt8.le_iff_toNat_le, hnat]
      exact hcontrol
  · have hlarge := le_of_mem_utf8EncodeChar (Nat.le_of_not_lt hascii) b hb
    refine ⟨?_, ?_, UInt8.le_trans (by decide) hlarge⟩ <;> rintro rfl <;> exact absurd hlarge (by decide)

/-- The four digits of a control character. -/
theorem unit?_hexPair (n : Nat) (hn : n < 32) :
    (unit? '0'.toUInt8 '0'.toUInt8 (Nat.digitChar (n / 16)).toUInt8 (Nat.digitChar (n % 16)).toUInt8)
      = some n := by
  revert n
  decide

theorem stringBody?_simple {e b : UInt8} (he : e ≠ 'u'.toUInt8) (hb : simpleEscape? e = some b)
    (bytes : List UInt8) :
    stringBody? ('\\'.toUInt8 :: e :: bytes) = push [b] (stringBody? bytes) := by
  rw [stringBody?.eq_def]
  simp only [he, hb, if_false]
  rfl

/-- An escape of four digits that stands for a character by itself. -/
theorem stringBody?_unit {h₁ h₂ h₃ h₄ : UInt8} {n : Nat} (hunit : unit? h₁ h₂ h₃ h₄ = some n)
    (hn : n < 32) (bytes : List UInt8) :
    stringBody? ('\\'.toUInt8 :: 'u'.toUInt8 :: h₁ :: h₂ :: h₃ :: h₄ :: bytes) =
      push (utf8 n) (stringBody? bytes) := by
  have htrail : isTrailSurrogate n = false := by simp [isTrailSurrogate]; omega
  have hlead : isLeadSurrogate n = false := by simp [isLeadSurrogate]; omega
  rw [stringBody?.eq_def]
  simp only [hunit, htrail, hlead]
  rfl

theorem utf8Bytes_hexPair (n : Nat) (hn : n < 32) :
    utf8Bytes (Json.hexPair n) =
      [(Nat.digitChar (n / 16)).toUInt8, (Nat.digitChar (n % 16)).toUInt8] := by
  revert n
  decide

theorem stringBody?_escape (c : Char) (bytes : List UInt8) :
    stringBody? (utf8Bytes (Json.escape c) ++ bytes) =
      push (String.utf8EncodeChar c) (stringBody? bytes) := by
  by_cases hnamed : c ∈ ['"', '\\', '\x08', '\x0c', '\n', '\r', '\t']
  · simp only [List.mem_cons, List.not_mem_nil, or_false] at hnamed
    rcases hnamed with rfl | rfl | rfl | rfl | rfl | rfl | rfl <;>
      exact stringBody?_simple (by decide) rfl bytes
  simp only [List.mem_cons, List.not_mem_nil, or_false, not_or] at hnamed
  by_cases hcontrol : c.toNat < 32
  · have hescape : Json.escape c = ['\\', 'u', '0', '0'] ++ Json.hexPair c.toNat := by
      simp [Json.escape, hnamed, hcontrol]
    have hunit := stringBody?_unit (unit?_hexPair c.toNat hcontrol) hcontrol bytes
    rw [utf8, Char.ofNat_toNat] at hunit
    rw [hescape, utf8Bytes_append, utf8Bytes_hexPair _ hcontrol]
    exact hunit
  · have hescape : Json.escape c = [c] := by
      simp [Json.escape, hnamed, hcontrol]
    rw [hescape, utf8Bytes, List.flatMap_singleton]
    exact stringBody?_append (isPlain_of_mem hnamed.1 hnamed.2.1 (Nat.le_of_not_lt hcontrol)) bytes

theorem stringBody?_quote (cs : List Char) (bytes : List UInt8) :
    stringBody? (utf8Bytes (cs.flatMap Json.escape) ++ '"'.toUInt8 :: bytes) =
      some (utf8Bytes cs, bytes) := by
  induction cs with
  | nil =>
      change stringBody? ('"'.toUInt8 :: bytes) = some ([], bytes)
      cases bytes <;> rw [stringBody?.eq_def] <;> rfl
  | cons c cs ih =>
      rw [List.flatMap_cons, utf8Bytes_append, List.append_assoc, stringBody?_escape, ih]
      rfl

end JsonToken

namespace JsonReader

open JsonToken ByteReader

variable {α : Type} {space : List UInt8}

@[simp]
theorem run?_ofOption (result : Option α) (bytes : List UInt8) :
    run? (ofOption result) bytes = result.map (·, bytes) := by
  cases result <;> rfl

theorem run?_take (f : List UInt8 → Option (α × List UInt8)) (bytes : List UInt8) :
    run? (take f) bytes = f bytes := by
  unfold run? take
  cases f bytes <;> rfl

@[simp]
theorem run?_skipByte (b : UInt8) (bytes : List UInt8) : run? skipByte (b :: bytes) = some ((), bytes) :=
  rfl

theorem run?_peek (bytes : List UInt8) :
    run? peek bytes = some ((dropSpace bytes).head?, dropSpace bytes) := rfl

theorem run?_peek_append (hspace : Blank space) {b : UInt8} (hb : isSpace b = false)
    (bytes : List UInt8) : run? peek (space ++ b :: bytes) = some (some b, b :: bytes) := by
  rw [run?_peek, dropSpace_append hspace, dropSpace_cons hb]
  rfl

theorem run?_peek_cons {b : UInt8} (hb : isSpace b = false) (bytes : List UInt8) :
    run? peek (b :: bytes) = some (some b, b :: bytes) :=
  run?_peek_append blank_nil hb bytes

theorem run?_expect (hspace : Blank space) {c : Char} (hc : isSpace c.toUInt8 = false)
    (bytes : List UInt8) : run? (expect c) (space ++ c.toUInt8 :: bytes) = some ((), bytes) := by
  unfold expect
  rw [run?_bind, run?_peek_append hspace hc]
  simp

theorem run?_expect_cons {c : Char} (hc : isSpace c.toUInt8 = false) (bytes : List UInt8) :
    run? (expect c) (c.toUInt8 :: bytes) = some ((), bytes) :=
  run?_expect blank_nil hc bytes

theorem run?_restOfString (s : String) (bytes : List UInt8) :
    run? restOfString (utf8Bytes (s.toList.flatMap Json.escape) ++ '"'.toUInt8 :: bytes) =
      some (s, bytes) := by
  unfold restOfString
  rw [run?_bind, run?_take, stringBody?_quote, Option.bind_some, run?_ofOption, ← toUTF8_eq,
    fromUTF8?_toUTF8]
  rfl

theorem utf8Bytes_quote (s : String) (bytes : List UInt8) :
    utf8Bytes (Json.quote s) ++ bytes =
      '"'.toUInt8 :: (utf8Bytes (s.toList.flatMap Json.escape) ++ '"'.toUInt8 :: bytes) := by
  rw [Json.quote, utf8Bytes_cons_ascii (by decide), utf8Bytes_append, List.cons_append,
    List.append_assoc]
  rfl

theorem run?_string (hspace : Blank space) (s : String) (bytes : List UInt8) :
    run? string (space ++ (utf8Bytes (Json.quote s) ++ bytes)) = some (s, bytes) := by
  unfold string
  rw [utf8Bytes_quote, run?_bind, run?_expect hspace (by decide), Option.bind_some,
    run?_restOfString]

theorem run?_boolean (hspace : Blank space) (b : Bool) (bytes : List UInt8) :
    run? boolean (space ++ (utf8Bytes (Json.scalarText (.boolean b)) ++ bytes)) = some (b, bytes) := by
  cases b with
  | true =>
      change run? boolean (space ++ 't'.toUInt8 :: _) = _
      unfold boolean
      rw [run?_bind, run?_peek_append hspace (by decide)]
      rfl
  | false =>
      change run? boolean (space ++ 'f'.toUInt8 :: _) = _
      unfold boolean
      rw [run?_bind, run?_peek_append hspace (by decide)]
      rfl

theorem run?_null (hspace : Blank space) (bytes : List UInt8) :
    run? null (space ++ (utf8Bytes (Json.scalarText .null) ++ bytes)) = some ((), bytes) := by
  change run? null (space ++ 'n'.toUInt8 :: _) = _
  unfold null
  rw [run?_bind, run?_peek_append hspace (by decide)]
  rfl

end JsonReader

end RowCode
