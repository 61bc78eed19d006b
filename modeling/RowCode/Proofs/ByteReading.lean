import RowCode.File.Fault

/-!
# Readers of bytes

How readers are sequenced, and texts as the bytes they are stored in.
-/

namespace RowCode

namespace ByteReader

variable {α β : Type}

theorem bind_apply (read : ByteReader α) (f : α → ByteReader β) (bytes : List UInt8) :
    (read >>= f) bytes =
      match read bytes with
      | .ok (a, rest) => f a rest
      | .error fault => .error fault := by
  change Except.bind (read bytes) (fun result => f result.1 result.2) = _
  cases read bytes <;> rfl

theorem bind_ok {read : ByteReader α} {f : α → ByteReader β} {bytes rest : List UInt8} {a : α}
    (hread : read bytes = .ok (a, rest)) : (read >>= f) bytes = f a rest := by
  rw [bind_apply, hread]

theorem of_bind_ok {read : ByteReader α} {f : α → ByteReader β} {bytes rest : List UInt8} {b : β}
    (hbind : (read >>= f) bytes = .ok (b, rest)) :
    ∃ a mid, read bytes = .ok (a, mid) ∧ f a mid = .ok (b, rest) := by
  rw [bind_apply] at hbind
  cases hread : read bytes with
  | ok result => exact ⟨result.1, result.2, rfl, by rwa [hread] at hbind⟩
  | error fault =>
      rw [hread] at hbind
      cases hbind

theorem map_eq (f : α → β) (read : ByteReader α) :
    f <$> read = (do let a ← read; pure (f a)) := rfl

/-- What a reader makes of bytes, whatever the fault if it makes nothing. -/
def run? (read : ByteReader α) (bytes : List UInt8) : Option (α × List UInt8) :=
  (read bytes).toOption

@[simp]
theorem run?_pure (a : α) (bytes : List UInt8) : run? (pure a) bytes = some (a, bytes) := rfl

@[simp]
theorem run?_get (bytes : List UInt8) : run? get bytes = some (bytes, bytes) := rfl

@[simp]
theorem run?_bind (read : ByteReader α) (f : α → ByteReader β) (bytes : List UInt8) :
    run? (read >>= f) bytes = (run? read bytes).bind fun result => run? (f result.1) result.2 := by
  unfold run?
  rw [bind_apply]
  cases read bytes <;> rfl

theorem run?_finish (read : ByteReader α) (f : α → β) (bytes : List UInt8) :
    run? (do let a ← read; pure (f a)) bytes =
      (run? read bytes).map fun result => (f result.1, result.2) := by
  rw [run?_bind]
  exact Option.map_eq_bind.symm

@[simp]
theorem run?_map (f : α → β) (read : ByteReader α) (bytes : List UInt8) :
    run? (f <$> read) bytes = (run? read bytes).map fun result => (f result.1, result.2) := by
  rw [map_eq, run?_finish]

end ByteReader

/-! ### Texts in bytes -/

/-- The bytes of a text. -/
def utf8Bytes (cs : List Char) : List UInt8 := cs.flatMap String.utf8EncodeChar

theorem utf8Bytes_append (left right : List Char) :
    utf8Bytes (left ++ right) = utf8Bytes left ++ utf8Bytes right :=
  List.flatMap_append

theorem utf8Bytes_cons (c : Char) (cs : List Char) :
    utf8Bytes (c :: cs) = String.utf8EncodeChar c ++ utf8Bytes cs :=
  List.flatMap_cons

theorem length_utf8Bytes_le (cs : List Char) : (utf8Bytes cs).length ≤ 4 * cs.length := by
  induction cs with
  | nil => simp [utf8Bytes]
  | cons c cs ih =>
      have hchar : (String.utf8EncodeChar c).length ≤ 4 := by
        rw [String.length_utf8EncodeChar]
        exact c.utf8Size_le_four
      rw [utf8Bytes_cons, List.length_append, List.length_cons]
      omega

theorem toUTF8_ofList (cs : List Char) : (String.ofList cs).toUTF8.data.toList = utf8Bytes cs := by
  rw [String.toUTF8_eq_toByteArray, String.toByteArray_ofList, List.utf8Encode]
  simp [utf8Bytes]

theorem toUTF8_eq (s : String) : s.toUTF8.data.toList = utf8Bytes s.toList := by
  rw [← toUTF8_ofList, String.ofList_toList]

theorem length_toUTF8 (s : String) : s.toUTF8.data.toList.length = s.utf8ByteSize := rfl

theorem fromUTF8?_toUTF8 (s : String) :
    String.fromUTF8? ⟨s.toUTF8.data.toList.toArray⟩ = some s := by
  rw [String.fromUTF8?]
  exact dif_pos s.isValidUTF8

theorem eq_toUTF8_of_fromUTF8? {bytes : List UInt8} {s : String}
    (h : String.fromUTF8? ⟨bytes.toArray⟩ = some s) : bytes = s.toUTF8.data.toList := by
  rw [String.fromUTF8?] at h
  split at h
  · obtain rfl := Option.some.inj h
    rfl
  · cases h

end RowCode
