import RowCode.File.JsonWriter
import RowCode.Proofs.JsonNumbers

/-!
# Lists, records and variants are read back

A value is written over several lines, its items and members each behind a separator of their own,
and read with a budget for how deep it may be nested. What a reader makes of it therefore depends on
the budget alone: the whole is made if the budget covers its nesting and every part is made, and
nothing is made otherwise.
-/

namespace RowCode

namespace Json

mutual

/-- How many lists and objects are nested inside one another. -/
def nesting : Json → Nat
  | list items => nestingItems items + 1
  | object members => nestingMembers members + 1
  | _ => 0

def nestingItems : List Json → Nat
  | [] => 0
  | j :: rest => max (nesting j) (nestingItems rest)

def nestingMembers : List (String × Json) → Nat
  | [] => 0
  | (_, j) :: rest => max (nesting j) (nestingMembers rest)

end

/-- A list or an object. -/
def IsCompound : Json → Prop
  | list _ | object _ => True
  | _ => False

/-- A member on a line of its own. -/
def memberText (indent : Nat) (name : String) (j : Json) : List Char :=
  newLine indent ++ (quote name ++ ':' :: ' ' :: indented indent j)

def itemText (indent : Nat) (j : Json) : List Char := newLine indent ++ indented indent j

theorem indentedItems_cons (indent : Nat) (j : Json) (rest : List Json) :
    indentedItems indent (j :: rest) = ',' :: (itemText indent j ++ indentedItems indent rest) := rfl

theorem indentedMembers_cons (indent : Nat) (name : String) (j : Json)
    (rest : List (String × Json)) :
    indentedMembers indent ((name, j) :: rest) =
      ',' :: (memberText indent name j ++ indentedMembers indent rest) := by
  simp [indentedMembers, memberText]

theorem indented_list_cons (indent : Nat) (j : Json) (rest : List Json) :
    indented indent (list (j :: rest)) =
      '[' :: (itemText (indent + 1) j ++
        (indentedItems (indent + 1) rest ++ (newLine indent ++ [']']))) := by
  simp [indented, itemText]

theorem indented_object_cons (indent : Nat) (name : String) (j : Json)
    (rest : List (String × Json)) :
    indented indent (object ((name, j) :: rest)) =
      '\x7b' :: (memberText (indent + 1) name j ++
        (indentedMembers (indent + 1) rest ++ (newLine indent ++ ['\x7d']))) := by
  simp [indented, memberText]

end Json

namespace JsonReader

open ByteReader JsonToken JsonNumber

variable {α β σ : Type} {space rest : List UInt8} {limit : Nat}

/-- What may follow a value: the end, a separator, or a new line. -/
def Ends (rest : List UInt8) : Prop := ∀ b ∈ rest.head?, b = ','.toUInt8 ∨ b = '\n'.toUInt8

theorem Ends.stops (hrest : Ends rest) : Stops rest := by
  intro b hb
  rcases hrest b hb with rfl | rfl <;> decide

/-- What is made of a value if the budget covers its nesting. -/
def within (nesting depth : Nat) (made : Option α) : Option α :=
  if nesting ≤ depth then made else none

theorem within_zero (depth : Nat) (made : Option α) : within 0 depth made = made :=
  if_pos (Nat.zero_le depth)

theorem within_exhausted (nesting : Nat) (made : Option α) : within (nesting + 1) 0 made = none :=
  if_neg (Nat.not_succ_le_zero nesting)

theorem within_succ (nesting depth : Nat) (made : Option α) :
    within (nesting + 1) (depth + 1) made = within nesting depth made := by
  simp [within]

theorem map_within (nesting depth : Nat) (made : Option α) (f : α → β) :
    (within nesting depth made).map f = within nesting depth (made.map f) := by
  unfold within
  split <;> rfl

theorem bind_within (nesting depth : Nat) (made : Option α) (f : α → Option β) :
    (within nesting depth made).bind f = within nesting depth (made.bind f) := by
  unfold within
  split <;> rfl

theorem mem_of_mem_within {nesting depth : Nat} {made : Option α} {a : α}
    (h : a ∈ within nesting depth made) : a ∈ made := by
  unfold within at h
  split at h
  · exact h
  · cases h

theorem within_bind (m n depth : Nat) (made : Option α) (f : α → Option β) :
    ((within m depth made).bind fun a => within n depth (f a)) =
      within (max m n) depth (made.bind f) := by
  unfold within
  simp only [Nat.max_le]
  by_cases hm : m ≤ depth
  · by_cases hn : n ≤ depth
    · simp [hm, hn]
    · simp [hm, hn]
  · simp [hm]

/-- At every budget up to `limit` the reader makes `made` of the value, or nothing if the value is
nested deeper than that. -/
def Makes (limit : Nat) (read : Nat → ByteReader α) (j : Json) (made : Option α) : Prop :=
  ∀ depth ≤ limit, ∀ indent space rest, Blank space → Ends rest →
    run? (read depth) (space ++ (utf8Bytes (j.indented indent) ++ rest)) =
      within j.nesting depth (made.map (·, rest))

theorem Makes.mono {read : Nat → ByteReader α} {j : Json} {made : Option α} {limit' : Nat}
    (h : Makes limit read j made) (hle : limit' ≤ limit) : Makes limit' read j made :=
  fun depth hdepth => h depth (Nat.le_trans hdepth hle)

theorem Makes.map {read : Nat → ByteReader α} {j : Json} {made : Option α}
    (h : Makes limit read j made) (f : α → β) :
    Makes limit (fun depth => f <$> read depth) j (made.map f) := by
  intro depth hdepth indent space rest hspace hrest
  rw [run?_map, h depth hdepth indent space rest hspace hrest, map_within, Option.map_map,
    Option.map_map]
  rfl

/-- A value without items or members is made at every budget. -/
theorem makes_of_scalar {read : Nat → ByteReader α} {j : Json} {made : Option α}
    (hnesting : j.nesting = 0)
    (hread : ∀ depth space rest, Blank space → Ends rest →
      run? (read depth) (space ++ (utf8Bytes (Json.scalarText j) ++ rest)) = made.map (·, rest)) :
    Makes limit read j made := by
  intro depth _ indent space rest hspace hrest
  have htext : j.indented indent = Json.scalarText j := by
    cases j with
    | list | object => cases hnesting
    | null | boolean | number | string => simp [Json.indented]
  rw [htext, hread depth space rest hspace hrest, hnesting, within_zero]

theorem makes_boolean (b : Bool) : Makes limit (fun _ => boolean) (.boolean b) (some b) :=
  makes_of_scalar rfl fun _ _ rest hspace _ => run?_boolean hspace b rest

theorem makes_string (s : String) : Makes limit (fun _ => string) (.string s) (some s) :=
  makes_of_scalar rfl fun _ _ rest hspace _ => run?_string hspace s rest

theorem makes_index {n : Nat} (hn : n < 2 ^ 64) :
    Makes limit (fun _ => index) (.ofNat n) (some n) :=
  makes_of_scalar rfl fun _ _ _ hspace hrest => run?_index hspace hn hrest.stops

theorem makes_signed {bits : Nat} {i : Int} (hbits : bits ≤ 64)
    (hlow : -(signedMax bits : Int) - 1 ≤ i) (hhigh : i ≤ signedMax bits) :
    Makes limit (fun _ => signed bits) (.ofInt i) (some i) :=
  makes_of_scalar rfl fun _ _ _ hspace hrest => run?_signed hspace hbits hlow hhigh hrest.stops

/-! ### Variants without a payload -/

theorem run?_variant_quote (hspace : Blank space) (depth : Nat) (plain : String → Option α)
    (payload : (depth : Nat) → String → Option (ByteReader α)) (name : String) :
    run? (variant depth plain payload) (space ++ (utf8Bytes (Json.quote name) ++ rest)) =
      (plain name).map (·, rest) := by
  unfold variant
  rw [utf8Bytes_quote, run?_bind, run?_peek_append hspace (by decide)]
  simp only [Option.bind_some, if_true, run?_bind, run?_skipByte, run?_restOfString, run?_ofOption]

theorem makes_name (plain : String → Option α)
    (payload : (depth : Nat) → String → Option (ByteReader α)) (name : String) :
    Makes limit (fun depth => variant depth plain payload) (.string name) (plain name) :=
  makes_of_scalar rfl fun depth _ _ hspace _ => run?_variant_quote hspace depth plain payload name

/-! ### Items and members in sequence -/

theorem ends_newLine (indent : Nat) (rest : List UInt8) :
    Ends (utf8Bytes (Json.newLine indent) ++ rest) := by
  rintro b ⟨⟩
  exact .inr rfl

theorem ends_cons_comma (rest : List UInt8) : Ends (','.toUInt8 :: rest) := by
  rintro b ⟨⟩
  exact .inl rfl

/-- What stands before an item or a member, its white space apart. -/
def separator (first : Bool) : List UInt8 := if first then [] else [','.toUInt8]

theorem head_compound {j : Json} (hj : j.IsCompound) (indent : Nat) :
    ∃ b tail, utf8Bytes (j.indented indent) = b :: tail ∧ (b = '['.toUInt8 ∨ b = '\x7b'.toUInt8) := by
  cases j with
  | list items =>
      have hbracket (cs : List Char) : utf8Bytes ('[' :: cs) = '['.toUInt8 :: utf8Bytes cs :=
        utf8Bytes_cons_ascii (by decide) cs
      cases items with
      | nil => exact ⟨_, _, hbracket _, .inl rfl⟩
      | cons j rest => exact ⟨_, _, by rw [Json.indented_list_cons, hbracket], .inl rfl⟩
  | object members =>
      have hbrace (cs : List Char) : utf8Bytes ('\x7b' :: cs) = '\x7b'.toUInt8 :: utf8Bytes cs :=
        utf8Bytes_cons_ascii (by decide) cs
      cases members with
      | nil => exact ⟨_, _, hbrace _, .inr rfl⟩
      | cons member rest =>
          exact ⟨_, _, by rw [Json.indented_object_cons, hbrace], .inr rfl⟩
  | null | boolean | number | string => exact hj.elim

theorem run?_nextItem_close (hspace : Blank space) (first : Bool) :
    run? (nextItem first) (space ++ ']'.toUInt8 :: rest) = some (false, ']'.toUInt8 :: rest) := by
  unfold nextItem
  rw [run?_bind, run?_peek_append hspace (by decide)]
  rfl

theorem run?_nextItem_open (hspace : Blank space) (first : Bool) {b : UInt8}
    (hb : b = '['.toUInt8 ∨ b = '\x7b'.toUInt8) :
    run? (nextItem first) (separator first ++ (space ++ b :: rest)) = some (true, b :: rest) := by
  have hpeek : run? peek (space ++ b :: rest) = some (some b, b :: rest) := by
    apply run?_peek_append hspace
    rcases hb with rfl | rfl <;> decide
  have hclose : b ≠ ']'.toUInt8 := by
    rcases hb with rfl | rfl <;> decide
  unfold nextItem
  cases first with
  | true =>
      change run? _ (space ++ b :: rest) = _
      rw [run?_bind, hpeek]
      simp [hclose]
  | false =>
      change run? _ (','.toUInt8 :: (space ++ b :: rest)) = _
      have hbracket : ','.toUInt8 ≠ ']'.toUInt8 := by decide
      have hcomma := run?_expect_cons (c := ',') (by decide) (space ++ b :: rest)
      rw [run?_bind, run?_peek_cons (by decide)]
      simp [hbracket, hcomma, hpeek, hclose]

theorem separator_true_append (bytes : List UInt8) : separator true ++ bytes = bytes := rfl

theorem cons_comma (bytes : List UInt8) : ','.toUInt8 :: bytes = separator false ++ bytes := rfl

/-! ### Lists -/

section Lists

variable {read : Nat → ByteReader α}

/-- What follows the first item of a list, up to its end. -/
def afterItem (indent : Nat) (js : List Json) (rest : List UInt8) : List UInt8 :=
  utf8Bytes (Json.indentedItems (indent + 1) js) ++
    (utf8Bytes (Json.newLine indent) ++ ']'.toUInt8 :: rest)

theorem afterItem_cons (indent : Nat) (j : Json) (js : List Json) (rest : List UInt8) :
    afterItem indent (j :: js) rest =
      separator false ++ (utf8Bytes (Json.itemText (indent + 1) j) ++ afterItem indent js rest) := by
  rw [afterItem, Json.indentedItems_cons, utf8Bytes_cons_ascii (by decide), utf8Bytes_append,
    List.cons_append, List.append_assoc]
  rfl

theorem utf8Bytes_list_cons (indent : Nat) (j : Json) (js : List Json) (rest : List UInt8) :
    utf8Bytes (Json.indented indent (.list (j :: js))) ++ rest =
      '['.toUInt8 :: (utf8Bytes (Json.itemText (indent + 1) j) ++ afterItem indent js rest) := by
  rw [Json.indented_list_cons, utf8Bytes_cons_ascii (by decide)]
  simp only [utf8Bytes_append, List.cons_append, List.append_assoc]
  rfl

theorem ends_afterItem (indent : Nat) (js : List Json) (rest : List UInt8) :
    Ends (afterItem indent js rest) := by
  cases js with
  | nil => exact ends_newLine indent _
  | cons j js =>
      rw [afterItem_cons]
      exact ends_cons_comma _

theorem length_lt_afterItem (indent : Nat) (js : List Json) (rest : List UInt8) :
    js.length < (afterItem indent js rest).length := by
  induction js with
  | nil =>
      simp only [afterItem, List.length_nil, List.length_append, List.length_cons]
      omega
  | cons j js ih =>
      rw [afterItem_cons, ← cons_comma]
      simp only [List.length_cons, List.length_append]
      omega

theorem run?_nextItem_read {j : Json} {made : Option α} (hj : j.IsCompound)
    (hmakes : Makes limit read j made) {depth : Nat} (hdepth : depth ≤ limit) (first : Bool)
    (indent : Nat) (hrest : Ends rest) (next : α → ByteReader β) (otherwise : ByteReader β) :
    run? (do
        if ← nextItem first then
          let a ← read depth
          next a
        else otherwise) (separator first ++ (utf8Bytes (Json.itemText indent j) ++ rest)) =
      (within j.nesting depth made).bind fun a => run? (next a) rest := by
  obtain ⟨b, tail, htext, hb⟩ := head_compound hj indent
  have hread := hmakes depth hdepth indent [] rest blank_nil hrest
  rw [htext, List.nil_append, List.cons_append, ← map_within] at hread
  rw [Json.itemText, utf8Bytes_append, List.append_assoc, htext, List.cons_append, run?_bind,
    run?_nextItem_open (blank_newLine indent) first hb, Option.bind_some]
  simp only [if_true, run?_bind, hread, Option.bind_map]
  rfl

theorem run?_items_step {x : β} {xs : List β} {f : β → Json} {g : β → Option α}
    (hx : (f x).IsCompound ∧ Makes limit read (f x) (g x)) {depth fuel indent : Nat}
    (hdepth : depth ≤ limit)
    (hxs : run? (items (read depth) fuel false) (afterItem indent (xs.map f) rest) =
      within (Json.nestingItems (xs.map f)) depth ((xs.mapM g).map (·, ']'.toUInt8 :: rest)))
    (first : Bool) :
    run? (items (read depth) (fuel + 1) first) (separator first ++
        (utf8Bytes (Json.itemText (indent + 1) (f x)) ++ afterItem indent (xs.map f) rest)) =
      within (Json.nestingItems ((x :: xs).map f)) depth
        (((x :: xs).mapM g).map (·, ']'.toUInt8 :: rest)) := by
  rw [items, run?_nextItem_read hx.1 hx.2 hdepth _ _ (ends_afterItem _ _ _)]
  simp only [run?_finish, hxs, map_within, within_bind]
  rw [List.map_cons, Json.nestingItems, List.mapM_cons]
  congr 1
  cases g x <;> cases xs.mapM g <;> rfl

theorem run?_items {xs : List β} {f : β → Json} {g : β → Option α}
    (hitems : ∀ x ∈ xs, (f x).IsCompound ∧ Makes limit read (f x) (g x)) {depth : Nat}
    (hdepth : depth ≤ limit) {fuel : Nat} (hfuel : xs.length < fuel) (indent : Nat) :
    run? (items (read depth) fuel false) (afterItem indent (xs.map f) rest) =
      within (Json.nestingItems (xs.map f)) depth ((xs.mapM g).map (·, ']'.toUInt8 :: rest)) := by
  obtain ⟨fuel, rfl⟩ := Nat.exists_eq_add_one_of_ne_zero (Nat.ne_zero_of_lt hfuel)
  induction xs generalizing fuel with
  | nil =>
      change run? _ (utf8Bytes (Json.newLine indent) ++ ']'.toUInt8 :: rest) = _
      rw [items, run?_bind, run?_nextItem_close (blank_newLine indent)]
      simp [Json.nestingItems, within_zero]
  | cons x xs ih =>
      obtain ⟨hx, hxs⟩ := List.forall_mem_cons.mp hitems
      rw [List.length_cons] at hfuel
      obtain ⟨fuel, rfl⟩ := Nat.exists_eq_add_one_of_ne_zero (n := fuel) (by omega)
      rw [List.map_cons, afterItem_cons]
      exact run?_items_step hx hdepth (ih hxs fuel (by omega)) false

theorem run?_list_zero (hspace : Blank space) (bytes : List UInt8) :
    run? (list 0 read) (space ++ '['.toUInt8 :: bytes) = none := by
  unfold list
  rw [run?_bind, run?_expect hspace (by decide)]
  rfl

theorem run?_list_succ (hspace : Blank space) (depth : Nat) (bytes : List UInt8) :
    run? (list (depth + 1) read) (space ++ '['.toUInt8 :: bytes) =
      (run? (items (read depth) (bytes.length + 1) true) bytes).bind fun result =>
        (run? (expect ']') result.2).map fun closed => (result.1, closed.2) := by
  unfold list
  rw [run?_bind, run?_expect hspace (by decide), Option.bind_some, run?_bind]
  simp only [enter, run?_pure, Option.bind_some, run?_bind, run?_get, Option.map_eq_bind]
  rfl

theorem makes_list {xs : List β} {f : β → Json} {g : β → Option α}
    (hitems : ∀ x ∈ xs, (f x).IsCompound ∧ Makes limit read (f x) (g x)) :
    Makes (limit + 1) (fun depth => list depth read) (.list (xs.map f)) (xs.mapM g) := by
  intro depth hdepth indent space rest hspace hrest
  have hclose : run? (expect ']') (']'.toUInt8 :: rest) = some ((), rest) :=
    run?_expect_cons (by decide) rest
  cases xs with
  | nil =>
      change run? (list depth read) (space ++ '['.toUInt8 :: ']'.toUInt8 :: rest) =
        within 1 depth (some ([], rest))
      cases depth with
      | zero => rw [run?_list_zero hspace, within_exhausted]
      | succ depth =>
          have hnext : run? (nextItem true) (']'.toUInt8 :: rest) = some (false, ']'.toUInt8 :: rest) :=
            run?_nextItem_close blank_nil true
          rw [run?_list_succ hspace, within_succ, within_zero, items, run?_bind, hnext]
          simp [hclose]
  | cons x xs =>
      obtain ⟨hx, hxs⟩ := List.forall_mem_cons.mp hitems
      rw [List.map_cons, utf8Bytes_list_cons, Json.nesting]
      cases depth with
      | zero => rw [run?_list_zero hspace, within_exhausted]
      | succ depth =>
          have hdepth : depth ≤ limit := Nat.le_of_succ_le_succ hdepth
          have hfuel : xs.length < (utf8Bytes (Json.itemText (indent + 1) (f x)) ++
              afterItem indent (xs.map f) rest).length := by
            have hlength := length_lt_afterItem indent (xs.map f) rest
            rw [List.length_map] at hlength
            rw [List.length_append]
            omega
          have hrest : run? (items (read depth) _ false) (afterItem indent (xs.map f) rest) =
              within (Json.nestingItems (xs.map f)) depth
                ((xs.mapM g).map (·, ']'.toUInt8 :: rest)) :=
            run?_items hxs hdepth hfuel indent
          have hitems := run?_items_step hx hdepth hrest true
          rw [separator_true_append] at hitems
          rw [run?_list_succ hspace, within_succ, hitems, ← map_within, ← map_within, Option.bind_map]
          simp only [Function.comp_def, hclose, Option.map_eq_bind]
          rfl

theorem makes_pair {j₁ j₂ : Json} {made₁ made₂ : Option α}
    (h₁ : j₁.IsCompound ∧ Makes limit read j₁ made₁) (h₂ : j₂.IsCompound ∧ Makes limit read j₂ made₂) :
    Makes (limit + 1) (fun depth => pair depth read) (.list [j₁, j₂])
      (made₁.bind fun a => made₂.map fun b => (a, b)) := by
  intro depth hdepth indent space rest hspace hrest
  rw [utf8Bytes_list_cons]
  unfold pair
  rw [run?_bind, run?_expect hspace (by decide), Option.bind_some, run?_bind]
  cases depth with
  | zero => rfl
  | succ depth =>
      have hdepth : depth ≤ limit := Nat.le_of_succ_le_succ hdepth
      have hclose : run? (expect ']') (afterItem indent [] rest) = some ((), rest) :=
        run?_expect (blank_newLine indent) (by decide) rest
      have hfirst := run?_nextItem_read (β := α × α) h₁.1 h₁.2 hdepth true (indent + 1)
        (ends_afterItem indent [j₂] rest)
      have hsecond := run?_nextItem_read (β := α × α) h₂.1 h₂.2 hdepth false (indent + 1)
        (ends_afterItem indent [] rest)
      rw [separator_true_append] at hfirst
      simp only [enter, run?_pure, Option.bind_some]
      rw [hfirst, afterItem_cons]
      have hnesting : (Json.list [j₁, j₂]).nesting = max j₁.nesting j₂.nesting + 1 := by
        simp [Json.nesting, Json.nestingItems]
      have hboth (a : α) : ((within j₂.nesting depth made₂).bind fun b => some ((a, b), rest)) =
          within j₂.nesting depth (made₂.map fun b => ((a, b), rest)) := by
        rw [← map_within, Option.map_eq_bind]
        rfl
      simp only [hsecond, run?_bind, hclose, Option.bind_some, run?_pure, hboth, within_bind]
      rw [hnesting, within_succ]
      congr 1
      cases made₁ <;> cases made₂ <;> rfl

end Lists

/-! ### Records and variants -/

/-- A member as it is read: its name, a colon and its value. -/
theorem utf8Bytes_memberText (indent : Nat) (name : String) (j : Json) (rest : List UInt8) :
    utf8Bytes (Json.memberText indent name j) ++ rest =
      utf8Bytes (Json.newLine indent) ++ (utf8Bytes (Json.quote name) ++
        ':'.toUInt8 :: ([' '.toUInt8] ++ (utf8Bytes (Json.indented indent j) ++ rest))) := by
  rw [Json.memberText]
  simp only [utf8Bytes_append, List.append_assoc]
  rw [utf8Bytes_cons_ascii (by decide), utf8Bytes_cons_ascii (by decide)]
  rfl

/-- What follows the first member of an object, up to its end. -/
def afterMember (indent : Nat) (members : List (String × Json)) (rest : List UInt8) : List UInt8 :=
  utf8Bytes (Json.indentedMembers (indent + 1) members) ++
    (utf8Bytes (Json.newLine indent) ++ '\x7d'.toUInt8 :: rest)

theorem afterMember_cons (indent : Nat) (name : String) (j : Json) (members : List (String × Json))
    (rest : List UInt8) :
    afterMember indent ((name, j) :: members) rest = separator false ++
      (utf8Bytes (Json.memberText (indent + 1) name j) ++ afterMember indent members rest) := by
  rw [afterMember, Json.indentedMembers_cons, utf8Bytes_cons_ascii (by decide), utf8Bytes_append,
    List.cons_append, List.append_assoc]
  rfl

theorem utf8Bytes_object_cons (indent : Nat) (name : String) (j : Json)
    (members : List (String × Json)) (rest : List UInt8) :
    utf8Bytes (Json.indented indent (.object ((name, j) :: members))) ++ rest = '\x7b'.toUInt8 ::
      (utf8Bytes (Json.memberText (indent + 1) name j) ++ afterMember indent members rest) := by
  rw [Json.indented_object_cons, utf8Bytes_cons_ascii (by decide)]
  simp only [utf8Bytes_append, List.cons_append, List.append_assoc]
  rfl

theorem ends_afterMember (indent : Nat) (members : List (String × Json)) (rest : List UInt8) :
    Ends (afterMember indent members rest) := by
  cases members with
  | nil => exact ends_newLine indent _
  | cons member members =>
      rw [afterMember_cons]
      exact ends_cons_comma _

theorem length_lt_afterMember (indent : Nat) (members : List (String × Json)) (rest : List UInt8) :
    members.length < (afterMember indent members rest).length := by
  induction members with
  | nil =>
      simp only [afterMember, List.length_nil, List.length_append, List.length_cons]
      omega
  | cons member members ih =>
      rw [afterMember_cons, ← cons_comma]
      simp only [List.length_cons, List.length_append]
      omega

theorem run?_nextName_close (hspace : Blank space) (first : Bool) :
    run? (nextName first) (space ++ '\x7d'.toUInt8 :: rest) =
      some (none, '\x7d'.toUInt8 :: rest) := by
  unfold nextName
  rw [run?_bind, run?_peek_append hspace (by decide)]
  rfl

theorem run?_nextName_open (hspace : Blank space) (first : Bool) (name : String) :
    run? (nextName first) (separator first ++ (space ++ (utf8Bytes (Json.quote name) ++ rest))) =
      some (some name, rest) := by
  unfold nextName
  cases first with
  | true =>
      have hbrace : '"'.toUInt8 ≠ '\x7d'.toUInt8 := by decide
      have hname := run?_string blank_nil name rest
      rw [List.nil_append, utf8Bytes_quote] at hname
      rw [separator_true_append, utf8Bytes_quote, run?_bind, run?_peek_append hspace (by decide)]
      simp [hbrace, hname]
  | false =>
      have hbrace : ','.toUInt8 ≠ '\x7d'.toUInt8 := by decide
      have hcomma := run?_expect_cons (c := ',') (by decide)
        (space ++ (utf8Bytes (Json.quote name) ++ rest))
      rw [← cons_comma, run?_bind, run?_peek_cons (by decide)]
      simp [hbrace, hcomma, run?_string hspace]

section Records

variable {fields : List (Field σ)}

theorem run?_members_step {name : String} {j : Json} {ms : List (String × Json)} {get : σ → Option α}
    {put : σ → α → σ} {read : Nat → ByteReader α} {record : σ} {made : Option α}
    {final : α → Option σ}
    (hfind : (fields.find? fun field => field.name = name) = some (field name get put read))
    (hmissing : get record = none) (hmakes : Makes limit read j made) {depth : Nat}
    (hdepth : depth ≤ limit) {fuel indent : Nat}
    (hrest : ∀ a ∈ made,
      run? (members fields depth fuel false (put record a)) (afterMember indent ms rest) =
        within (Json.nestingMembers ms) depth ((final a).map (·, '\x7d'.toUInt8 :: rest)))
    (first : Bool) :
    run? (members fields depth (fuel + 1) first record) (separator first ++
        (utf8Bytes (Json.memberText (indent + 1) name j) ++ afterMember indent ms rest)) =
      within (Json.nestingMembers ((name, j) :: ms)) depth
        ((made.bind final).map (·, '\x7d'.toUInt8 :: rest)) := by
  have hread := hmakes depth hdepth (indent + 1) _ _ blank_space (ends_afterMember indent ms rest)
  have hcolon := run?_expect_cons (c := ':') (by decide) ([' '.toUInt8] ++
    (utf8Bytes (Json.indented (indent + 1) j) ++ afterMember indent ms rest))
  rw [members, utf8Bytes_memberText, run?_bind, run?_nextName_open (blank_newLine (indent + 1)),
    Option.bind_some]
  simp only [hfind, field, hmissing, Option.isSome_none]
  rw [if_neg Bool.false_ne_true, run?_bind, hcolon, Option.bind_some, run?_bind, run?_finish, hread,
    ← map_within, Option.bind_map, Option.bind_map, Json.nestingMembers]
  refine (Option.bind_congr fun a ha => hrest a (mem_of_mem_within ha)).trans ?_
  rw [within_bind]
  cases made <;> rfl

/-- What reading the members in order makes of a record, each of them read by the field of its name,
which the record does not have yet. -/
inductive MakesMembers (limit : Nat) (fields : List (Field σ)) :
    σ → List (String × Json) → Option σ → Prop
  | nil (record : σ) : MakesMembers limit fields record [] (some record)
  | cons {α : Type} {record : σ} {name : String} {j : Json} {members : List (String × Json)}
      {get : σ → Option α} {put : σ → α → σ} {read : Nat → ByteReader α} {made : Option α}
      {final : α → Option σ}
      (hfind : (fields.find? fun field => field.name = name) = some (field name get put read))
      (hmissing : get record = none) (hmakes : Makes limit read j made)
      (hrest : ∀ a ∈ made, MakesMembers limit fields (put record a) members (final a)) :
      MakesMembers limit fields record ((name, j) :: members) (made.bind final)

theorem MakesMembers.run?_members {record : σ} {ms : List (String × Json)} {made : Option σ}
    (h : MakesMembers limit fields record ms made) {depth : Nat} (hdepth : depth ≤ limit) {fuel : Nat}
    (hfuel : ms.length < fuel) (indent : Nat) (rest : List UInt8) :
    run? (members fields depth fuel false record) (afterMember indent ms rest) =
      within (Json.nestingMembers ms) depth (made.map (·, '\x7d'.toUInt8 :: rest)) := by
  obtain ⟨fuel, rfl⟩ := Nat.exists_eq_add_one_of_ne_zero (Nat.ne_zero_of_lt hfuel)
  induction h generalizing fuel with
  | nil record =>
      change run? _ (utf8Bytes (Json.newLine indent) ++ '\x7d'.toUInt8 :: rest) = _
      rw [members, run?_bind, run?_nextName_close (blank_newLine indent)]
      simp [Json.nestingMembers, within_zero]
  | @cons α record name j ms get put read made final hfind hmissing hmakes hrest ih =>
      rw [List.length_cons] at hfuel
      obtain ⟨fuel, rfl⟩ := Nat.exists_eq_add_one_of_ne_zero (n := fuel) (by omega)
      rw [afterMember_cons]
      exact run?_members_step hfind hmissing hmakes hdepth
        (fun a ha => ih a ha fuel (by omega)) false

theorem makes_record {empty : σ} {name : String} {j : Json} {ms : List (String × Json)}
    {made : Option σ} (h : MakesMembers limit fields empty ((name, j) :: ms) made)
    {finish : σ → Option α} {result : Option α} (hfinish : made.bind finish = result) :
    Makes (limit + 1) (record empty fields finish) (.object ((name, j) :: ms)) result := by
  subst hfinish
  intro depth hdepth indent space rest hspace hrest
  rw [utf8Bytes_object_cons]
  unfold record
  rw [run?_bind, run?_peek_append hspace (by decide), Option.bind_some]
  simp only [if_true]
  rw [run?_bind, run?_skipByte, Option.bind_some, run?_bind]
  cases depth with
  | zero => rfl
  | succ depth =>
      have hdepth : depth ≤ limit := Nat.le_of_succ_le_succ hdepth
      have hclose : run? (expect '\x7d') ('\x7d'.toUInt8 :: rest) = some ((), rest) :=
        run?_expect_cons (by decide) rest
      have hfuel : ms.length < (utf8Bytes (Json.memberText (indent + 1) name j) ++
          afterMember indent ms rest).length := by
        have hlength := length_lt_afterMember indent ms rest
        rw [List.length_append]
        omega
      cases h with
      | cons hfind hmissing hmakes hmembers =>
          have hmembers := run?_members_step hfind hmissing hmakes hdepth
            (fun a ha => (hmembers a ha).run?_members hdepth hfuel indent rest) true
          rw [separator_true_append] at hmembers
          have hfinish (record : σ) : run? (do
              let result ← ofOption (finish record)
              expect '\x7d'
              pure result) ('\x7d'.toUInt8 :: rest) = (finish record).map (·, rest) := by
            rw [run?_bind, run?_ofOption]
            cases finish record <;> simp [hclose]
          simp only [enter, run?_pure, Option.bind_some]
          rw [run?_bind, run?_get, Option.bind_some, run?_bind, hmembers, ← map_within,
            Option.bind_map, bind_within, Json.nesting, within_succ, Option.map_bind]
          exact congrArg _ (Option.bind_congr fun record _ => hfinish record)

end Records

/-! ### Variants with a payload, and values that may be missing -/

theorem makes_variant {plain : String → Option α}
    {payload : (depth : Nat) → String → Option (ByteReader α)} {name : String}
    {read : Nat → ByteReader α} {j : Json} {made : Option α} (hplain : plain name = none)
    (hpayload : ∀ depth, payload depth name = some (read depth)) (h : Makes limit read j made) :
    Makes (limit + 1) (fun depth => variant depth plain payload) (.variant name j) made := by
  intro depth hdepth indent space rest hspace hrest
  rw [Json.variant, utf8Bytes_object_cons]
  unfold variant
  rw [run?_bind, run?_peek_append hspace (by decide), Option.bind_some]
  have hquote : '\x7b'.toUInt8 ≠ '"'.toUInt8 := by decide
  simp only [hquote, if_false, if_true]
  rw [run?_bind, run?_skipByte, Option.bind_some, run?_bind]
  cases depth with
  | zero => rfl
  | succ depth =>
      have hdepth : depth ≤ limit := Nat.le_of_succ_le_succ hdepth
      have hread := h depth hdepth (indent + 1) _ _ blank_space
        (ends_afterMember indent [] rest)
      have hcolon := run?_expect_cons (c := ':') (by decide) ([' '.toUInt8] ++
        (utf8Bytes (Json.indented (indent + 1) j) ++ afterMember indent [] rest))
      have hclose : run? (expect '\x7d') (afterMember indent [] rest) = some ((), rest) :=
        run?_expect (blank_newLine indent) (by decide) rest
      have hnesting : (Json.object [(name, j)]).nesting = j.nesting + 1 := by
        simp [Json.nesting, Json.nestingMembers]
      simp only [enter, run?_pure, Option.bind_some]
      rw [run?_bind, utf8Bytes_memberText, run?_string (blank_newLine (indent + 1)), Option.bind_some,
        hnesting, within_succ]
      simp only [hplain, hpayload]
      rw [run?_bind, hcolon, Option.bind_some, run?_bind, hread, bind_within, Option.bind_map]
      congr 1
      cases made <;> simp [hclose]

theorem makes_missing (read : Nat → ByteReader α) :
    Makes limit (fun depth => optional (read depth)) .null (some none) := by
  apply makes_of_scalar rfl
  intro depth space rest hspace hrest
  have hnull := run?_null blank_nil rest
  change run? _ (space ++ 'n'.toUInt8 :: _) = _
  unfold optional
  rw [run?_bind, run?_peek_append hspace (by decide), Option.bind_some, if_pos rfl]
  exact (run?_bind _ _ _).trans (congrArg (Option.bind · _) hnull)

theorem makes_present {read : Nat → ByteReader α} {j : Json} {made : Option α} (hj : j.IsCompound)
    (h : Makes limit read j made) :
    Makes limit (fun depth => optional (read depth)) j (made.map some) := by
  intro depth hdepth indent space rest hspace hrest
  obtain ⟨b, tail, htext, hb⟩ := head_compound hj indent
  have hspace' : isSpace b = false := by
    rcases hb with rfl | rfl <;> decide
  have hnull : some b ≠ some 'n'.toUInt8 := by
    rcases hb with rfl | rfl <;> decide
  have hread := h depth hdepth indent [] rest blank_nil hrest
  rw [htext, List.nil_append, List.cons_append] at hread
  unfold optional
  rw [htext, List.cons_append, run?_bind, run?_peek_append hspace hspace', Option.bind_some,
    if_neg hnull, run?_finish, hread, map_within, Option.map_map, Option.map_map]
  rfl

end JsonReader

end RowCode
