import RowCode.Proofs.Agreement
import RowCode.Proofs.Replacement
import RowCode.Proofs.Scoping

/-!
# Expanding declared variables

Putting initializers in place of the variables they are declared for, as often as it takes, leaves
the row alone. It takes at most as many rounds as there are declarations, because each one only
mentions earlier ones; more rounds change nothing, and neither do declarations that come later.
-/

namespace RowCode

namespace Block

def initOf? (b : Block) (name : String) : Option Expr :=
  (b.statements.find? fun d => d.name = name).map Declaration.init

def inline (b : Block) : Expr → Expr := Expr.replace b.initOf?

/-- Replaces declared variables by their initializers, and so on in what these bring in. -/
def expand (b : Block) : Expr → Expr := b.inline^[b.length]

/-- An expression without function literals that can be written after the declarations. -/
structure Tame (row : Variable) (statements : List Declaration) (e : Expr) : Prop where
  inScope : ∀ v ∈ e.vars, v ∈ visible [row] statements
  firstOrder : e.FirstOrder

/-- A block whose variables can be traced back to the row. -/
structure Traceable (row : Variable) (b : Block) : Prop where
  wellScoped : b.Scoped [row]
  firstOrder : ∀ d ∈ b.statements, d.init.FirstOrder
  reserved : b.Reserves row.name

variable {row v : Variable} {b b' : Block} {e : Expr} {statements more : List Declaration}

theorem compositional_tame (row : Variable) (statements : List Declaration) :
    Expr.Compositional (Tame row statements) := by
  have hboth := (Expr.compositional_vars (· ∈ visible [row] statements)).and
    Expr.compositional_firstOrder
  have hsame : Tame row statements = fun e =>
      (∀ v ∈ e.vars, v ∈ visible [row] statements) ∧ e.FirstOrder :=
    funext fun e => propext ⟨fun h => ⟨h.inScope, h.firstOrder⟩, fun h => ⟨h.1, h.2⟩⟩
  rwa [hsame]

theorem tame_var (hv : v ∈ visible [row] statements) : Tame row statements (.var v) :=
  ⟨fun w hw => by rwa [List.mem_singleton.mp hw], trivial⟩

theorem Tame.mono (h : Tame row statements e) (hmore : statements <+: more) :
    Tame row more e := by
  refine ⟨fun v hv => ?_, h.firstOrder⟩
  obtain ⟨rest, rfl⟩ := hmore
  rw [visible, List.map_append, ← List.append_assoc]
  exact List.mem_append_left _ (h.inScope v hv)

theorem Tame.eq_row (h : Tame row [] e) : ∀ v ∈ e.vars, v = row :=
  fun v hv => by simpa [visible] using h.inScope v hv

theorem inline_eq_id (hrow : b.initOf? row.name = none) (h : Tame row [] e) : b.inline e = e := by
  refine ((Expr.homomorphism_replace _).compositional_eq .id).of_firstOrder e h.firstOrder ?_
  intro v hv
  rw [h.eq_row v hv, Expr.replace, hrow]
  rfl

theorem homomorphism_expand (b : Block) : Expr.Homomorphism b.expand :=
  (Expr.homomorphism_replace _).iterate _

namespace Traceable

variable (h : b.Traceable row)

include h

theorem initOf?_row : b.initOf? row.name = none := by
  rw [initOf?, Option.map_eq_none_iff, List.find?_eq_none]
  exact fun d hd hname => h.reserved.undeclared d hd (of_decide_eq_true hname)

theorem initOf?_of_split {before rest : List Declaration} {d : Declaration}
    (hsplit : b.statements = before ++ d :: rest) : b.initOf? d.name = some d.init := by
  have hdistinct := h.wellScoped.distinct
  rw [hsplit, List.map_append, List.map_cons] at hdistinct
  have hbefore : before.find? (fun d' => d'.name = d.name) = none := by
    refine List.find?_eq_none.mpr fun d' hd' hname => ?_
    have hsame : d'.name = d.name := of_decide_eq_true hname
    exact List.disjoint_of_nodup_append hdistinct (List.mem_map_of_mem hd')
      (hsame ▸ List.mem_cons_self)
  rw [initOf?, hsplit, List.find?_append, hbefore, Option.none_or, List.find?_cons_of_pos (by simp)]
  rfl

/-- **One round of expansion.** What mentions only the first `k + 1` declarations mentions only the
first `k` of them afterwards. -/
theorem inline_tame {k : Nat} (he : Tame row (b.statements.take (k + 1)) e) :
    Tame row (b.statements.take k) (b.inline e) := by
  refine ((Expr.homomorphism_replace b.initOf?).compositional_image
    (compositional_tame row (b.statements.take k))).of_firstOrder e he.firstOrder fun v hv => ?_
  rcases List.mem_append.mp (he.inScope v hv) with hinput | hdeclared
  · obtain rfl := List.mem_singleton.mp hinput
    rw [Expr.replace, h.initOf?_row]
    exact tame_var List.mem_cons_self
  · obtain ⟨d, hd, rfl⟩ := List.mem_map.mp hdeclared
    obtain ⟨before, rest, htake⟩ := List.append_of_mem hd
    have hsplit : b.statements = before ++ d :: (rest ++ b.statements.drop (k + 1)) := by
      rw [← List.cons_append, ← List.append_assoc, ← htake, List.take_append_drop]
    have hlength : before.length ≤ k := by
      have hshort : (before ++ d :: rest).length ≤ k + 1 := htake ▸ List.length_take_le ..
      rw [List.length_append, List.length_cons] at hshort
      omega
    have hbefore : before <+: b.statements.take k := by
      refine List.prefix_take_iff.mpr ⟨⟨_, hsplit.symm⟩, hlength⟩
    have hinit : b.initOf? d.target.name = some d.init := h.initOf?_of_split hsplit
    rw [Expr.replace, hinit]
    exact Tame.mono ⟨h.wellScoped.ordered _ _ _ hsplit,
      h.firstOrder d (hsplit ▸ List.mem_append_right _ List.mem_cons_self)⟩ hbefore

theorem inline_tame_self (he : Tame row b.statements e) : Tame row b.statements (b.inline e) := by
  have htake : Tame row (b.statements.take (b.length + 1)) e := by
    rwa [List.take_of_length_le (show b.statements.length ≤ b.length + 1 from Nat.le_succ _)]
  exact (h.inline_tame htake).mono ⟨_, List.take_append_drop _ _⟩

theorem iterate_tame {k : Nat} (he : Tame row (b.statements.take k) e) :
    Tame row [] (b.inline^[k] e) := by
  induction k generalizing e with
  | zero => exact he
  | succ k ih =>
      rw [Function.iterate_succ_apply]
      exact ih (h.inline_tame he)

theorem iterate_eq {k n : Nat} (he : Tame row (b.statements.take k) e) (hle : k ≤ n) :
    b.inline^[n] e = b.inline^[k] e := by
  obtain ⟨m, rfl⟩ := Nat.exists_eq_add_of_le' hle
  rw [Function.iterate_add_apply]
  exact Function.iterate_fixed (inline_eq_id h.initOf?_row (h.iterate_tame he)) m

theorem iterate_eq_expand {n : Nat} (he : Tame row b.statements e) (hle : b.length ≤ n) :
    b.inline^[n] e = b.expand e :=
  h.iterate_eq (by rwa [Block.length, List.take_length]) hle

theorem expand_tame (he : Tame row b.statements e) : Tame row [] (b.expand e) :=
  h.iterate_tame (by rwa [Block.length, List.take_length])

theorem expand_row : b.expand (.var row) = .var row :=
  Function.iterate_fixed (inline_eq_id h.initOf?_row (tame_var List.mem_cons_self)) _

/-- **A variable expands to what it is declared to hold.** -/
theorem expand_target {d : Declaration} (hd : d ∈ b.statements) :
    b.expand (.var d.target) = b.expand d.init := by
  obtain ⟨before, rest, hsplit⟩ := List.append_of_mem hd
  have hlength : b.length = before.length + rest.length + 1 := by
    rw [Block.length, hsplit, List.length_append, List.length_cons, Nat.add_assoc]
  have hbefore : b.statements.take before.length = before := by rw [hsplit, List.take_left]
  have hinit : Tame row (b.statements.take before.length) d.init :=
    ⟨hbefore.symm ▸ h.wellScoped.ordered _ _ _ hsplit, h.firstOrder d hd⟩
  have hstep : b.inline (.var d.target) = d.init := by
    have hfound : b.initOf? d.target.name = some d.init := h.initOf?_of_split hsplit
    rw [inline, Expr.replace, hfound]
    rfl
  rw [expand, hlength, Function.iterate_succ_apply, hstep, Function.iterate_succ_apply',
    h.iterate_eq hinit (Nat.le_add_right _ _),
    inline_eq_id h.initOf?_row (h.iterate_tame hinit)]

theorem ty_inline (he : Tame row b.statements e) : (b.inline e).ty = e.ty := by
  refine (Expr.homomorphism_replace _).ty_eq he.firstOrder fun v hv => ?_
  rcases List.mem_append.mp (he.inScope v hv) with hinput | hdeclared
  · obtain rfl := List.mem_singleton.mp hinput
    rw [Expr.replace, h.initOf?_row]
    rfl
  · obtain ⟨d, hd, rfl⟩ := List.mem_map.mp hdeclared
    obtain ⟨before, rest, hsplit⟩ := List.append_of_mem hd
    have hinit : b.initOf? d.target.name = some d.init := h.initOf?_of_split hsplit
    rw [Expr.replace, hinit]
    exact (h.wellScoped.typed d hd).symm

/-- **Expansion keeps types.** -/
theorem ty_expand (he : Tame row b.statements e) : (b.expand e).ty = e.ty := by
  have hiterate : ∀ (n : Nat) (e : Expr), Tame row b.statements e →
      (b.inline^[n] e).ty = e.ty := by
    intro n
    induction n with
    | zero => exact fun e he => rfl
    | succ n ih =>
        intro e he
        rw [Function.iterate_succ_apply, ih _ (h.inline_tame_self he), h.ty_inline he]
  exact hiterate _ e he

theorem name_mem (hv : v ∈ visible [row] b.statements) : v.name ∈ b.names := by
  rcases List.mem_append.mp hv with hinput | hdeclared
  · obtain rfl := List.mem_singleton.mp hinput
    exact h.reserved.taken
  · obtain ⟨d, hd, rfl⟩ := List.mem_map.mp hdeclared
    exact h.wellScoped.named d hd

/-- **Later declarations do not matter.** -/
theorem expand_of_grows (hgrows : b.Grows b') (he : Tame row b.statements e) :
    b'.expand e = b.expand e := by
  obtain ⟨added, hstatements, -, hfresh⟩ := hgrows.exists_added
  have hinit : ∀ name ∈ b.names, b'.initOf? name = b.initOf? name := by
    intro name hname
    have hadded : added.find? (fun d => d.name = name) = none := by
      refine List.find?_eq_none.mpr fun d hd hsame => hfresh d hd ?_
      rwa [of_decide_eq_true hsame]
    rw [initOf?, hstatements, List.find?_append, hadded, Option.or_none]
    rfl
  have hinline : ∀ e, Tame row b.statements e → b'.inline e = b.inline e := by
    intro e he
    refine ((Expr.homomorphism_replace _).compositional_eq
      (Expr.homomorphism_replace _)).of_firstOrder e he.firstOrder fun v hv => ?_
    rw [Expr.replace, Expr.replace, hinit _ (h.name_mem (he.inScope v hv))]
  have hiterate : ∀ (n : Nat) (e : Expr), Tame row b.statements e →
      b'.inline^[n] e = b.inline^[n] e := by
    intro n
    induction n with
    | zero => exact fun e he => rfl
    | succ n ih =>
        intro e he
        rw [Function.iterate_succ_apply, hinline e he, ih _ (h.inline_tame_self he),
          Function.iterate_succ_apply]
  have hlength : b.length ≤ b'.length := by
    rw [Block.length, Block.length, hstatements, List.length_append]
    exact Nat.le_add_right _ _
  rw [expand, hiterate _ e he, h.iterate_eq_expand he hlength]

/-- **Naming is transparent.** The block stays traceable, and the new variable expands as what it
was declared for. -/
theorem declareFinal (he : Tame row b.statements e) (suggestion : String) :
    (b.declareFinal suggestion e).2.Traceable row ∧
      Tame row (b.declareFinal suggestion e).2.statements (.var (b.declareFinal suggestion e).1) ∧
      (b.declareFinal suggestion e).2.expand (.var (b.declareFinal suggestion e).1) = b.expand e := by
  have hgrows := b.grows_declareFinal suggestion e
  have hlast : (⟨(b.declareFinal suggestion e).1, e, true⟩ : Declaration) ∈
      (b.declareFinal suggestion e).2.statements := by
    rw [statements_declareFinal]
    exact List.mem_append_right _ List.mem_cons_self
  have htraceable : (b.declareFinal suggestion e).2.Traceable row := by
    refine ⟨h.wellScoped.declareFinal he.inScope suggestion, ?_, h.reserved.grows hgrows⟩
    intro d hd
    rcases mem_statements_declareFinal hd with hold | rfl
    · exact h.firstOrder d hold
    · exact he.firstOrder
  refine ⟨htraceable, tame_var (mem_visible_declareFinal suggestion), ?_⟩
  rw [← h.expand_of_grows hgrows he]
  exact htraceable.expand_target hlast

/-- **Binding the row is transparent.** -/
theorem append_row (suggestion : String) :
    (b.append suggestion (.var row)).2.Traceable row ∧
      Tame row (b.append suggestion (.var row)).2.statements
        (.var (b.append suggestion (.var row)).1) ∧
      (b.append suggestion (.var row)).2.expand (.var (b.append suggestion (.var row)).1) =
        .var row := by
  unfold append
  cases hholder : b.holder? (.var row) with
  | none =>
      obtain ⟨htraceable, htame, hexpand⟩ := h.declareFinal (tame_var List.mem_cons_self) suggestion
      exact ⟨htraceable, htame, hexpand.trans h.expand_row⟩
  | some v =>
      have hholds := holds_of_holder?_eq_some (Expr.floatFree_var row) hholder
      exact ⟨h, tame_var (holder?_mem_visible hholder),
        (h.expand_target hholds).trans h.expand_row⟩

end Traceable

end Block

end RowCode
