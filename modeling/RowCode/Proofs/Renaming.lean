import Mathlib.Logic.Equiv.Basic
import RowCode.Proofs.BlockGrowth
import RowCode.Proofs.Replacement

/-!
# Renaming variables

A permutation of names renames the variables of a block. Two blocks that differ by such a
permutation stay so when each declares a variable for the corresponding expression, whatever names the
two make up: the permutation is changed where it matters for new names only, which neither block has
used.
-/

namespace RowCode

variable (f : String → String)

def Variable.rename (v : Variable) : Variable := { v with name := f v.name }

namespace Expr

/-! Renames every variable, the parameters of function literals included. -/

mutual

def rename : Expr → Expr
  | constant value ty => constant value ty
  | var v => var (v.rename f)
  | call target method args ty => call (rename target) method (renameAll args) ty
  | staticCall owner method args ty => staticCall owner method (renameAll args) ty
  | construct ty args => construct ty (renameAll args)
  | binary op left right ty => binary op (rename left) (rename right) ty
  | unary op operand ty => unary op (rename operand) ty
  | conditional test ifTrue ifFalse ty =>
    conditional (rename test) (rename ifTrue) (rename ifFalse) ty
  | cast operand ty => cast (rename operand) ty
  | element array index ty => element (rename array) index ty
  | lambda parameters body => lambda (parameters.map (Variable.rename f)) (rename body)

def renameAll : List Expr → List Expr
  | [] => []
  | e :: rest => rename e :: renameAll rest

end

variable {f} {g : String → String} {names : List String} {e : Expr} {v : Variable}

theorem renameAll_eq (es : List Expr) : renameAll f es = es.map (rename f) := by
  induction es with
  | nil => rfl
  | cons e rest ih => rw [renameAll, ih, List.map_cons]

theorem homomorphism_rename (f : String → String) : Homomorphism (rename f) where
  constant _ _ := rfl
  call _ _ _ _ := by rw [rename, renameAll_eq]
  staticCall _ _ _ _ := by rw [rename, renameAll_eq]
  construct _ _ := by rw [rename, renameAll_eq]
  binary _ _ _ _ := rfl
  unary _ _ _ := rfl
  conditional _ _ _ _ := rfl
  cast _ _ := rfl
  element _ _ _ := rfl

@[simp]
theorem ty_rename : (e : Expr) → (e.rename f).ty = e.ty
  | lambda _ body => ty_rename body
  | constant _ _ | var _ | call _ _ _ _ | staticCall _ _ _ _ | construct _ _ | binary _ _ _ _
  | unary _ _ _ | conditional _ _ _ _ | cast _ _ | element _ _ _ => rfl

theorem agrees_rename_var (hf : Function.Injective f) (e : Expr) (v : Variable) :
    (e.rename f).agrees (.var (v.rename f)) = e.agrees (.var v) := by
  cases e with
  | var w =>
      have hsame : w.rename f = v.rename f ↔ w = v := by
        obtain ⟨name, ty⟩ := v
        obtain ⟨name', ty'⟩ := w
        simp only [Variable.rename, Variable.mk.injEq, hf.eq_iff]
      exact decide_eq_decide.mpr hsame
  | constant | call | staticCall | construct | binary | unary | conditional | cast | element
  | lambda => rfl

/-- An expression over the names given. -/
def Within (names : List String) (e : Expr) : Prop :=
  e.FirstOrder ∧ ∀ v ∈ e.vars, v.name ∈ names

theorem compositional_within (names : List String) : Compositional (Within names) :=
  compositional_firstOrder.and (compositional_vars _)

theorem Within.var (hname : v.name ∈ names) : Within names (.var v) :=
  ⟨trivial, fun w hw => by rwa [List.mem_singleton.mp hw]⟩

theorem Within.mono {names' : List String} (he : e.Within names) (hnames : names ⊆ names') :
    e.Within names' :=
  ⟨he.1, fun v hv => hnames (he.2 v hv)⟩

/-- What a renaming does to other names does not matter. -/
theorem Within.rename_congr (he : e.Within names) (hfg : ∀ name ∈ names, g name = f name) :
    e.rename g = e.rename f := by
  refine ((homomorphism_rename g).compositional_eq (homomorphism_rename f)).of_firstOrder e he.1 ?_
  intro v hv
  rw [rename, rename, Variable.rename, hfg v.name (he.2 v hv)]
  rfl

end Expr

def Declaration.rename (d : Declaration) : Declaration :=
  ⟨d.target.rename f, d.init.rename f, d.isFinal⟩

namespace Block

/-- The second block is the first one with its names permuted; declarations mention names of the
block only. -/
structure Renamed (π : Equiv.Perm String) (b b' : Block) : Prop where
  names : b'.names = b.names.map π
  statements : b'.statements = b.statements.map (Declaration.rename π)
  within : ∀ d ∈ b.statements, d.name ∈ b.names ∧ d.init.Within b.names

namespace Renamed

variable {π : Equiv.Perm String} {b b' : Block} {e : Expr} {v : Variable}

theorem holder?_var (h : b.Renamed π b') (v : Variable) :
    b'.holder? (.var (v.rename π)) = (b.holder? (.var v)).map (Variable.rename π) := by
  have hholds : (fun d : Declaration => d.isFinal && d.init.agrees (.var (v.rename π))) ∘
      Declaration.rename π = fun d => d.isFinal && d.init.agrees (.var v) := by
    funext d
    exact congrArg (d.isFinal && ·) (Expr.agrees_rename_var π.injective d.init v)
  rw [holder?, holder?, h.statements, List.find?_map, hholds, Option.map_map, Option.map_map]
  rfl

theorem name_of_holder? (h : b.Renamed π b') (hholder : b.holder? e = some v) :
    v.name ∈ b.names := by
  obtain ⟨d, hfound, rfl⟩ := Option.map_eq_some_iff.mp hholder
  exact (h.within d (List.mem_of_find?_eq_some hfound)).1

/-- **The step.** Two names that are new, one to each block, can be made to correspond. -/
theorem declareFinal (h : b.Renamed π b') (he : e.Within b.names)
    (suggestion suggestion' : String) :
    ∃ τ : Equiv.Perm String, (∀ name ∈ b.names, τ name = π name) ∧
      (b'.declareFinal suggestion' (e.rename π)).1 =
        (b.declareFinal suggestion e).1.rename τ ∧
      (b.declareFinal suggestion e).2.Renamed τ (b'.declareFinal suggestion' (e.rename π)).2 := by
  have hnew := b.name_declareFinal_not_mem suggestion e
  have hnew' := b'.name_declareFinal_not_mem suggestion' (e.rename π)
  have hnames := b.names_declareFinal suggestion e
  have hnames' := b'.names_declareFinal suggestion' (e.rename π)
  have hty : (b'.declareFinal suggestion' (e.rename π)).1.ty = (b.declareFinal suggestion e).1.ty :=
    Expr.ty_rename e
  have hstatements := b.statements_declareFinal suggestion e
  have hstatements' := b'.statements_declareFinal suggestion' (e.rename π)
  generalize b.declareFinal suggestion e = declared at *
  generalize b'.declareFinal suggestion' (e.rename π) = declared' at *
  obtain ⟨v, after⟩ := declared
  obtain ⟨v', after'⟩ := declared'
  let τ := π.trans (Equiv.swap (π v.name) v'.name)
  have hτ : τ v.name = v'.name := Equiv.swap_apply_left _ _
  have hold : ∀ name ∈ b.names, τ name = π name := by
    intro name hname
    refine Equiv.swap_apply_of_ne_of_ne ?_ ?_
    · exact fun hsame => hnew (π.injective hsame ▸ hname)
    · intro hsame
      exact hnew' (by rw [h.names, ← hsame]; exact List.mem_map_of_mem hname)
  have htarget : v' = v.rename τ := by
    rw [Variable.rename, hτ, ← hty]
  refine ⟨τ, hold, htarget, ?_, ?_, ?_⟩
  · rw [hnames', hnames, List.map_cons, hτ, h.names, List.map_congr_left hold]
  · have hkept : ∀ d ∈ b.statements, d.rename τ = d.rename π := fun d hd => by
      obtain ⟨hname, hinit⟩ := h.within d hd
      rw [Declaration.rename, Declaration.rename, hinit.rename_congr hold, Variable.rename,
        hold d.target.name hname]
      rfl
    rw [hstatements', hstatements, List.map_append, h.statements, List.map_congr_left hkept,
      List.map_singleton, Declaration.rename, he.rename_congr hold, htarget]
  · intro d hd
    have hsubset : b.names ⊆ after.names := by
      rw [hnames]
      exact List.subset_cons_self _ _
    rw [hstatements] at hd
    rcases List.mem_append.mp hd with hd | hlast
    · obtain ⟨hname, hinit⟩ := h.within d hd
      exact ⟨hsubset hname, hinit.mono hsubset⟩
    · rw [List.mem_singleton.mp hlast]
      refine ⟨?_, he.mono hsubset⟩
      rw [hnames]
      exact List.mem_cons_self

theorem append_var (h : b.Renamed π b') (hv : v.name ∈ b.names) (suggestion : String) :
    ∃ τ : Equiv.Perm String, (∀ name ∈ b.names, τ name = π name) ∧
      (b'.append suggestion (.var (v.rename π))).1 =
        (b.append suggestion (.var v)).1.rename τ ∧
      (b.append suggestion (.var v)).1.name ∈ (b.append suggestion (.var v)).2.names ∧
      (b.append suggestion (.var v)).2.Renamed τ (b'.append suggestion (.var (v.rename π))).2 := by
  unfold append
  rw [h.holder?_var v]
  cases hholder : b.holder? (.var v) with
  | some holder => exact ⟨π, fun _ _ => rfl, rfl, h.name_of_holder? hholder, h⟩
  | none =>
      obtain ⟨τ, hold, hnew, h'⟩ := h.declareFinal (.var hv) suggestion suggestion
      refine ⟨τ, hold, hnew, ?_, h'⟩
      rw [names_declareFinal]
      exact List.mem_cons_self

end Renamed

end Block

end RowCode
