import RowCode.Proofs.FreshNames

/-!
# How a block grows

All that lowering does to a block is to declare final variables. What a block gains that way can be
told apart from what it held before: the new declarations stand at its end, and the new names are
exactly theirs. So rolling the block back to its old length restores it, names included.
-/

namespace RowCode.Block

/-- The blocks that come from a block by declaring final variables. -/
inductive Grows (b : Block) : Block → Prop where
  | refl : Grows b b
  | declare {b' : Block} (suggestion : String) (init : Expr) (h : Grows b b') :
      Grows b (b'.declareFinal suggestion init).2

theorem Grows.trans {b b' b'' : Block} (h : b.Grows b') (h' : b'.Grows b'') : b.Grows b'' := by
  induction h' with
  | refl => exact h
  | declare suggestion init _ ih => exact .declare suggestion init ih

theorem grows_declareFinal (b : Block) (suggestion : String) (init : Expr) :
    b.Grows (b.declareFinal suggestion init).2 :=
  .declare suggestion init .refl

theorem grows_append (b : Block) (suggestion : String) (e : Expr) :
    b.Grows (b.append suggestion e).2 := by
  unfold append
  cases b.holder? e with
  | some v => exact .refl
  | none => exact b.grows_declareFinal suggestion e

theorem names_declareFinal (b : Block) (suggestion : String) (init : Expr) :
    (b.declareFinal suggestion init).2.names =
      (b.declareFinal suggestion init).1.name :: b.names :=
  List.insert_of_not_mem (freshName_not_mem b.names suggestion)

theorem mem_statements_declareFinal {b : Block} {suggestion : String} {init : Expr} {d : Declaration}
    (hd : d ∈ (b.declareFinal suggestion init).2.statements) :
    d ∈ b.statements ∨ d = ⟨(b.declareFinal suggestion init).1, init, true⟩ := by
  rw [statements_declareFinal] at hd
  exact (List.mem_append.mp hd).imp_right List.mem_singleton.mp

theorem name_declareFinal_not_mem (b : Block) (suggestion : String) (init : Expr) :
    (b.declareFinal suggestion init).1.name ∉ b.names :=
  freshName_not_mem b.names suggestion

/-- **What a block gains.** The new declarations follow the old ones, the new names are theirs, and
none of them was taken. -/
theorem Grows.exists_added {b b' : Block} (h : b.Grows b') :
    ∃ added : List Declaration,
      b'.statements = b.statements ++ added ∧
      b'.names = (added.map Declaration.name).reverse ++ b.names ∧
      ∀ d ∈ added, d.name ∉ b.names := by
  induction h with
  | refl => exact ⟨[], by simp, by simp, by simp⟩
  | @declare b' suggestion init _ ih =>
      obtain ⟨added, hstatements, hnames, hfresh⟩ := ih
      have hnew := b'.name_declareFinal_not_mem suggestion init
      refine ⟨added ++ [⟨(b'.declareFinal suggestion init).1, init, true⟩], ?_, ?_, ?_⟩
      · rw [statements_declareFinal, hstatements, List.append_assoc]
      · rw [names_declareFinal, hnames]
        simp [Declaration.name]
      · intro d hd
        rcases List.mem_append.mp hd with hold | hlast
        · exact hfresh d hold
        · obtain rfl := List.mem_singleton.mp hlast
          intro hmem
          exact hnew (by rw [hnames]; exact List.mem_append_right _ hmem)

theorem Grows.statements_grow {b b' : Block} (h : b.Grows b') :
    b.statements <+: b'.statements := by
  obtain ⟨added, hstatements, -, -⟩ := h.exists_added
  exact ⟨added, hstatements.symm⟩

theorem Grows.names_subset {b b' : Block} (h : b.Grows b') : b.names ⊆ b'.names := by
  obtain ⟨added, -, hnames, -⟩ := h.exists_added
  rw [hnames]
  exact List.subset_append_right _ _

/-- **Rolling back undoes growth.** -/
theorem Grows.rollback_eq {b b' : Block} (h : b.Grows b') : b'.rollback b.length = b := by
  obtain ⟨added, hstatements, hnames, hfresh⟩ := h.exists_added
  have htake : b'.statements.take b.length = b.statements := by
    rw [hstatements, length, List.take_left]
  have hdrop : b'.statements.drop b.length = added := by
    rw [hstatements, length, List.drop_left]
  have hgone : ((added.map Declaration.name).reverse.filter fun name =>
      name ∉ added.map Declaration.name) = [] := by
    refine List.filter_eq_nil_iff.mpr fun name hname => ?_
    simpa using List.mem_reverse.mp hname
  have hkept : (b.names.filter fun name => name ∉ added.map Declaration.name) = b.names := by
    refine List.filter_eq_self.mpr fun name hname => decide_eq_true ?_
    intro hadded
    obtain ⟨d, hd, rfl⟩ := List.mem_map.mp hadded
    exact hfresh d hd hname
  rw [rollback, htake, hdrop, hnames, List.filter_append, hgone, hkept, List.nil_append]

/-- The name is taken, though not by a declaration. -/
structure Reserves (b : Block) (name : String) : Prop where
  taken : name ∈ b.names
  undeclared : ∀ d ∈ b.statements, d.name ≠ name

theorem Reserves.grows {b b' : Block} {name : String} (h : b.Reserves name) (hgrows : b.Grows b') :
    b'.Reserves name := by
  obtain ⟨added, hstatements, -, hfresh⟩ := hgrows.exists_added
  refine ⟨hgrows.names_subset h.taken, fun d hd => ?_⟩
  rw [hstatements] at hd
  rcases List.mem_append.mp hd with hold | hadded
  · exact h.undeclared d hold
  · rintro rfl
    exact hfresh d hadded h.taken

end RowCode.Block
