import RowCode.Host.Block
import Std.Data.String.ToNat
import Mathlib.Data.List.Nodup
import Mathlib.Data.List.Perm.Subperm

/-!
# Fresh names

A fresh name is not taken. The search tries as many numbered names as there are names taken and then
settles for one more, so among the candidates one is free: they are pairwise distinct, and more of
them than names.
-/

namespace RowCode

theorem numberedName_injective (suggestion : String) :
    Function.Injective (numberedName suggestion) := by
  intro m n heq
  exact Nat.repr_injective ((String.append_right_inj _).mp heq)

/-- The search goes by numbers that are taken, and ends with one that is taken only if it gives up. -/
theorem exists_firstNumbered (taken : List String) (suggestion : String) (fuel n : Nat) :
    ∃ passed, firstNumbered taken suggestion fuel n = numberedName suggestion (n + passed) ∧
      (∀ m < passed, numberedName suggestion (n + m) ∈ taken) ∧
      (numberedName suggestion (n + passed) ∈ taken → passed = fuel) := by
  induction fuel generalizing n with
  | zero => exact ⟨0, rfl, fun m hm => absurd hm (Nat.not_lt_zero m), fun _ => rfl⟩
  | succ fuel ih =>
      rw [firstNumbered]
      by_cases hfirst : numberedName suggestion n ∈ taken
      · rw [if_pos hfirst]
        obtain ⟨passed, hfound, htaken, hlast⟩ := ih (n + 1)
        have hnumber (m : Nat) : n + 1 + m = n + (m + 1) := by omega
        rw [hnumber] at hfound hlast
        refine ⟨passed + 1, hfound, fun m hm => ?_, fun hmem => congrArg (· + 1) (hlast hmem)⟩
        cases m with
        | zero => exact hfirst
        | succ m =>
            rw [← hnumber]
            exact htaken m (Nat.lt_of_succ_lt_succ hm)
      · rw [if_neg hfirst]
        exact ⟨0, rfl, fun m hm => absurd hm (Nat.not_lt_zero m), fun hmem => absurd hmem hfirst⟩

theorem firstNumbered_not_mem (taken : List String) (suggestion : String) (n : Nat) :
    firstNumbered taken suggestion taken.length n ∉ taken := by
  obtain ⟨passed, hfound, htaken, hlast⟩ := exists_firstNumbered taken suggestion taken.length n
  rw [hfound]
  intro hmem
  have hall : ∀ i ≤ taken.length, numberedName suggestion (n + i) ∈ taken := by
    intro i hi
    rw [← hlast hmem] at hi
    rcases Nat.lt_or_eq_of_le hi with hlt | rfl
    · exact htaken i hlt
    · exact hmem
  let candidates := (List.range (taken.length + 1)).map fun i => numberedName suggestion (n + i)
  have hnodup : candidates.Nodup :=
    List.nodup_range.map fun i j heq => Nat.add_left_cancel (numberedName_injective suggestion heq)
  have hsubset : candidates ⊆ taken := by
    intro name hname
    obtain ⟨i, hi, rfl⟩ := List.mem_map.mp hname
    exact hall i (Nat.lt_succ_iff.mp (List.mem_range.mp hi))
  have hlength := (List.subperm_of_subset hnodup hsubset).length_le
  simp only [candidates, List.length_map, List.length_range] at hlength
  omega

/-- **A fresh name is not taken.** -/
theorem freshName_not_mem (taken : List String) (suggestion : String) :
    freshName taken suggestion ∉ taken := by
  unfold freshName
  by_cases htaken : suggestion ∈ taken
  · rw [if_pos htaken]
    exact firstNumbered_not_mem taken suggestion 1
  · rwa [if_neg htaken]

end RowCode
