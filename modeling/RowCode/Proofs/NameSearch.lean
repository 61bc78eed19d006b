import Mathlib.Algebra.Group.Nat.Defs
import Mathlib.Data.Finset.Card
import RowCode.Proofs.ReservedNames

/-!
# The search for a free name

A name is found by a loop: as long as the name is taken, it is replaced by the suggestion with the
next number, counted in 32 bits. The loop ends at the least number that makes the suggestion free. That
number is not larger than the number of names taken, since the suggestion and all numbered names before
it are among them; so the counter is not run through before.
-/

namespace RowCode

theorem ne_numberedName (suggestion : String) (n : Nat) : suggestion ≠ numberedName suggestion n := by
  intro heq
  have hlength := congrArg String.length heq
  have hmark : "_".length = 1 := rfl
  rw [numberedName, String.length_append, String.length_append, hmark] at hlength
  omega

/-- The suggestion with `n` is free, while the suggestion and all lower numbers are taken. -/
structure IsLeastFree (taken : List String) (suggestion : String) (n : Nat) : Prop where
  positive : 1 ≤ n
  suggested : suggestion ∈ taken
  free : numberedName suggestion n ∉ taken
  passed : ∀ m, 1 ≤ m → m < n → numberedName suggestion m ∈ taken

theorem exists_isLeastFree {taken : List String} {suggestion : String} (h : suggestion ∈ taken) :
    ∃ n, freshName taken suggestion = numberedName suggestion n ∧ IsLeastFree taken suggestion n := by
  have hfresh := freshName_not_mem taken suggestion
  obtain ⟨passed, hfound, htaken, -⟩ := exists_firstNumbered taken suggestion taken.length 1
  have hname : freshName taken suggestion = numberedName suggestion (1 + passed) := by
    rw [freshName, if_pos h, hfound]
  refine ⟨1 + passed, hname, Nat.le_add_right 1 passed, h, hname ▸ hfresh, fun m hm hlt => ?_⟩
  obtain ⟨before, rfl⟩ := Nat.exists_eq_add_of_le hm
  exact htaken before (Nat.lt_of_add_lt_add_left hlt)

/-- **Numbers stay small.** Below the least free number there is one name for each number, and the
suggestion makes up for zero. -/
theorem IsLeastFree.le_card {taken : List String} {suggestion : String} {n : Nat}
    (h : IsLeastFree taken suggestion n) : n ≤ taken.toFinset.card := by
  let candidate : Nat → String := fun m => if m = 0 then suggestion else numberedName suggestion m
  have hinjective : Set.InjOn candidate (Finset.range n) := by
    intro m _ k _ heq
    by_cases hm : m = 0
    · by_cases hk : k = 0
      · rw [hm, hk]
      · simp only [candidate, if_pos hm, if_neg hk] at heq
        exact absurd heq (ne_numberedName suggestion k)
    · by_cases hk : k = 0
      · simp only [candidate, if_neg hm, if_pos hk] at heq
        exact absurd heq.symm (ne_numberedName suggestion m)
      · simp only [candidate, if_neg hm, if_neg hk] at heq
        exact numberedName_injective suggestion heq
  have htaken : (Finset.range n).image candidate ⊆ taken.toFinset := by
    intro name hname
    obtain ⟨m, hm, rfl⟩ := Finset.mem_image.mp hname
    refine List.mem_toFinset.mpr ?_
    by_cases hzero : m = 0
    · simp only [candidate, if_pos hzero]
      exact h.suggested
    · simp only [candidate, if_neg hzero]
      exact h.passed m (Nat.one_le_iff_ne_zero.mpr hzero) (Finset.mem_range.mp hm)
  calc
    n = (Finset.range n).card := (Finset.card_range n).symm
    _ = ((Finset.range n).image candidate).card := (Finset.card_image_of_injOn hinjective).symm
    _ ≤ taken.toFinset.card := Finset.card_le_card htaken

/-! ### The loop -/

/-- The loop, at a name and a counter, ends with a result. Where additions are `checked`, an overflow
of the counter stops the program, so that there is no result; else the counter goes on with the
least number. -/
inductive SearchEnds (checked : Bool) (taken : List String) (suggestion : String) :
    String → Int32 → String → Prop where
  | found {name : String} {counter : Int32} (h : name ∉ taken) :
      SearchEnds checked taken suggestion name counter name
  | next {name result : String} {counter : Int32} (h : name ∈ taken)
      (hchecked : checked = true → counter ≠ Int32.maxValue)
      (hrest : SearchEnds checked taken suggestion
        (suggestion ++ "_" ++ toString counter.toInt) (counter + 1) result) :
      SearchEnds checked taken suggestion name counter result

theorem SearchEnds.unique {checked : Bool} {taken : List String} {suggestion name : String}
    {counter : Int32} {result result' : String}
    (h : SearchEnds checked taken suggestion name counter result)
    (h' : SearchEnds checked taken suggestion name counter result') : result = result' := by
  induction h with
  | found hfree =>
      cases h' with
      | found => rfl
      | next htaken => exact absurd htaken hfree
  | next htaken _ _ ih =>
      cases h' with
      | found hfree => exact absurd htaken hfree
      | next _ _ hrest => exact ih hrest

theorem numbered_ofNat (suggestion : String) {n : Nat} (hn : n < 2 ^ 31) :
    suggestion ++ "_" ++ toString (Int32.ofNat n).toInt = numberedName suggestion n := by
  rw [Int32.toInt_ofNat_of_lt hn]
  rfl

theorem ofNat_ne_maxValue {n : Nat} (hn : n + 1 < 2 ^ 31) : Int32.ofNat n ≠ Int32.maxValue := by
  intro heq
  have hvalue : (n : Int) = 2 ^ 31 - 1 := by
    rw [← Int32.toInt_ofNat_of_lt (Nat.lt_of_succ_lt hn), heq]
    decide
  omega

/-- From a number on, the loop passes what is taken and ends with the first name that is free. -/
theorem searchEnds_numbered {checked : Bool} {taken : List String} {suggestion : String}
    {passed n : Nat} {name : String} (hname : name ∈ taken)
    (htaken : ∀ m < passed, numberedName suggestion (n + m) ∈ taken)
    (hfree : numberedName suggestion (n + passed) ∉ taken) (hsmall : n + passed < 2 ^ 31)
    (hchecked : checked = true → n + passed + 1 < 2 ^ 31) :
    SearchEnds checked taken suggestion name (Int32.ofNat n) (numberedName suggestion (n + passed)) := by
  induction passed generalizing n name with
  | zero =>
      refine .next hname (fun htrue => ofNat_ne_maxValue (hchecked htrue)) ?_
      rw [Nat.add_zero] at hfree hsmall ⊢
      rw [numbered_ofNat suggestion hsmall]
      exact .found hfree
  | succ passed ih =>
      have hnumber : n + (passed + 1) = n + 1 + passed := by omega
      rw [hnumber] at hfree hsmall hchecked ⊢
      have hbelow : n + 1 < 2 ^ 31 := by omega
      refine .next hname (fun _ => ofNat_ne_maxValue hbelow) ?_
      have hcounter : Int32.ofNat n + 1 = Int32.ofNat (n + 1) := (Int32.ofNat_add n 1).symm
      rw [numbered_ofNat suggestion (Nat.lt_of_succ_lt hbelow), hcounter]
      refine ih (htaken 0 (Nat.succ_pos passed)) (fun m hm => ?_) hfree hsmall hchecked
      rw [Nat.add_assoc, Nat.add_comm 1 m]
      exact htaken (m + 1) (Nat.succ_lt_succ hm)

/-- **The loop ends with the fresh name.** The counter only overflows when it has been written for the
last time. -/
theorem searchEnds_iff {checked : Bool} {taken : List String} (hsmall : taken.toFinset.card < 2 ^ 31)
    (hchecked : checked = true → taken.toFinset.card + 1 < 2 ^ 31) (suggestion result : String) :
    SearchEnds checked taken suggestion suggestion 1 result ↔ result = freshName taken suggestion := by
  have hends : SearchEnds checked taken suggestion suggestion 1 (freshName taken suggestion) := by
    by_cases htaken : suggestion ∈ taken
    · obtain ⟨n, hname, hleast⟩ := exists_isLeastFree htaken
      have hle := hleast.le_card
      obtain ⟨passed, rfl⟩ := Nat.exists_eq_add_of_le hleast.positive
      have hone : (1 : Int32) = Int32.ofNat 1 := rfl
      rw [hname, hone]
      refine searchEnds_numbered htaken (fun m hm => ?_) hleast.free (by omega) fun htrue => ?_
      · exact hleast.passed (1 + m) (Nat.le_add_right 1 m) (Nat.add_lt_add_left hm 1)
      · have hbelow := hchecked htrue
        omega
    · rw [freshName, if_neg htaken]
      exact .found htaken
  constructor
  · exact fun h => h.unique hends
  · rintro rfl
    exact hends

/-! ### Names made in a row -/

/-- The name that the step reserves for what it makes. -/
def BlockStep.made? (b : Block) : BlockStep → Option String
  | .newName suggestion => some (b.newName suggestion).1
  | .declareFinal suggestion init => some (b.declareFinal suggestion init).1.name
  | .append suggestion e =>
    match b.holder? e with
    | some _ => none
    | none => some (b.append suggestion e).1.name
  | .add _ | .checkpoint | .rollback _ => none

/-- The name of the declaration that the step adds as it is. -/
def BlockStep.added? : BlockStep → Option String
  | .add d => some d.name
  | _ => none

def BlockStep.isRollback : BlockStep → Bool
  | .rollback _ => true
  | _ => false

namespace BlockHistory

/-- The names that are made in a run, one after the other. -/
def madeNames : List BlockStep → BlockHistory → List String
  | [], _ => []
  | step :: rest, h => (step.made? h.block).toList ++ (h.step? step).elim [] (madeNames rest)

variable {h : BlockHistory} {steps : List BlockStep} {step : BlockStep}

/-- **The step.** The name that it makes was free. Afterwards that name is reserved, or the name of the
declaration that is added, and no other. -/
theorem step?_names (hstep : step.isRollback = false) (h : BlockHistory) :
    (∀ name ∈ step.made? h.block, name ∉ h.block.names) ∧
      ∃ h', h.step? step = some h' ∧ ∀ name, name ∈ h'.block.names ↔
        name ∈ step.made? h.block ∨ name ∈ step.added? ∨ name ∈ h.block.names := by
  have hfresh (suggestion : String) :
      ∀ name ∈ some (freshName h.block.names suggestion), name ∉ h.block.names := by
    rintro name ⟨⟩
    exact freshName_not_mem h.block.names suggestion
  have hnone : ∀ name ∈ (none : Option String), name ∉ h.block.names := fun name hname =>
    absurd hname (Option.not_mem_none name)
  have hmade (made name : String) : name ∈ (h.block.reserve made).names ↔
      name ∈ some made ∨ name ∈ (none : Option String) ∨ name ∈ h.block.names := by
    rw [h.block.mem_names_reserve, Option.mem_some_iff, eq_comm]
    simp
  cases step with
  | newName suggestion => exact ⟨hfresh suggestion, _, rfl, hmade _⟩
  | declareFinal suggestion init => exact ⟨hfresh suggestion, _, rfl, hmade _⟩
  | append suggestion e =>
      rw [step?, BlockStep.made?, Block.append]
      cases h.block.holder? e with
      | some v => exact ⟨hnone, _, rfl, fun name => by simp [BlockStep.added?]⟩
      | none => exact ⟨hfresh suggestion, _, rfl, hmade _⟩
  | add d =>
      refine ⟨hnone, _, rfl, fun name => ?_⟩
      change name ∈ (h.block.reserve d.name).names ↔ _
      rw [h.block.mem_names_reserve]
      simp [BlockStep.added?, BlockStep.made?, eq_comm]
  | checkpoint => exact ⟨hnone, _, rfl, fun name => by simp [BlockStep.added?, BlockStep.made?]⟩
  | rollback number => cases hstep

/-- **Names that are made in a row differ.** -/
theorem madeNames_nodup (hsteps : ∀ step ∈ steps, step.isRollback = false) (h : BlockHistory) :
    (madeNames steps h).Nodup ∧ (∀ name ∈ madeNames steps h, name ∉ h.block.names) ∧
      ∃ h', after? steps h = some h' ∧ ∀ name, name ∈ h'.block.names ↔
        name ∈ madeNames steps h ∨ name ∈ steps.filterMap BlockStep.added? ∨ name ∈ h.block.names := by
  induction steps generalizing h with
  | nil => exact ⟨List.nodup_nil, nofun, h, rfl, fun name => by simp [madeNames]⟩
  | cons step rest ih =>
      obtain ⟨hstep, hrest⟩ := List.forall_mem_cons.mp hsteps
      obtain ⟨hfree, h₁, hfirst, hnames₁⟩ := step?_names hstep h
      obtain ⟨hnodup, hnew, h', hafter, hnames⟩ := ih hrest h₁
      have hmade : madeNames (step :: rest) h =
          (step.made? h.block).toList ++ madeNames rest h₁ := by
        rw [madeNames, hfirst]
        rfl
      rw [hmade]
      refine ⟨?_, ?_, h', ?_, fun name => ?_⟩
      · refine List.Nodup.append ?_ hnodup fun name hname hlater => ?_
        · cases step.made? h.block with
          | none => exact List.nodup_nil
          | some name => exact List.nodup_singleton name
        · exact hnew name hlater ((hnames₁ name).mpr (.inl (Option.mem_toList.mp hname)))
      · intro name hname
        rcases List.mem_append.mp hname with hname | hlater
        · exact hfree name (Option.mem_toList.mp hname)
        · exact fun htaken => hnew name hlater ((hnames₁ name).mpr (.inr (.inr htaken)))
      · rw [after?, hfirst, Option.bind_some, hafter]
      · have hadded : name ∈ (step :: rest).filterMap BlockStep.added? ↔
            name ∈ step.added? ∨ name ∈ rest.filterMap BlockStep.added? := by
          simp only [List.mem_filterMap, List.mem_cons, exists_eq_or_imp]
          rfl
        rw [hnames, hnames₁, hadded, List.mem_append, Option.mem_toList]
        tauto

end BlockHistory

/-- **Fresh names are the least free ones.** A suggestion that is free is taken as it is, and else with
the least number that makes it free, which is at most the number of names taken. It was not reserved
before, and afterwards it alone has been added. The loop that counts in 32 bits ends with it, whatever
fewer than `2 ^ 31` names are taken, and only overflows, if at all, after the last of all numbers. In a
run without rollbacks, from whatever names are taken, all names that are made differ. -/
theorem Block.fresh_names_are_least (b : Block) :
    (∀ suggestion, suggestion ∉ b.names → (b.newName suggestion).1 = suggestion) ∧
    (∀ suggestion, suggestion ∈ b.names → ∃ n, (b.newName suggestion).1 = numberedName suggestion n ∧
      IsLeastFree b.names suggestion n ∧ n ≤ b.names.toFinset.card) ∧
    (∀ suggestion, (b.newName suggestion).1 ∉ b.names ∧
      (b.newName suggestion).2.statements = b.statements ∧
      ∀ name, name ∈ (b.newName suggestion).2.names ↔
        name = (b.newName suggestion).1 ∨ name ∈ b.names) ∧
    (b.names.toFinset.card < 2 ^ 31 → ∀ suggestion result,
      SearchEnds false b.names suggestion suggestion 1 result ↔ result = (b.newName suggestion).1) ∧
    (b.names.toFinset.card + 1 < 2 ^ 31 → ∀ suggestion result,
      SearchEnds true b.names suggestion suggestion 1 result ↔ result = (b.newName suggestion).1) ∧
    ∀ (steps : List BlockStep) (checkpoints : List Nat),
      (∀ step ∈ steps, step.isRollback = false) →
      (BlockHistory.madeNames steps ⟨b, checkpoints⟩).Nodup ∧
      (∀ name ∈ BlockHistory.madeNames steps ⟨b, checkpoints⟩, name ∉ b.names) ∧
      ∃ h', BlockHistory.after? steps ⟨b, checkpoints⟩ = some h' ∧
        ∀ name, name ∈ h'.block.names ↔ name ∈ BlockHistory.madeNames steps ⟨b, checkpoints⟩ ∨
          name ∈ steps.filterMap BlockStep.added? ∨ name ∈ b.names := by
  refine ⟨fun suggestion hfree => if_neg hfree, fun suggestion htaken => ?_, fun suggestion => ?_,
    fun hsmall => searchEnds_iff hsmall nofun, fun hsmall => searchEnds_iff (by omega) fun _ => hsmall,
    fun steps checkpoints hsteps => BlockHistory.madeNames_nodup hsteps ⟨b, checkpoints⟩⟩
  · obtain ⟨n, hname, hleast⟩ := exists_isLeastFree htaken
    exact ⟨n, hname, hleast, hleast.le_card⟩
  · exact ⟨freshName_not_mem b.names suggestion, rfl, b.mem_names_reserve _⟩

/-- Suggestions that look like numbered names. -/
def numberedSuggestions : List BlockStep :=
  [.newName "v", .newName "v_1", .declareFinal "v" (.boolean true), .newName "v_1",
    .append "v" (.boolean true), .append "v_1" .null]

theorem Block.numbered_suggestions_stay_apart :
    BlockHistory.madeNames numberedSuggestions .start = ["v", "v_1", "v_2", "v_1_1", "v_1_2"] ∧
      (BlockHistory.madeNames numberedSuggestions .start).Nodup ∧
      SearchEnds true ["v", "v_1", "v_2"] "v" "v" 1 "v_3" := by
  have hmade := (fresh_names_are_least .empty).2.2.2.2.2 numberedSuggestions [] (by decide)
  have hsearch := (fresh_names_are_least ⟨[], ["v", "v_1", "v_2"]⟩).2.2.2.2.1 (by decide) "v" "v_3"
  exact ⟨by decide, hmade.1, hsearch.mpr (by decide)⟩

end RowCode
