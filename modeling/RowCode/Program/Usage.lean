import RowCode.Program.Basic

/-!
# Usage

How often each expression of a program is referred to from given roots. The body of an expression is
visited the first time it is reached, and never again, so each reference in it counts once.
-/

namespace RowCode

/-- References counted so far, and the expressions whose bodies were visited, by index. -/
structure Usage where
  counts : List Nat
  visited : List Bool
  deriving DecidableEq

namespace Usage

def empty (size : Nat) : Usage := ⟨List.replicate size 0, List.replicate size false⟩

/-- References to expression `index`; none to one outside the program. -/
def count (u : Usage) (index : Nat) : Nat := (u.counts[index]?).getD 0

def isInline (u : Usage) (index : Nat) : Bool := u.count index ≤ 1

def shared (u : Usage) : List Nat :=
  (List.range u.counts.length).filter fun index => 1 < u.count index

def isVisited (u : Usage) (index : Nat) : Bool := (u.visited[index]?).getD false

def bump (u : Usage) (index : Nat) : Usage := { u with counts := u.counts.modify index (· + 1) }

def markVisited (u : Usage) (index : Nat) : Usage := { u with visited := u.visited.set index true }

theorem count_empty (size index : Nat) : (empty size).count index = 0 := by
  by_cases h : index < size <;> simp [empty, count, h]

theorem count_bump_self (u : Usage) (index : Nat) (h : index < u.counts.length) :
    (u.bump index).count index = u.count index + 1 := by
  simp [bump, count, h]

theorem count_bump_of_ne (u : Usage) {index other : Nat} (h : other ≠ index) :
    (u.bump index).count other = u.count other := by
  simp [bump, count, h.symm]

theorem mem_shared (u : Usage) (index : Nat) : index ∈ u.shared ↔ 1 < u.count index := by
  simp only [shared, List.mem_filter, List.mem_range, decide_eq_true_eq, and_iff_right_iff_imp]
  intro h
  by_cases hi : index < u.counts.length
  · exact hi
  · simp [count, hi] at h

/-! A visit fails at a reference that leads outside the program. `follow` visits what a reference
leads to. -/

mutual

def visit (follow : Nat → Usage → Option Usage) : Node → Usage → Option Usage
  | .localRef index _, u => follow index u
  | .call _ operands _, u => visitAll follow operands u
  | .case branches otherwise _, u =>
    (visitBranches follow branches u).bind (visit follow otherwise)
  | _, u => some u

def visitAll (follow : Nat → Usage → Option Usage) : List Node → Usage → Option Usage
  | [], u => some u
  | node :: rest, u => (visit follow node u).bind (visitAll follow rest)

def visitBranches (follow : Nat → Usage → Option Usage) :
    List (Node × Node) → Usage → Option Usage
  | [], u => some u
  | (condition, result) :: rest, u =>
    (visit follow condition u).bind fun u =>
      (visit follow result u).bind (visitBranches follow rest)

end

/-- Counts a reference to one of the first `bound` expressions and visits its body if that is new.
References in a body lead to earlier expressions, so the bound falls to the index. -/
def follow (exprs : List Node) : (bound : Nat) → Nat → Usage → Option Usage
  | 0, _, _ => none
  | bound + 1, index, u =>
    if index = bound then
      let counted := u.bump index
      if counted.isVisited index then some counted
      else
        (exprs[index]?).bind fun body => visit (follow exprs bound) body (counted.markVisited index)
    else
      follow exprs bound index u

/-- Usage from the roots, unless one of them holds a reference that leads outside the program. -/
def ofRoots? (p : Program) (roots : List Node) : Option Usage :=
  visitAll (follow p.exprs p.exprs.length) roots (empty p.exprs.length)

def ofProjects? (p : Program) : Option Usage := ofRoots? p p.projects

def ofCondition? (p : Program) : Option Usage := ofRoots? p p.condition.toList

end Usage

end RowCode
