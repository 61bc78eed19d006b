import RowCode.Host.Render

/-!
# Blocks

A block is a list of declarations together with the names that are taken. A fresh name is the one
suggested if it is free, and else the suggestion with the least number that makes it free.
-/

namespace RowCode

structure Declaration where
  target : Variable
  init : Expr
  isFinal : Bool

namespace Declaration

def name (d : Declaration) : String := d.target.name

def text (d : Declaration) : String :=
  (if d.isFinal then "final " else "") ++ d.target.ty.text ++ " " ++ d.name ++ " = " ++
    d.init.text ++ ";"

end Declaration

def numberedName (suggestion : String) (n : Nat) : String := suggestion ++ "_" ++ toString n

/-- The first free name among the suggestion with `n`, `n + 1`, …; `fuel` of them are tried. -/
def firstNumbered (taken : List String) (suggestion : String) : (fuel n : Nat) → String
  | 0, n => numberedName suggestion n
  | fuel + 1, n =>
    if numberedName suggestion n ∈ taken then firstNumbered taken suggestion fuel (n + 1)
    else numberedName suggestion n

def freshName (taken : List String) (suggestion : String) : String :=
  if suggestion ∈ taken then firstNumbered taken suggestion taken.length 1 else suggestion

structure Block where
  statements : List Declaration
  names : List String

namespace Block

def empty : Block := ⟨[], []⟩

def length (b : Block) : Nat := b.statements.length

def reserve (b : Block) (name : String) : Block := { b with names := b.names.insert name }

def newName (b : Block) (suggestion : String) : String × Block :=
  let name := freshName b.names suggestion
  (name, b.reserve name)

def add (b : Block) (d : Declaration) : Block :=
  { (b.reserve d.name) with statements := b.statements ++ [d] }

def declareFinal (b : Block) (suggestion : String) (init : Expr) : Variable × Block :=
  let target : Variable := ⟨freshName b.names suggestion, init.ty⟩
  (target, b.add ⟨target, init, true⟩)

/-- The first final variable that holds an expression. -/
def holder? (b : Block) (e : Expr) : Option Variable :=
  (b.statements.find? fun d => d.isFinal && d.init.agrees e).map Declaration.target

/-- A variable that holds the expression: one that already does, or a new one. -/
def append (b : Block) (suggestion : String) (e : Expr) : Variable × Block :=
  match b.holder? e with
  | some v => (v, b)
  | none => b.declareFinal suggestion e

/-- Keeps the first `length` declarations; the names of the others become free. -/
def rollback (b : Block) (length : Nat) : Block where
  statements := b.statements.take length
  names := b.names.filter fun name => name ∉ (b.statements.drop length).map Declaration.name

/-- Rolls back to a length that the block has had, if it still has that many declarations. -/
def rollback? (b : Block) (length : Nat) : Option Block :=
  if length ≤ b.length then some (b.rollback length) else none

def text (b : Block) : String := String.join (b.statements.map fun d => d.text ++ "\n")

theorem mem_names_reserve (b : Block) (name other : String) :
    other ∈ (b.reserve name).names ↔ other = name ∨ other ∈ b.names := by
  simp [reserve]

theorem statements_declareFinal (b : Block) (suggestion : String) (init : Expr) :
    (b.declareFinal suggestion init).2.statements =
      b.statements ++ [⟨(b.declareFinal suggestion init).1, init, true⟩] := rfl

theorem length_rollback (b : Block) (length : Nat) (h : length ≤ b.length) :
    (b.rollback length).length = length := by
  simpa [rollback, Block.length] using Nat.min_eq_left h

theorem text_add (b : Block) (d : Declaration) : (b.add d).text = b.text ++ (d.text ++ "\n") := by
  simp [text, add, String.join]

end Block

end RowCode
