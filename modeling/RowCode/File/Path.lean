/-!
# Paths

Paths are cut at slashes. Empty parts and single dots stand for nothing.
-/

namespace RowCode

namespace Path

def split : List Char → List (List Char)
  | [] => [[]]
  | '/' :: cs => [] :: split cs
  | c :: cs =>
    match split cs with
    | [] => [[c]]
    | part :: parts => (c :: part) :: parts

def parts (path : String) : List (List Char) :=
  (split path.toList).filter fun part => part ≠ [] ∧ part ≠ ['.']

/-- The last part, unless it leads upward. -/
def fileName? (path : String) : Option (List Char) :=
  match (parts path).getLast? with
  | some part => if part = ['.', '.'] then none else some part
  | none => none

/-- What follows the last dot of a file name that does not start with it. -/
def extension? (path : String) : Option String :=
  (fileName? path).bind fun name =>
    let reversed := name.reverse
    let after := reversed.takeWhile (· ≠ '.')
    match reversed.drop after.length with
    | _ :: _ :: _ => some (String.ofList after.reverse)
    | _ => none

end Path

end RowCode
