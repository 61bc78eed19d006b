import RowCode.Host.Expr

/-!
# Coercion

Conversions between host types, following the boxing rules: a box is only ever cast to its own
primitive.
-/

namespace RowCode.Expr

/-- Brings a reference to primitive `p`. A value whose type is not known to be a box is cast to the
box of `p` and read; a different box is read as `p`; the box of `p` is cast. -/
def readAs (e : Expr) (p : Primitive) : Expr :=
  match e.ty.unboxed? with
  | none => .call (.cast e (.boxed p)) p.valueMethod [] (.primitive p)
  | some q => if q = p then .cast e (.primitive p) else .call e p.valueMethod [] (.primitive p)

/-- The expression as a value of the target type; one that has the type is left alone. -/
def coerce (e : Expr) (target : HostType) : Expr :=
  if e.ty = target then e
  else if e.ty.isPrimitive then .cast e target
  else
    match target with
    | .primitive p => e.readAs p
    | target => .cast e target

/-- A box as its primitive; any other expression is left alone. -/
def unbox (e : Expr) : Expr :=
  match e.ty.unboxed? with
  | some p => e.coerce (.primitive p)
  | none => e

theorem ty_coerce (e : Expr) (target : HostType) : (e.coerce target).ty = target := by
  unfold coerce readAs
  repeat' split
  all_goals simp_all [ty]

end RowCode.Expr
