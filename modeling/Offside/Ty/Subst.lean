import Offside.Ty.Basic

/-!
# Ty/Subst — what the variables of a type stand for

A substitution binds variables to types, in which further bound variables may occur.  `apply`
follows them as often as there are bindings: enough where no binding leads back to itself, and an
end where one does.
-/

namespace Offside

/-- Types bound to variables, each variable at most once. -/
structure Subst where
  bindings : List (Nat × Ty)
deriving Repr

namespace Subst

/-- Nothing is bound. -/
def empty : Subst := ⟨[]⟩

/-- The type bound to a variable. -/
def get? (s : Subst) (id : Nat) : Option Ty := s.bindings.lookup id

/-- Binds a variable, in place of what it was bound to. -/
def insert (s : Subst) (id : Nat) (type : Ty) : Subst :=
  ⟨(id, type) :: s.bindings.filter (·.1 != id)⟩

/-- The number of bound variables. -/
def size (s : Subst) : Nat := s.bindings.length

/-- The type with its bound variables replaced, following at most `depth` bindings in a row.  A
variable bound to itself stays. -/
def applyTo (s : Subst) : Nat → Ty → Ty
  | 0, type => type
  | depth + 1, type => type.mapVars fun id =>
    match s.get? id with
    | some bound => if bound == .var id then .var id else s.applyTo depth bound
    | none => .var id

/-- The type with its bound variables replaced. -/
def apply (s : Subst) (type : Ty) : Ty := s.applyTo s.size type

end Subst

end Offside
