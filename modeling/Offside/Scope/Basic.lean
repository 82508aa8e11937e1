import Offside.Ty.Basic

/-!
# Scope/Basic — names and what they are bound to

Scopes nest: a name is looked up from the innermost scope outwards (`lookup?`), and declared in the
innermost one alone.  The scope of a function also holds the type of its answers, once one is known.
-/

namespace Offside

/-- What a name is bound to. -/
structure Binding where
  mutable : Bool
  type : Ty
deriving Repr

namespace Scope

/-- What a scope belongs to. -/
inductive Kind where
  | global | block | function
deriving DecidableEq, Repr

end Scope

/-- The names declared in one place. -/
structure Scope where
  kind : Scope.Kind
  /-- The bindings; of two for one name the first one counts. -/
  bindings : List (String × Binding)
  /-- The type of the answers of a function, once one is known. -/
  answer : Option Ty
deriving Repr

namespace Scope

/-- A scope without names. -/
def empty (kind : Kind) : Scope := ⟨kind, [], none⟩

/-- What a name is bound to in this scope. -/
def get? (scope : Scope) (name : String) : Option Binding := scope.bindings.lookup name

/-- Whether a name is declared in this scope. -/
def declares (scope : Scope) (name : String) : Bool := (scope.get? name).isSome

/-- Binds a name, in place of what it was bound to. -/
def define (scope : Scope) (name : String) (binding : Binding) : Scope :=
  { scope with bindings := (name, binding) :: scope.bindings }

/-- Records the type of the answers of a function. -/
def setAnswer (scope : Scope) (type : Ty) : Scope := { scope with answer := some type }

@[simp] theorem get?_define (scope : Scope) (name other : String) (binding : Binding) :
    (scope.define name binding).get? other =
      if other = name then some binding else scope.get? other := by
  by_cases h : other = name
  · simp [get?, define, h]
  · simp [get?, define, List.lookup_cons, beq_false_of_ne h, h]

end Scope

/-- What a name is bound to in the innermost of these scopes that declares it. -/
def lookup? (scopes : List Scope) (name : String) : Option Binding :=
  scopes.findSome? (·.get? name)

end Offside
