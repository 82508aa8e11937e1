import Offside.Ty.Basic

/-!
# Builtin — the functions that every program can call
-/

namespace Offside

/-- A function that every program can call.  Its type has at most one variable, which stands for
another type at every use. -/
structure Builtin where
  name : String
  parameters : List Ty
  result : Ty
deriving Repr

namespace Builtin

/-- Any type, the same throughout one function. -/
def anything : Ty := .var 0

/-- All builtin functions. -/
def all : List Builtin :=
  [⟨"print", [anything], .nil⟩,
    ⟨"text", [anything], .text⟩,
    ⟨"length", [anything], .number⟩,
    ⟨"append", [.list anything, anything], .list anything⟩,
    ⟨"floor", [.number], .number⟩,
    ⟨"abs", [.number], .number⟩,
    ⟨"empty?", [.list anything], .boolean⟩,
    ⟨"even?", [.number], .boolean⟩,
    ⟨"odd?", [.number], .boolean⟩,
    ⟨"contains?", [.list anything, anything], .boolean⟩]

/-- The builtin function of this name. -/
def find? (name : String) : Option Builtin := all.find? (·.name == name)

/-- The type of a builtin function. -/
def scheme (b : Builtin) : Ty := .function b.parameters b.result

/-- Whether a builtin function answers a Boolean. -/
def isPredicate (b : Builtin) : Bool := b.result == .boolean

/-- The type of a builtin function with the variable `next`, if it needs one, and the next variable
that is free. -/
def instantiate (b : Builtin) (next : Nat) : Ty × Nat :=
  (b.scheme.mapVars fun _ => .var next, if b.scheme.vars.isEmpty then next else next + 1)

end Builtin

end Offside
