import Offside.Builtin
import Offside.Scope.Basic
import Offside.Ty.Fit
import Offside.Typing.Fault

/-!
# Typing/Checker — where type checking stands

A checker is the scopes that are open and the number of the next variable.  While it walks over a
statement (`Check`) it also records declarations.  The walk ends early where a fault is found, and
keeps what it has declared and recorded until then; it may also find that a call has no end.
-/

namespace Offside

/-- The type recorded for a name where it is declared. -/
structure Declaration where
  name : String
  position : Position
  mutable : Bool
  type : Ty
deriving Repr

/-- A fault at a token. -/
structure TypeRefusal where
  token : Token
  fault : TypeFault
deriving Repr

/-- Where type checking stands between two statements. -/
structure Checker where
  /-- The open scopes, innermost first. -/
  scopes : List Scope
  /-- The number of the next variable. -/
  nextVar : Nat
deriving Repr

namespace Checker

/-- The scope of the builtin functions, whose variables are numbered from `next` on, and the next
number behind them. -/
def builtinScope (next : Nat) : Scope × Nat :=
  Builtin.all.foldl (fun (scope, next) builtin =>
    let (type, next) := builtin.instantiate next
    (scope.define builtin.name ⟨false, type⟩, next)) (.empty .global, next)

/-- The checker before any statement: a global scope inside that of the builtin functions. -/
def start : Checker :=
  let (builtins, next) := builtinScope 0
  ⟨[.empty .global, builtins], next⟩

end Checker

namespace Check

/-- Why a walk over a statement ends early. -/
inductive Halt where
  | refused (refusal : TypeRefusal)
  /-- In a call, with these bindings, a type leads back to itself. -/
  | endless (type : Ty) (bindings : Subst)
deriving Repr

/-- Where a walk over a statement stands. -/
structure State extends Checker where
  /-- The declarations recorded so far, newest first. -/
  recorded : List Declaration
deriving Repr

end Check

/-- A walk over part of a statement. -/
abbrev Check := EStateM Check.Halt Check.State

namespace Check

variable {α β : Type}

theorem bind_ok {w : Check α} {f : α → Check β} {s s' : State} {a : α} (h : w s = .ok a s') :
    (w >>= f) s = f a s' := by
  change EStateM.bind w f s = _
  rw [EStateM.bind, h]

theorem bind_error {w : Check α} {f : α → Check β} {s s' : State} {e : Halt}
    (h : w s = .error e s') : (w >>= f) s = .error e s' := by
  change EStateM.bind w f s = _
  rw [EStateM.bind, h]

/-- Refuses the statement at a token. -/
def refuse (token : Token) (fault : TypeFault) : Check α := throw (.refused ⟨token, fault⟩)

/-- A variable that no type has yet. -/
def fresh : Check Ty := fun s => .ok (.var s.nextVar) { s with nextVar := s.nextVar + 1 }

/-- As many fresh variables as there are names. -/
def freshFor : List Token → Check (List Ty)
  | [] => pure []
  | _ :: later => do
    let first ← fresh
    return first :: (← freshFor later)

/-! ## Scopes -/

/-- Walks inside a new scope, which is left again however the walk ends. -/
def inScope (kind : Scope.Kind) (walk : Check α) : Check α := fun s =>
  match walk { s with scopes := .empty kind :: s.scopes } with
  | .ok a s' => .ok a { s' with scopes := s'.scopes.tail }
  | .error halt s' => .error halt { s' with scopes := s'.scopes.tail }

/-- The innermost scope. -/
def innermost : Check Scope := fun s => .ok (s.scopes.headD (.empty .global)) s

/-- Binds a name in the innermost scope, in place of what it was bound to. -/
def define (name : String) (binding : Binding) : Check Unit := fun s =>
  .ok () { s with scopes := s.scopes.modifyHead (·.define name binding) }

/-- Refuses a name that the innermost scope declares. -/
def ensureNew (name : Token) : Check Unit := do
  if (← innermost).declares name.lexeme then
    refuse name (.duplicateDeclaration name.lexeme)

/-- Declares a name in the innermost scope. -/
def declare (name : Token) (binding : Binding) : Check Unit := do
  ensureNew name
  define name.lexeme binding

/-- Records the type of a declared name. -/
def record (name : Token) (mutable : Bool) (type : Ty) : Check Unit := fun s =>
  .ok () { s with recorded := ⟨name.lexeme, name.position, mutable, type⟩ :: s.recorded }

/-- What a name is bound to. -/
def lookup (name : Token) : Check Binding := do
  match lookup? (← get).scopes name.lexeme with
  | some binding => return binding
  | none => refuse name (.undeclared name.lexeme)

/-- The innermost function scope. -/
def function? : Check (Option Scope) := fun s => .ok (s.scopes.find? (·.kind = .function)) s

/-- The scopes with the type of answers recorded in the innermost function scope. -/
def setAnswerIn (type : Ty) : List Scope → List Scope
  | [] => []
  | scope :: outer =>
    if scope.kind = .function then scope.setAnswer type :: outer
    else scope :: setAnswerIn type outer

/-- Records the type of answers in the innermost function scope. -/
def setAnswer (type : Ty) : Check Unit := fun s =>
  .ok () { s with scopes := setAnswerIn type s.scopes }

end Check

end Offside
