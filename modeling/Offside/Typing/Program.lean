import Offside.Diagnostic
import Offside.Typing.Rules

/-!
# Typing/Program — type checking a program

Every statement at the top is checked on its own: a fault in one ends the walk over that one only,
and a name that it declares stays declared, with a type that is not known.
-/

namespace Offside

/-- What became of a statement: the fault that it was refused for, if any, and the declarations in
it, in order. -/
structure Verdict where
  refusal : Option TypeRefusal
  declarations : List Declaration
deriving Repr

/-- A refusal in words. -/
def TypeRefusal.toDiagnostic (r : TypeRefusal) : Diagnostic :=
  .ofToken r.token r.fault.message .typing true

namespace Checker

/-- Declares the name of a refused statement, with a type that is not known. -/
def declareRefused (c : Checker) (statement : Stmt) : Checker :=
  match statement.declared? with
  | none => c
  | some (name, mutable) =>
    if (c.scopes.headD (.empty .global)).declares name.lexeme then c
    else
      { scopes := c.scopes.modifyHead (·.define name.lexeme ⟨mutable, .var c.nextVar⟩)
        nextVar := c.nextVar + 1 }

/-- Checks a statement, by a way to compare arguments. `none` if the check has no end. -/
def checkStatementBy (compare : Ty → Ty.Comparison) (c : Checker) (statement : Stmt) :
    Option (Checker × Verdict) :=
  match statement.checkBy compare ⟨c, []⟩ with
  | .ok () s => some (s.toChecker, ⟨none, s.recorded.reverse⟩)
  | .error (.refused refusal) s =>
    some (s.toChecker.declareRefused statement, ⟨some refusal, s.recorded.reverse⟩)
  | .error (.endless ..) _ => none

/-- Checks the statements of a program, by a way to compare arguments. -/
def checkBy (compare : Ty → Ty.Comparison) (c : Checker) :
    List Stmt → Option (Checker × List Verdict)
  | [] => some (c, [])
  | first :: later => do
    let (c, verdict) ← c.checkStatementBy compare first
    let (c, verdicts) ← c.checkBy compare later
    return (c, verdict :: verdicts)

/-- Checks a statement. `none` if the check has no end. -/
def checkStatement : Checker → Stmt → Option (Checker × Verdict) := checkStatementBy Ty.fit

/-- Checks the statements of a program. `none` if the check of one of them has no end. -/
def check : Checker → List Stmt → Option (Checker × List Verdict) := checkBy Ty.fit

theorem check_cons (c : Checker) (first : Stmt) (later : List Stmt) :
    c.check (first :: later) = (c.checkStatement first).bind fun r =>
      (r.1.check later).bind fun r' => some (r'.1, r.2 :: r'.2) := rfl

end Checker

namespace Verdict

/-- The diagnostics of a program. -/
def diagnostics (verdicts : List Verdict) : List Diagnostic :=
  verdicts.filterMap fun v => v.refusal.map (·.toDiagnostic)

/-- The declarations of a program. -/
def allDeclarations (verdicts : List Verdict) : List Declaration :=
  verdicts.flatMap (·.declarations)

end Verdict

end Offside
