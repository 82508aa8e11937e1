import Offside.Diagnostic
import Offside.Syntax.Grammar

/-!
# Syntax/Program — tokens as a program
-/

namespace Offside

/-- What became of a list of tokens: the statements that were read, what was reported, in order, and
the tokens as they were read. -/
structure Parsed where
  statements : List Stmt
  reports : List Parser.Report
  tokens : List Token
  /-- Whether reading came to its end, and not to a bound. -/
  ended : Bool

namespace Parsed

/-- Reads a list of tokens. -/
def ofTokens (tokens : List Token) : Parsed :=
  let start := Cursor.start tokens
  match (nested (2 * start.weight + 2)).program ⟨start, []⟩ with
  | .ok statements s => ⟨statements, s.reports.reverse, s.cursor.tokens, true⟩
  | .error _ s => ⟨[], s.reports.reverse, s.cursor.tokens, false⟩

/-- The program, if nothing was reported. -/
def program? (p : Parsed) : Option (List Stmt) :=
  if p.ended && p.reports.isEmpty then some p.statements else none

end Parsed

/-- A report in words. -/
def Parser.Report.toDiagnostic (r : Parser.Report) : Diagnostic :=
  .ofToken r.token r.fault.message .grammar r.fatal

end Offside
