import Offside.Script.Generate
import Offside.Script.Render
import Offside.Syntax.Program
import Offside.Token.Scan
import Offside.Typing.Program

/-!
# Session — compiling sources one after another

A source goes through scanning, parsing, type checking and code generation, and stops at the first
stage that has something to report.  A session keeps all diagnostics, and those of earlier sources
count against later ones.
-/

namespace Offside

namespace Session

/-- What the code is wanted for. -/
inductive Mode where
  | run | emit | test
  /-- Nothing is generated. -/
  | check
deriving DecidableEq, Repr

/-- How sources are compiled. -/
structure Options where
  mode : Mode
  /-- Where generated code imports the runtime library from. -/
  runtime : String
deriving Repr

/-- Where the runtime library is if nothing else is said. -/
def defaultRuntime : String := "slate-runtime"

/-- The stage at which a source was refused, with the number of faults of that stage in the whole
session. -/
inductive Failure where
  | lexical (count : Nat)
  | grammar (count : Nat)
  | typing (count : Nat)
deriving DecidableEq, Repr

/-- The wording of a failure. -/
def Failure.message : Failure → String
  | lexical count => "lexing failed with " ++ toString count ++ " error(s)"
  | grammar count => "parsing failed with " ++ toString count ++ " error(s)"
  | typing count => "type checking failed with " ++ toString count ++ " error(s)"

/-- What became of a source that was accepted. -/
structure Compilation where
  program : List Stmt
  /-- The text of the generated module. -/
  javascript : String
  declarations : List Declaration

end Session

/-- Sources compiled one after another. -/
structure Session where
  options : Session.Options
  diagnostics : List Diagnostic

namespace Session

/-- The session before any source. -/
def start (options : Options) : Session := ⟨options, []⟩

/-- The text of the line that a diagnostic is about, where it is not known yet. -/
def withLineText (source : List Char) (d : Diagnostic) : Diagnostic :=
  match d.lineText with
  | some _ => d
  | none => { d with lineText := (Text.line? source d.position.line).map String.ofList }

/-- Keeps the diagnostics of a stage. -/
def absorb (session : Session) (source : List Char) (diagnostics : List Diagnostic) : Session :=
  { session with diagnostics := session.diagnostics ++ diagnostics.map (withLineText source) }

/-- The number of diagnostics of a category. -/
def count (session : Session) (category : Diagnostic.Category) : Nat :=
  Diagnostic.count category session.diagnostics

/-- The code of a program, where code is wanted. -/
def generate (options : Options) (program : List Stmt) : String :=
  if options.mode = .check then "" else (Script.ofProgram options.runtime program).render

/-- Checks the types of a program and generates its code. `none` if the check has no end. -/
def compileProgram (session : Session) (source : List Char) (program : List Stmt) :
    Option (Session × Except Failure Compilation) :=
  match Checker.start.check program with
  | none => none
  | some (_, verdicts) =>
    let session := session.absorb source (Verdict.diagnostics verdicts)
    let faults := session.count .typing
    if faults > 0 then some (session, .error (.typing faults))
    else
      some (session, .ok
        { program
          javascript := generate session.options program
          declarations := Verdict.allDeclarations verdicts })

/-- The faults of a scanned source in words. -/
def lexicalDiagnostics (source : List Char) (scanned : Token.Scanned) : List Diagnostic :=
  scanned.faults.map fun (position, fault) => .ofLexical source position fault

/-- Compiles a source. `none` if checking its types has no end. -/
def compile (session : Session) (source : List Char) :
    Option (Session × Except Failure Compilation) :=
  let scanned := Token.scan source
  let session := session.absorb source (lexicalDiagnostics source scanned)
  let faults := session.count .lexical
  if faults > 0 then some (session, .error (.lexical faults))
  else
    let parsed := Parsed.ofTokens scanned.tokens
    let session := session.absorb source (parsed.reports.map (·.toDiagnostic))
    match parsed.program? with
    | none => some (session, .error (.grammar (session.count .grammar)))
    | some program => session.compileProgram source program

end Session

end Offside
