import Offside.Command.Host
import Offside.Command.Options
import Offside.Text.Shown

/-!
# Command/Report — what a command tells about a program
-/

namespace Offside.Command

/-! ## Faults -/

/-- A fault in words. -/
def Fault.message : Fault → String
  | cannotRead path _ => "Failed to read " ++ Text.makeVisible path
  | cannotAccess path _ => "Failed to access " ++ Text.makeVisible path
  | cannotMakeDirectory cause => cause.message
  | cannotWrite path _ => "Failed to write " ++ Text.makeVisible path
  | cannotReadExpected path _ => "failed to read " ++ path
  | cannotExecute path _ => "failed to execute " ++ path
  | compilationFailed _ => "Compilation failed"
  | programFailed status => "program exited with status " ++ status.message
  | testsFailed failed total =>
    toString failed ++ " of " ++ toString total ++ " test file(s) failed"

/-- The cause of a fault in words. -/
def Fault.cause? : Fault → Option String
  | cannotRead _ cause | cannotAccess _ cause | cannotWrite _ cause | cannotReadExpected _ cause
  | cannotExecute _ cause => some cause.message
  | compilationFailed cause => some cause.message
  | cannotMakeDirectory _ | programFailed _ | testsFailed .. => none

/-- A fault and its cause on one line. -/
def Fault.summary (fault : Fault) : String :=
  match fault.cause? with
  | some cause => fault.message ++ ": " ++ cause
  | none => fault.message

/-- A fault and its cause as they are printed at the end of a command. -/
def Fault.report (fault : Fault) : String :=
  "Error: " ++ fault.message ++
    (match fault.cause? with
      | some cause => "\n\nCaused by:\n    " ++ cause
      | none => "") ++ "\n"

/-! ## Diagnostics -/

/-- A tab is shown as four spaces. -/
def expandTabs (text : List Char) : List Char :=
  text.flatMap fun c => if c == '\t' then [' ', ' ', ' ', ' '] else [c]

/-- As much space as the text takes when it is shown. -/
def spaceFor (text : List Char) : List Char :=
  text.flatMap fun c => if c == '\t' then [' ', ' ', ' ', ' '] else [' ']

/-- The line that a diagnostic is about, and a mark below its place. -/
def excerpt (d : Diagnostic) : String :=
  match d.lineText with
  | none => ""
  | some text =>
    "      " ++ String.ofList (expandTabs text.toList) ++ "\n" ++
      "      " ++ String.ofList (spaceFor (text.toList.take d.position.column)) ++ "^\n"

/-- A diagnostic as a reader is told it. -/
def describe (path : String) (d : Diagnostic) : String :=
  "  - error[" ++ d.category.name ++ "]: " ++ d.message ++ "\n" ++
    "     --> " ++ path ++ ":" ++ toString d.position.line ++ ":" ++
      toString (d.position.column + 1) ++ "\n" ++
    excerpt d

/-- The diagnostics of a file. -/
def reportDiagnostics (format : Format) (path : String) (diagnostics : List Diagnostic) : String :=
  if diagnostics.isEmpty then ""
  else match format with
    | .human => "Diagnostics:\n" ++ "".intercalate (diagnostics.map (describe path))
    | .json =>
      (Json.object [("diagnostics", .array (diagnostics.map (·.toJson))),
        ("path", .text path)]).render ++ "\n"

/-! ## Declarations -/

/-- A declaration as a reader is told it. -/
def describeDeclaration (d : Declaration) : String :=
  toString d.position.line ++ ":" ++ toString (d.position.column + 1) ++ " " ++
    (if d.mutable then "mut " else "") ++ d.name ++ ": " ++ d.type.display ++ "\n"

/-- A declaration as JSON, its keys in alphabetical order. -/
def declarationJson (d : Declaration) : Json :=
  .object [("column", .number d.position.column), ("line", .number d.position.line),
    ("mutable", .boolean d.mutable), ("name", .text d.name), ("type", .text d.type.display)]

/-- The declarations of a file that was accepted. -/
def reportDeclarations (format : Format) (path : String) (declarations : List Declaration) :
    String :=
  match format with
  | .human => "".intercalate (declarations.map describeDeclaration) ++ path ++ ": ok\n"
  | .json =>
    (Json.object [("declarations", .array (declarations.map declarationJson)),
      ("path", .text path)]).render ++ "\n"

end Offside.Command
