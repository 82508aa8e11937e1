import Offside.Command.Report
import Offside.Text.Blank
import Offside.Token.Display

/-!
# Command/Tasks — what the commands do

`run` executes a program, `emit` writes its module, `check` lists its declarations, and `test`
executes every program it finds and compares what each one prints with a file beside it.
-/

namespace Offside.Command

open Run

/-! ## Compiling -/

/-- The text of a source file. -/
def load (path : String) : Run String := askOrFail (·.read path) (.cannotRead path)

/-- The tokens of a source that has no lexical faults, one on each line. -/
def tokenDump (source : List Char) : String :=
  let scanned := Token.scan source
  if scanned.faults.isEmpty then "".intercalate (scanned.tokens.map fun t => t.display ++ "\n")
  else ""

/-- Compiles a source, and tells its diagnostics. -/
def compile (settings : Settings) (path source : String) (mode : Session.Mode) (runtime : String) :
    Run (Except Session.Failure Session.Compilation) := do
  match (Session.start ⟨mode, runtime⟩).compile source.toList with
  | none => throw .endless
  | some (session, result) =>
    if settings.dumpTokens then print (tokenDump source.toList)
    complain (reportDiagnostics settings.format path session.diagnostics)
    return result

/-- Compiles a source, or ends the command. -/
def compileOrFail (settings : Settings) (path source : String) (mode : Session.Mode)
    (runtime : String) : Run Session.Compilation := do
  match ← compile settings path source mode runtime with
  | .ok compilation => return compilation
  | .error failure => fail (.compilationFailed failure)

/-- Where an executed module imports the runtime library from: a path that exists is made absolute,
since the module is executed elsewhere. -/
def executionRuntime (runtime : String) (files : Files) : String :=
  match files.locate runtime with
  | .ok location => Files.absolute location
  | .error _ => runtime

/-- The module of a program. -/
def moduleOf (path javascript : String) (arguments : List String) : Module :=
  ⟨(Path.stem? path).getD "program" ++ ".mjs", javascript, arguments⟩

/-- Has a module executed. -/
def execute (executor : Executor) (path : String) (m : Module) : Run Execution :=
  match executor path m with
  | .ok execution => return execution
  | .error e => fail (.cannotExecute path e)

/-! ## Run, emit, check -/

/-- Executes a program, with its output in place of that of the command. -/
def run (executor : Executor) (settings : Settings) (path : String) (arguments : List String) :
    Run Unit := do
  let source ← load path
  let runtime ← ask (executionRuntime settings.runtime)
  let compilation ← compileOrFail settings path source .run runtime
  let execution ← execute executor path (moduleOf path compilation.javascript arguments)
  print execution.out
  complain execution.err
  unless execution.status.isSuccess do fail (.programFailed execution.status)

/-- Writes the module of a program, with the directories around it. -/
def emit (settings : Settings) (path : String) (output : Option String) : Run Unit := do
  let source ← load path
  let compilation ← compileOrFail settings path source .emit settings.runtime
  match output with
  | none => print compilation.javascript
  | some target =>
    changeOrFail (·.makeDirectories (Path.components target).reverse.tail) .cannotMakeDirectory
    changeOrFail (·.write target compilation.javascript.toUTF8) (.cannotWrite target)
    printLine target

/-- Lists the declarations of a program. -/
def check (settings : Settings) (path : String) : Run Unit := do
  let source ← load path
  let compilation ← compileOrFail settings path source .check settings.runtime
  print (reportDeclarations settings.format path compilation.declarations)

/-! ## Test -/

/-- The paths of the source files at or below the inputs, in order. -/
def sourceFiles : List String → List String → Run (List String)
  | found, [] => return found
  | found, input :: later => do
    let entry ← askOrFail (·.entry input) (.cannotAccess input)
    sourceFiles ((entry.filesWith "slate" input).foldl (fun found path => Path.insert path found)
      found) later

/-- The text without the white space at its end. -/
def trimEnd (text : String) : List Char := Text.dropTrailing Text.isBlank text.toList

/-- What is wrong with what a program printed, given what is beside it. -/
def compareOutput (path : String) (execution : Execution) : Run (Option String) := do
  let expected := Path.withExtension path "out"
  if ← ask (·.isFile expected) then
    let text ← askOrFail (·.read expected) (.cannotReadExpected expected)
    if trimEnd execution.out != trimEnd text then
      return some ("output differs from " ++ expected)
  return none

/-- What is wrong with a test, if anything. -/
def testFile (executor : Executor) (settings : Settings) (runtime path : String) :
    Run (Option String) := do
  let source ← load path
  match ← compile settings path source .test runtime with
  | .error failure => return some (Fault.compilationFailed failure).summary
  | .ok compilation =>
    let execution ← execute executor path (moduleOf path compilation.javascript [])
    if execution.status.isSuccess then compareOutput path execution
    else
      let firstLine := ((Text.firstLine? execution.err.toList).map String.ofList).getD "no output"
      return some ("exited with " ++ execution.status.message ++ ": " ++ firstLine)

/-- Runs tests in order, and counts those that fail. -/
def testFiles (executor : Executor) (settings : Settings) (runtime : String) :
    List String → Run Nat
  | [] => return 0
  | path :: later => do
    match ← testFile executor settings runtime path with
    | none =>
      printLine ("  ✓ " ++ path)
      testFiles executor settings runtime later
    | some reason =>
      printLine ("  ✗ " ++ path ++ " (" ++ reason ++ ")")
      return (← testFiles executor settings runtime later) + 1

/-- Runs every test at or below the inputs; without inputs, below the working directory. -/
def test (executor : Executor) (settings : Settings) (inputs : List String) : Run Unit := do
  let inputs ←
    if inputs.isEmpty then ask fun files => [Files.absolute files.workingDirectory]
    else pure inputs
  let paths ← sourceFiles [] inputs
  if paths.isEmpty then printLine "no test files found"
  else
    let total := toString paths.length
    printLine ("Running " ++ total ++ " test file(s)...")
    let runtime ← ask (executionRuntime settings.runtime)
    let failed ← testFiles executor settings runtime paths
    if failed > 0 then fail (.testsFailed failed paths.length)
    printLine ("\nAll " ++ total ++ " test file(s) passed")

/-! ## The whole command -/

/-- Does what the settings ask for. -/
def perform (executor : Executor) (settings : Settings) : Run Unit :=
  match settings.task with
  | .run input arguments => run executor settings input arguments
  | .emit input output => emit settings input output
  | .check input => check settings input
  | .test inputs => test executor settings inputs

/-- How a command ended: its exit code, what it printed, and the files as it left them. -/
structure Outcome where
  exit : Nat
  out : String
  err : String
  files : Files

/-- A short account of the command line. -/
def usage : String := "Usage: slate [OPTIONS] <run|emit|check|test> ...\n"

/-- What a command line does; `none` if checking the types of a program has no end. -/
def Outcome.ofArguments (executor : Executor) (environment : Option String)
    (arguments : List String) (files : Files) : Option Outcome :=
  match Settings.ofArguments arguments environment with
  | .error .version => some ⟨0, "slate 0.1.0\n", "", files⟩
  | .error .help => some ⟨0, usage, "", files⟩
  | .error .misuse => some ⟨2, "", usage, files⟩
  | .ok settings =>
    match perform executor settings ⟨"", "", files⟩ with
    | .ok () c => some ⟨0, c.out, c.err, c.files⟩
    | .error (.failed fault) c => some ⟨1, c.out, c.err ++ fault.report, c.files⟩
    | .error .endless _ => none

end Offside.Command
