import Offside.Session

/-!
# Command/Options — the arguments of the command line

Arguments are read one after another.  Options may stand before or behind the name of the command,
and what stands behind it counts; `--` ends them, and so does the first argument of the program that
`run` is to run.
-/

namespace Offside.Command

/-- How diagnostics are written. -/
inductive Format where
  | human | json
deriving DecidableEq, Repr

/-- What is to be done. -/
inductive Task where
  | run (input : String) (arguments : List String)
  | emit (input : String) (output : Option String)
  | check (input : String)
  | test (inputs : List String)
deriving Repr

/-- What is to be done, and how. -/
structure Settings where
  runtime : String
  dumpTokens : Bool
  format : Format
  task : Task
deriving Repr

/-- Why there is nothing to be done. -/
inductive Stop where
  | version | help
  /-- The arguments make no sense. -/
  | misuse
deriving DecidableEq, Repr

/-- The names of the tasks. -/
inductive TaskName where
  | run | emit | check | test
deriving DecidableEq, Repr

/-- The task of this name. -/
def TaskName.ofWord? : String → Option TaskName
  | "run" => some .run
  | "emit" => some .emit
  | "check" => some .check
  | "test" => some .test
  | _ => none

/-- The options given on one side of the task's name. -/
structure Given where
  runtime : Option String
  format : Option Format
  dumpTokens : Bool
  verbose : Bool
deriving Repr

/-- No options. -/
def Given.none : Given := ⟨.none, .none, false, false⟩

/-- The options that take a value. -/
inductive Valued where
  | runtime | format | output
deriving DecidableEq, Repr

/-- Arguments that have been read. -/
structure Reading where
  task : Option TaskName
  /-- The option that the next argument is the value of. -/
  pending : Option Valued
  /-- Whether options have ended. -/
  literal : Bool
  /-- The options before the task's name. -/
  outer : Given
  /-- The options behind the task's name. -/
  inner : Given
  output : Option String
  /-- The arguments of the task. -/
  positional : List String
  /-- The arguments behind the word `help`, if that is there in place of a task. -/
  help : Option (List String)
deriving Repr

namespace Reading

/-- Nothing has been read. -/
def start : Reading :=
  { task := .none, pending := .none, literal := false, outer := .none, inner := .none,
    output := .none, positional := [], help := .none }

/-- The options on the side of the task's name that is being read. -/
def given (r : Reading) : Given := if r.task.isNone then r.outer else r.inner

/-- The reading with other options on the side that is being read. -/
def withGiven (r : Reading) (g : Given) : Reading :=
  if r.task.isNone then { r with outer := g } else { r with inner := g }

/-- Gives an option its value.  No option is given twice on one side. -/
def setValue (r : Reading) (option : Valued) (value : String) : Except Stop Reading :=
  let r := { r with pending := .none }
  match option with
  | .runtime =>
    if r.given.runtime.isSome then .error .misuse
    else .ok (r.withGiven { r.given with runtime := some value })
  | .format =>
    let format : Option Format :=
      if value == "human" then some .human else if value == "json" then some .json else none
    if r.given.format.isSome || format.isNone then .error .misuse
    else .ok (r.withGiven { r.given with format := format })
  | .output =>
    if r.output.isSome || value == "" then .error .misuse else .ok { r with output := some value }

/-- Sets the option that tokens are shown. -/
def setDumpTokens (r : Reading) : Except Stop Reading :=
  if r.given.dumpTokens then .error .misuse
  else .ok (r.withGiven { r.given with dumpTokens := true })

/-- Sets the option that more is told. -/
def setVerbose (r : Reading) : Except Stop Reading :=
  if r.given.verbose then .error .misuse
  else .ok (r.withGiven { r.given with verbose := true })

/-- The option with a value that a long name means. -/
def valued? (r : Reading) (name : String) : Option Valued :=
  if name == "runtime" then some .runtime
  else if name == "diagnostics-format" then some .format
  else if name == "output" && r.task == some .emit then some .output
  else none

/-- Reads a long option, with its value if that stands behind an equals sign. -/
def long (r : Reading) (name : String) (value : Option String) : Except Stop Reading :=
  match r.valued? name, value with
  | some option, some value => r.setValue option value
  | some option, none => .ok { r with pending := some option }
  | none, some _ => .error .misuse
  | none, none =>
    if name == "dump-tokens" then r.setDumpTokens
    else if name == "verbose" then r.setVerbose
    else if name == "help" then .error .help
    else if name == "version" && r.task.isNone then .error .version
    else .error .misuse

/-- Reads short options that stand together; the value of one may stand right behind it. -/
def short (r : Reading) : List Char → Except Stop Reading
  | [] => .ok r
  | c :: later =>
    if c == 'v' then do (← r.setVerbose).short later
    else if c == 'h' then .error .help
    else if c == 'V' && r.task.isNone then .error .version
    else if c == 'o' && r.task == some .emit then
      match later with
      | [] => .ok { r with pending := some .output }
      | '=' :: value => r.setValue .output (String.ofList value)
      | value => r.setValue .output (String.ofList value)
    else .error .misuse

/-- Reads an argument that is no option. -/
def argument (r : Reading) (text : String) : Except Stop Reading :=
  let more := { r with positional := r.positional ++ [text] }
  match r.task with
  | none =>
    if r.literal then .error .misuse
    else match TaskName.ofWord? text with
      | some task => .ok { r with task := some task }
      | none => if text == "help" then .ok { r with help := some [] } else .error .misuse
  | some .run =>
    if r.positional.isEmpty then if text == "" then .error .misuse else .ok more
    else .ok { more with literal := true }
  | some .test => if text == "" then .error .misuse else .ok more
  | some _ => if r.positional.isEmpty && text != "" then .ok more else .error .misuse

/-- The name and the value of a long option. -/
def splitLong (text : List Char) : String × Option String :=
  match text.dropWhile (· != '=') with
  | [] => (String.ofList text, none)
  | _ :: value => (String.ofList (text.takeWhile (· != '=')), some (String.ofList value))

/-- Reads an argument where options may stand. -/
def option (r : Reading) (text : String) : Except Stop Reading :=
  match text.toList, r.pending with
  | '-' :: _ :: _, some _ => .error .misuse
  | _, some option => r.setValue option text
  | ['-', '-'], none => .ok { r with literal := true }
  | '-' :: '-' :: option, none => r.long (splitLong option).1 (splitLong option).2
  | '-' :: options@(_ :: _), none => r.short options
  | _, none => r.argument text

/-- Reads an argument. -/
def next (r : Reading) (text : String) : Except Stop Reading :=
  match r.help with
  | some words => .ok { r with help := some (words ++ [text]) }
  | none => if r.literal then r.argument text else r.option text

/-- Whether there is help on what stands behind the word `help`. -/
def isTopic : List String → Bool
  | [] => true
  | [word] => word == "help" || (TaskName.ofWord? word).isSome
  | _ => false

/-- The task that the arguments ask for. -/
def task? (r : Reading) : Option Task :=
  match r.task, r.positional with
  | some .run, input :: arguments => some (.run input arguments)
  | some .emit, [input] => some (.emit input r.output)
  | some .check, [input] => some (.check input)
  | some .test, inputs => some (.test inputs)
  | _, _ => none

/-- The settings that the arguments ask for; `environment` is where the runtime library is said to
be outside of them. -/
def settings (r : Reading) (environment : Option String) : Except Stop Settings :=
  match r.help, r.pending, r.task? with
  | some words, _, _ => .error (if isTopic words then .help else .misuse)
  | none, none, some task => .ok
    { runtime :=
        (r.inner.runtime <|> r.outer.runtime <|> environment).getD Session.defaultRuntime
      dumpTokens := r.inner.dumpTokens || r.outer.dumpTokens
      format := (r.inner.format <|> r.outer.format).getD .human
      task }
  | none, _, _ => .error .misuse

end Reading

/-- Reads the arguments of the command line. -/
def Settings.ofArguments (arguments : List String) (environment : Option String) :
    Except Stop Settings := do
  (← arguments.foldlM Reading.next .start).settings environment

/-- The paths that a task is told. -/
def Task.paths : Task → List String
  | run input _ | check input => [input]
  | emit input output => input :: output.toList
  | test inputs => inputs

end Offside.Command
