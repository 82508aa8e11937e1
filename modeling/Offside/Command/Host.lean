import Offside.File.Tree
import Offside.Session

/-!
# Command/Host — what a command has around it

A command reads and writes files, prints, and has generated modules executed.  The program that
executes a module is a parameter: it either cannot be started, or prints something and ends.
-/

namespace Offside.Command

/-- How a program ended. -/
inductive Status where
  | exited (code : Nat)
  | killed (signal : Nat)
deriving DecidableEq, Repr

/-- Whether a program ended well. -/
def Status.isSuccess : Status → Bool
  | exited code => code == 0
  | killed _ => false

/-- The name of a signal, in parentheses, where it is known. -/
def signalName : Nat → String
  | 1 => " (SIGHUP)"
  | 2 => " (SIGINT)"
  | 3 => " (SIGQUIT)"
  | 6 => " (SIGABRT)"
  | 9 => " (SIGKILL)"
  | 11 => " (SIGSEGV)"
  | 13 => " (SIGPIPE)"
  | 15 => " (SIGTERM)"
  | _ => ""

/-- The end of a program in words. -/
def Status.message : Status → String
  | exited code => "exit status: " ++ toString code
  | killed signal => "signal: " ++ toString signal ++ signalName signal

/-- What a program printed, and how it ended. -/
structure Execution where
  out : String
  err : String
  status : Status
deriving Repr

/-- A module to be executed: its file name, its text, and the arguments that it gets. -/
structure Module where
  name : String
  text : String
  arguments : List String
deriving Repr

/-- A program that executes modules.  What it does may depend on the path of the source besides the
module, so that no two executions have to be alike. -/
abbrev Executor := String → Module → Except FileError Execution

/-- Why a command fails. -/
inductive Fault where
  | cannotRead (path : String) (cause : FileError)
  | cannotAccess (path : String) (cause : FileError)
  | cannotMakeDirectory (cause : FileError)
  | cannotWrite (path : String) (cause : FileError)
  | cannotReadExpected (path : String) (cause : FileError)
  | cannotExecute (path : String) (cause : FileError)
  | compilationFailed (cause : Session.Failure)
  | programFailed (status : Status)
  | testsFailed (failed total : Nat)
deriving Repr

/-- Why a command ends early. -/
inductive Halt where
  | failed (fault : Fault)
  /-- Checking the types of a program has no end. -/
  | endless
deriving Repr

/-- What a command has printed so far, and the files as it has left them. -/
structure Console where
  out : String
  err : String
  files : Files

/-- A command under way. -/
abbrev Run := EStateM Halt Console

namespace Run

variable {α : Type}

/-- Prints. -/
def print (text : String) : Run Unit := fun c => .ok () { c with out := c.out ++ text }

/-- Prints a line. -/
def printLine (text : String) : Run Unit := print (text ++ "\n")

/-- Prints to where errors go. -/
def complain (text : String) : Run Unit := fun c => .ok () { c with err := c.err ++ text }

/-- Ends the command early. -/
def fail (fault : Fault) : Run α := throw (.failed fault)

/-- Asks something of the files. -/
def ask (f : Files → α) : Run α := fun c => .ok (f c.files) c

/-- Asks something of the files that may fail. -/
def askOrFail (f : Files → Except FileError α) (fault : FileError → Fault) : Run α := fun c =>
  match f c.files with
  | .ok a => .ok a c
  | .error e => .error (.failed (fault e)) c

/-- Changes the files. -/
def changeOrFail (f : Files → Except FileError Files) (fault : FileError → Fault) : Run Unit :=
  fun c =>
    match f c.files with
    | .ok files => .ok () { c with files }
    | .error e => .error (.failed (fault e)) c

end Run

end Offside.Command
