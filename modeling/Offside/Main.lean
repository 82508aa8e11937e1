import Offside.Command.Tasks

/-!
# Main — the command line

The files that the arguments name are read before the command, and the file that it wrote is written
behind it.  There is no program here to execute modules with, so `run` and `test` say that it cannot
be started.
-/

namespace Offside.Command

/-- Reads a file, or a directory with all that is in it. -/
partial def snapshot (path : String) : IO (Option Entry) := do
  let place := (← IO.currentDir) / path
  if ← place.isDir then
    let entries ← (← place.readDir).toList.filterMapM fun entry => do
      return (← snapshot (Path.join path entry.fileName)).map (entry.fileName, ·)
    return some (.directory entries)
  else if ← place.pathExists then return some (.file (← IO.FS.readBinFile place))
  else return none

/-- Puts what is at a path into the files. -/
def addSnapshot (files : Files) (path : String) : IO Files := do
  match ← snapshot path with
  | some entry => return files.put (files.named path) entry
  | none => return files

/-- Puts directories into the files, from the outermost one inwards, as far as they exist.
Components are given from the last one outwards. -/
def addDirectories (files : Files) : List Path.Component → IO Files
  | [] => return files
  | last :: outer => do
    let files ← addDirectories files outer
    let path := Files.pathOfReversed (last :: outer)
    if (files.root.at? (files.named path)).isSome then return files
    else if ← ((← IO.currentDir) / path).isDir then
      return files.put (files.named path) (.directory [])
    else addSnapshot files path

/-- Puts the directories around a path into the files. -/
def addAround (files : Files) (path : String) : IO Files :=
  addDirectories files (Path.components path).reverse.tail

/-- The files that settings name, as far as they exist. -/
def filesFor (settings : Settings) : IO Files := do
  let location := ((← IO.currentDir).toString.splitOn "/").filter (· != "")
  let files : Files := ⟨(Entry.directory []).put location (.directory []), location⟩
  let inputs := match settings.task with
    | .test [] => ["."]
    | task => task.paths
  let expected := inputs.filterMap fun path =>
    if Path.extension? path == some "slate" then some (Path.withExtension path "out") else none
  let paths := settings.runtime :: inputs ++ expected
  let files ← paths.foldlM addAround files
  paths.foldlM addSnapshot files

/-- Writes the file that a task was to write. -/
def writeOutput (files : Files) : Task → IO Unit
  | .emit _ (some target) => do
    if let .ok (.file contents) := files.entry target then
      let place := (← IO.currentDir) / target
      if let some directory := place.parent then IO.FS.createDirAll directory
      IO.FS.writeBinFile place contents
  | _ => return ()

end Offside.Command

open Offside Command in
/-- Does what the arguments ask for. -/
def main (arguments : List String) : IO UInt32 := do
  let environment ← IO.getEnv "SLATE_RUNTIME"
  let settings := Settings.ofArguments arguments environment
  let files ← match settings with
    | .ok settings => filesFor settings
    | .error _ => pure ⟨.directory [], []⟩
  match Outcome.ofArguments (fun _ _ => .error .notFound) environment arguments files with
  | none => return 134
  | some outcome =>
    IO.print outcome.out
    IO.eprint outcome.err
    if outcome.exit == 0 then
      if let .ok settings := settings then writeOutput outcome.files settings.task
    return outcome.exit.toUInt32
