import Offside.File.Path

/-!
# File/Tree — files and directories

A path is walked step by step from the root or from the working directory; every step is taken from
a directory.  Locations are the names from the root down.

A tree is made of plain files and directories.  There are no links, special files or permissions, so
whatever is there can be accessed: a directory can always be listed, and reading a file fails only
if it is no text.
-/

namespace Offside

/-- A file or a directory. -/
inductive Entry where
  | file (contents : ByteArray)
  | directory (entries : List (String × Entry))

/-- Why an operation on files fails. -/
inductive FileError where
  | notFound | alreadyExists | notDirectory | isDirectory
  | notText
deriving DecidableEq, Repr

/-- The wording of an error. -/
def FileError.message : FileError → String
  | notFound => "No such file or directory (os error 2)"
  | alreadyExists => "File exists (os error 17)"
  | notDirectory => "Not a directory (os error 20)"
  | isDirectory => "Is a directory (os error 21)"
  | notText => "stream did not contain valid UTF-8"

namespace Entry

/-- Whether an entry is a directory. -/
def isDirectory : Entry → Bool
  | directory _ => true
  | file _ => false

/-- The entry at a location below this one. -/
def at? : Entry → List String → Option Entry
  | entry, [] => some entry
  | directory entries, name :: later => (entries.lookup name).bind (·.at? later)
  | file _, _ :: _ => none

/-- The entries with another one under a name. -/
def replace (name : String) (entry : Entry) : List (String × Entry) → List (String × Entry)
  | [] => [(name, entry)]
  | (other, old) :: later =>
    if other == name then (name, entry) :: later else (other, old) :: replace name entry later

/-- Puts another entry at a location below this one, with the directories that lead there. -/
def put : Entry → List String → Entry → Entry
  | _, [], new => new
  | directory entries, name :: later, new =>
    directory (replace name (((entries.lookup name).getD (directory [])).put later new) entries)
  | file _, name :: later, new => directory [(name, (directory []).put later new)]

mutual

/-- The paths of the files at or below an entry whose extension is `extension`, given the path of
the entry. -/
def filesWith (extension path : String) : Entry → List String
  | file _ => if Path.extension? path == some extension then [path] else []
  | directory entries => filesBelow extension path entries

/-- The paths of the files with an extension below the entries of a directory. -/
def filesBelow (extension path : String) : List (String × Entry) → List String
  | [] => []
  | (name, entry) :: later =>
    entry.filesWith extension (Path.join path name) ++ filesBelow extension path later

end

end Entry

/-- All files, and the directory that paths begin at. -/
structure Files where
  root : Entry
  workingDirectory : List String

namespace Files

/-- The absolute path of a location. -/
def absolute (location : List String) : String := "/" ++ "/".intercalate location

/-! ## Walking -/

/-- A step of a walk. -/
inductive Step where
  | stay | up
  | down (name : String)
deriving DecidableEq, Repr

/-- The steps of a path.  A slash at the end of a path asks for a directory. -/
def steps (path : String) : List Step :=
  let inner := (Path.pieces path).filterMap fun piece =>
    if piece == "" then none
    else if piece == "." then some .stay
    else if piece == ".." then some .up
    else some (.down piece)
  if Path.endsInSlash path then inner ++ [.stay] else inner

/-- The location where a path begins. -/
def origin (files : Files) (path : String) : List String :=
  if Path.isAbsolute path then [] else files.workingDirectory

/-- Takes a step from a directory. -/
def step (files : Files) (location : List String) (s : Step) : Except FileError (List String) :=
  match files.root.at? location with
  | none => .error .notFound
  | some (.file _) => .error .notDirectory
  | some (.directory entries) =>
    match s with
    | .stay => .ok location
    | .up => .ok location.dropLast
    | .down name =>
      if (entries.lookup name).isSome then .ok (location ++ [name]) else .error .notFound

/-- The location that steps lead to. -/
def walk (files : Files) : List String → List Step → Except FileError (List String)
  | location, [] => .ok location
  | location, s :: later => do files.walk (← files.step location s) later

/-- The location that a path names, whether its steps can be taken or not. -/
def named (files : Files) (path : String) : List String :=
  (steps path).foldl (fun location s => match s with
    | .stay => location
    | .up => location.dropLast
    | .down name => location ++ [name]) (files.origin path)

/-- The location that a path leads to. -/
def locate (files : Files) (path : String) : Except FileError (List String) :=
  if path == "" then .error .notFound else files.walk (files.origin path) (steps path)

/-- The entry that a path leads to. -/
def entry (files : Files) (path : String) : Except FileError Entry := do
  match files.root.at? (← files.locate path) with
  | some entry => .ok entry
  | none => .error .notFound

/-- Whether a path leads to a directory. -/
def isDirectory (files : Files) (path : String) : Bool :=
  match files.entry path with
  | .ok entry => entry.isDirectory
  | .error _ => false

/-- Whether a path leads to a file. -/
def isFile (files : Files) (path : String) : Bool :=
  match files.entry path with
  | .ok entry => !entry.isDirectory
  | .error _ => false

/-- The text of a file. -/
def read (files : Files) (path : String) : Except FileError String := do
  match ← files.entry path with
  | .directory _ => .error .isDirectory
  | .file contents =>
    match String.fromUTF8? contents with
    | some text => .ok text
    | none => .error .notText

/-! ## Writing -/

/-- Puts an entry at a location. -/
def put (files : Files) (location : List String) (entry : Entry) : Files :=
  { files with root := files.root.put location entry }

/-- The directory that steps lead to. -/
def directoryAt (files : Files) (path : String) (steps : List Step) :
    Except FileError (List String) := do files.step (← files.walk (files.origin path) steps) .stay

/-- Writes a file, in place of the one that is there. -/
def write (files : Files) (path : String) (contents : ByteArray) : Except FileError Files := do
  if path == "" then .error .notFound
  else if Path.endsInSlash path then
    let _ ← files.directoryAt path ((steps path).dropLast.dropLast)
    .error .isDirectory
  else
    match (steps path).getLast? with
    | some (.down name) =>
      let location ← files.directoryAt path (steps path).dropLast
      match files.root.at? (location ++ [name]) with
      | some (.directory _) => .error .isDirectory
      | _ => .ok (files.put (location ++ [name]) (.file contents))
    | _ =>
      let _ ← files.directoryAt path (steps path)
      .error .isDirectory

/-- Makes a directory. -/
def makeDirectory (files : Files) (path : String) : Except FileError Files := do
  match (steps path).getLast? with
  | some (.down name) =>
    let location ← files.directoryAt path (steps path).dropLast
    match files.root.at? (location ++ [name]) with
    | some _ => .error .alreadyExists
    | none => .ok (files.put (location ++ [name]) (.directory []))
  | _ =>
    let _ ← files.locate path
    .error .alreadyExists

/-- The path of components in reverse order. -/
def pathOfReversed (components : List Path.Component) : String :=
  match components.reverse with
  | .root :: later => "/" ++ "/".intercalate (later.map (·.text))
  | all => "/".intercalate (all.map (·.text))

/-- Makes a directory and those around it, where they are missing.  Components are given from the
last one outwards. -/
def makeDirectories (files : Files) : List Path.Component → Except FileError Files
  | [] => .ok files
  | last :: outer =>
    let path := pathOfReversed (last :: outer)
    match files.makeDirectory path with
    | .ok made => .ok made
    | .error .notFound => do
      let files ← files.makeDirectories outer
      match files.makeDirectory path with
      | .ok made => .ok made
      | .error e => if files.isDirectory path then .ok files else .error e
    | .error e => if files.isDirectory path then .ok files else .error e

end Files

end Offside
