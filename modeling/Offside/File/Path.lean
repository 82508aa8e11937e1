import Offside.Text.Lines

/-!
# File/Path — paths as text

A path is compared and taken apart by its components, in which doubled slashes and a `.` behind the
beginning make no difference.  Where a path leads is another matter (`File/Tree`): there every piece
of it is a step.
-/

namespace Offside.Path

/-- A part of a path. -/
inductive Component where
  /-- The slash that an absolute path begins with. -/
  | root
  /-- The `.` that a path begins with. -/
  | here
  | up
  | named (name : String)
deriving DecidableEq, Repr

namespace Component

/-- Components of different kinds are ordered by kind. -/
def rank : Component → Nat
  | root => 0
  | here => 1
  | up => 2
  | named _ => 3

/-- The name of a component; only a named one has one. -/
def name : Component → String
  | named name => name
  | _ => ""

/-- The order of components: by kind, and names by their characters. -/
def compare (a b : Component) : Ordering :=
  (Ord.compare a.rank b.rank).then (Ord.compare a.name b.name)

/-- A component as a path writes it. -/
def text : Component → String
  | root => "/"
  | here => "."
  | up => ".."
  | named name => name

end Component

/-- The pieces of a path between its slashes. -/
def pieces (path : String) : List String :=
  (Text.splitOn '/' path.toList).map String.ofList

/-- Whether a path begins at the root. -/
def isAbsolute (path : String) : Bool := path.toList.head? == some '/'

/-- Whether a path ends in a slash. -/
def endsInSlash (path : String) : Bool := path.toList.getLast? == some '/'

/-- The component that a piece is, behind the beginning of a path. -/
def component? (piece : String) : Option Component :=
  if piece == "" || piece == "." then none
  else if piece == ".." then some .up
  else some (.named piece)

/-- The components of a path. -/
def components (path : String) : List Component :=
  let inner := (pieces path).filterMap component?
  if isAbsolute path then .root :: inner
  else if (pieces path).head? == some "." then .here :: inner
  else inner

/-- The order of paths, by their components. -/
def compareAll : List Component → List Component → Ordering
  | [], [] => .eq
  | [], _ :: _ => .lt
  | _ :: _, [] => .gt
  | a :: as, b :: bs => (a.compare b).then (compareAll as bs)

/-- The order of paths. -/
def compare (a b : String) : Ordering := compareAll (components a) (components b)

/-- Puts a path into its place in a list of paths in order, unless the list holds it already. -/
def insert (path : String) : List String → List String
  | [] => [path]
  | first :: later =>
    match compare path first with
    | .lt => path :: first :: later
    | .eq => first :: later
    | .gt => first :: insert path later

/-- The path of an entry of a directory. -/
def join (directory name : String) : String :=
  if endsInSlash directory then directory ++ name else directory ++ "/" ++ name

/-! ## Names of files -/

/-- The name of the file that a path is of. -/
def fileName? (path : String) : Option String :=
  match (components path).getLast? with
  | some (.named name) => some name
  | _ => none

/-- A file name before and behind its last dot; a dot at its beginning is no such dot. -/
def splitExtension (name : String) : String × Option String :=
  let reversed := name.toList.reverse
  match reversed.dropWhile (· != '.') with
  | _ :: stem@(_ :: _) =>
    (String.ofList stem.reverse, some (String.ofList (reversed.takeWhile (· != '.')).reverse))
  | _ => (name, none)

/-- The name of a file without its extension. -/
def stem? (path : String) : Option String :=
  (fileName? path).map fun name => (splitExtension name).1

/-- The extension of a file. -/
def extension? (path : String) : Option String :=
  (fileName? path).bind fun name => (splitExtension name).2

/-- The path up to the dot of its extension, with a dot added where it has none. -/
def toDot (path : String) : String :=
  match extension? path with
  | some extension => String.ofList (path.toList.take (path.length - extension.length))
  | none => path ++ "."

/-- The path with another extension.  Only a file can have one: where nothing but `.` stands before
the extension, the path up to its dot leads to the directory above, and is left at that. -/
def withExtension (path other : String) : String :=
  match fileName? path, fileName? (toDot path) with
  | none, _ => path
  | some _, none => toDot path
  | some _, some _ => toDot path ++ other

end Offside.Path
