import Offside.Json
import Offside.Text.Lines
import Offside.Token.Fault

/-!
# Diagnostic — what is told about a program that is refused

Each stage reports its own faults; a diagnostic is such a fault in words, with its place.
-/

namespace Offside

namespace Diagnostic

/-- The stage that a diagnostic comes from. -/
inductive Category where
  | lexical | grammar | typing | running
deriving DecidableEq, Repr

/-- How a diagnostic names its category. -/
def Category.name : Category → String
  | lexical => "LexicalError"
  | grammar => "SyntaxError"
  | typing => "CompileError"
  | running => "RuntimeError"

end Diagnostic

/-- A fault in words. -/
structure Diagnostic where
  message : String
  category : Diagnostic.Category
  position : Position
  /-- The text of its line, where it is known. -/
  lineText : Option String
  /-- Whether it ended the statement that it is about. -/
  fatal : Bool
deriving DecidableEq, Repr

namespace Diagnostic

/-- A diagnostic about the text of a line. -/
def ofLine (lineText : String) (position : Position) (message : String) : Diagnostic :=
  ⟨message, .lexical, position, some lineText, false⟩

/-- A diagnostic about a token, which the message then names. -/
def ofToken (token : Token) (message : String) (category : Category) (fatal : Bool) :
    Diagnostic :=
  let place := if token.kind = .eof then " (at end of input)" else " (at '" ++ token.shown ++ "')"
  ⟨message ++ place, category, token.position, none, fatal⟩

/-- A lexical fault of `text` in words. -/
def ofLexical (text : List Char) (position : Position) (fault : LexicalFault) : Diagnostic :=
  ofLine (String.ofList (Text.bareLine text position.line)) position fault.message

/-- The number of diagnostics of a category. -/
def count (category : Category) (diagnostics : List Diagnostic) : Nat :=
  diagnostics.countP (·.category = category)

/-- A diagnostic as JSON, its keys in alphabetical order. -/
def toJson (d : Diagnostic) : Json :=
  .object <|
    [("category", .text d.category.name), ("column", .number d.position.column),
      ("fatal", .boolean d.fatal), ("level", .text "error"), ("line", .number d.position.line)] ++
    (match d.lineText with
      | some text => [("line_text", .text text)]
      | none => []) ++
    [("message", .text d.message)]

end Diagnostic

end Offside
