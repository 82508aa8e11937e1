import Offside.Ty.Basic

/-!
# Ty/Display — types as text

A type is displayed as a program writes it: `[Number]`, `{name: Text}`, `(Number, Text) → Boolean?`.
A variable is displayed as `t` and its number.
-/

namespace Offside.Ty

/-- A type as text, and the same text in parts if the type is a chain. -/
structure Shown where
  text : String
  parameters : List String
  result : String

/-- The text of a type that is no chain. -/
def Shown.plain (text : String) : Shown := ⟨text, [], text⟩

mutual

/-- A type as text. -/
def shown : Ty → Shown
  | number => .plain "Number"
  | text => .plain "Text"
  | boolean => .plain "Boolean"
  | nil => .plain "Nil"
  | var id => .plain ("t" ++ toString id)
  | list element => .plain ("[" ++ element.shown.text ++ "]")
  | maybe inner => .plain (inner.shown.text ++ "?")
  | record fields => .plain ("\x7b" ++ ", ".intercalate (shownFields fields) ++ "\x7d")
  | custom name [] => .plain name
  | custom name (first :: later) =>
    .plain (name ++ "[" ++ ", ".intercalate (first.shown.text :: shownAll later) ++ "]")
  | link input output terminal =>
    let rest := output.shown
    let parameters := input.shown.text :: (if terminal then [] else rest.parameters)
    let result := if terminal then rest.text else rest.result
    let inside := if input.isNil && parameters.length == 1 then "" else ", ".intercalate parameters
    ⟨"(" ++ inside ++ ") → " ++ result, parameters, result⟩

/-- Fields as texts. -/
def shownFields : List (String × Ty) → List String
  | [] => []
  | (key, type) :: later => (key ++ ": " ++ type.shown.text) :: shownFields later

/-- Types as texts. -/
def shownAll : List Ty → List String
  | [] => []
  | type :: later => type.shown.text :: shownAll later

end

/-- The text of a type. -/
def display (type : Ty) : String := type.shown.text

end Offside.Ty
