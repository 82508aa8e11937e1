import Offside.Text.Quoted

/-!
# Json — JSON values and their compact text
-/

namespace Offside

/-- A JSON value whose numbers are counts. -/
inductive Json where
  | null
  | boolean (value : Bool)
  | number (value : Nat)
  | text (value : String)
  | array (items : List Json)
  /-- Fields are written in the order given. -/
  | object (fields : List (String × Json))
deriving Inhabited, Repr

namespace Json

mutual

/-- The text of a value, without white space. -/
def render : Json → String
  | null => "null"
  | boolean true => "true"
  | boolean false => "false"
  | number n => toString n
  | text s => Text.quote s
  | array items => "[" ++ ",".intercalate (renderItems items) ++ "]"
  | object fields => "\x7b" ++ ",".intercalate (renderFields fields) ++ "\x7d"

/-- The texts of the items of an array. -/
def renderItems : List Json → List String
  | [] => []
  | item :: later => item.render :: renderItems later

/-- The texts of the fields of an object. -/
def renderFields : List (String × Json) → List String
  | [] => []
  | (name, value) :: later => (Text.quote name ++ ":" ++ value.render) :: renderFields later

end

end Json

end Offside
