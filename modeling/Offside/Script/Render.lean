import Offside.Script.Basic
import Offside.Script.Name
import Offside.Text.Quoted

/-!
# Script/Render — JavaScript modules as text

Every statement is on lines of its own, two spaces deeper for every block around it.  Numbers are
constants at the top of the module, one for each number in order of first use.
-/

namespace Offside.Script

/-- The name of a primitive. -/
def Primitive.name : Primitive → String
  | .operator .add => "add"
  | .operator .subtract => "subtract"
  | .operator .multiply => "multiply"
  | .operator .divide => "divide"
  | .operator .remainder => "remainder"
  | .operator .equal => "equal"
  | .operator .notEqual => "notEqual"
  | .operator .less => "less"
  | .operator .lessEqual => "lessEqual"
  | .operator .greater => "greater"
  | .operator .greaterEqual => "greaterEqual"
  | .operator .and => "&&"
  | .operator .or => "||"
  | .negate => "negate"
  | .assertBoolean => "bool"
  | .field => "field"
  | .element => "at"
  | .putElement => "put"
  | .seal => "stone"

/-- The symbol of a connective. -/
def Connective.symbol : Connective → String
  | .and => "&&"
  | .or => "||"

/-- The indentation of a statement `depth` blocks deep. -/
def indentation (depth : Nat) : String := "".pushn ' ' (2 * depth)

/-- Texts with commas between them. -/
def commas (texts : List String) : String := ", ".intercalate texts

/-- An object is the answer of a function that sets its properties one by one. -/
def objectOpening : String := "(() => \x7b const $r = Object.create(null); "

/-- The end of that function. -/
def objectClosing : String := "return $r; \x7d)()"

mutual

/-- The text of an expression within a statement `depth` blocks deep. -/
def Code.render (depth : Nat) : Code → String
  | .number digits => constantName digits
  | .text value => Text.quote value
  | .boolean true => "true"
  | .boolean false => "false"
  | .null => "null"
  | .name name => bindingName name
  | .builtin name => "$rt." ++ memberName name
  | .primitive op arguments => "$rt." ++ op.name ++ "(" ++ commas (renderAll depth arguments) ++ ")"
  | .call callee arguments =>
    callee.render depth ++ "(" ++ commas (renderAll depth arguments) ++ ")"
  | .array elements => "[" ++ commas (renderAll depth elements) ++ "]"
  | .object properties =>
    objectOpening ++ renderProperties depth properties ++ objectClosing
  | .arrow parameters body =>
    "(" ++ commas (parameters.map bindingName) ++ ") => \x7b\n" ++ renderBody (depth + 1) body ++
      indentation depth ++ "\x7d"
  | .group inner => "(" ++ inner.render depth ++ ")"
  | .not operand => "!" ++ operand.render depth
  | .connective op left right =>
    "(" ++ left.render depth ++ " " ++ op.symbol ++ " " ++ right.render depth ++ ")"
  | .conditional test consequent alternative =>
    "(" ++ test.render depth ++ " ? " ++ consequent.render depth ++ " : " ++
      alternative.render depth ++ ")"
  | .assign name value => bindingName name ++ " = " ++ value.render depth
  | .assignField object field value =>
    object.render depth ++ "." ++ memberName field ++ " = " ++ value.render depth

/-- The texts of expressions. -/
def renderAll (depth : Nat) : List Code → List String
  | [] => []
  | first :: later => first.render depth :: renderAll depth later

/-- The text of the properties of an object. -/
def renderProperties (depth : Nat) : List Property → String
  | [] => ""
  | .mk name value :: later =>
    "$r." ++ memberName name ++ " = " ++ value.render depth ++ "; " ++ renderProperties depth later

/-- The text of a statement `depth` blocks deep. -/
def Line.render (depth : Nat) : Line → String
  | .expression code => indentation depth ++ code.render depth ++ ";\n"
  | .block body =>
    indentation depth ++ "\x7b\n" ++ renderBody (depth + 1) body ++ indentation depth ++ "\x7d\n"
  | .branch test body rest =>
    indentation depth ++ "if (" ++ test.render depth ++ ") \x7b\n" ++ renderBody (depth + 1) body ++
      rest.render depth
  | .loop test body =>
    indentation depth ++ "while (" ++ test.render depth ++ ") \x7b\n" ++
      renderBody (depth + 1) body ++ indentation depth ++ "\x7d\n"
  | .leave => indentation depth ++ "break;\n"
  | .answer code => indentation depth ++ "return " ++ code.render depth ++ ";\n"
  | .declare mutable name code =>
    indentation depth ++ (if mutable then "let " else "const ") ++ bindingName name ++ " = " ++
      code.render depth ++ ";\n"

/-- The text of a conditional statement from the end of a branch on. -/
def Alternative.render (depth : Nat) : Alternative → String
  | .nothing => indentation depth ++ "\x7d\n"
  | .body body =>
    indentation depth ++ "\x7d else \x7b\n" ++ renderBody (depth + 1) body ++ indentation depth ++
      "\x7d\n"
  | .branch test body rest =>
    indentation depth ++ "\x7d else if (" ++ test.render depth ++ ") \x7b\n" ++
      renderBody (depth + 1) body ++ rest.render depth

/-- The text of statements in order. -/
def renderBody (depth : Nat) : List Line → String
  | [] => ""
  | first :: later => first.render depth ++ renderBody depth later

end

/-! ## Constants -/

mutual

/-- The numbers of an expression, in order. -/
def Code.numbers : Code → List String
  | .number digits => [digits]
  | .text _ | .boolean _ | .null | .name _ | .builtin _ => []
  | .primitive _ arguments => numbersOfAll arguments
  | .call callee arguments => callee.numbers ++ numbersOfAll arguments
  | .array elements => numbersOfAll elements
  | .object properties => numbersOfProperties properties
  | .arrow _ body => numbersOfBody body
  | .group inner => inner.numbers
  | .not operand => operand.numbers
  | .connective _ left right => left.numbers ++ right.numbers
  | .conditional test consequent alternative =>
    test.numbers ++ consequent.numbers ++ alternative.numbers
  | .assign _ value => value.numbers
  | .assignField object _ value => object.numbers ++ value.numbers

/-- The numbers of expressions. -/
def numbersOfAll : List Code → List String
  | [] => []
  | first :: later => first.numbers ++ numbersOfAll later

/-- The numbers of the properties of an object. -/
def numbersOfProperties : List Property → List String
  | [] => []
  | .mk _ value :: later => value.numbers ++ numbersOfProperties later

/-- The numbers of a statement, in order. -/
def Line.numbers : Line → List String
  | .expression code => code.numbers
  | .block body => numbersOfBody body
  | .branch test body rest => test.numbers ++ numbersOfBody body ++ rest.numbers
  | .loop test body => test.numbers ++ numbersOfBody body
  | .leave => []
  | .answer code => code.numbers
  | .declare _ _ code => code.numbers

/-- The numbers of what a conditional statement does where its test fails. -/
def Alternative.numbers : Alternative → List String
  | .nothing => []
  | .body body => numbersOfBody body
  | .branch test body rest => test.numbers ++ numbersOfBody body ++ rest.numbers

/-- The numbers of statements in order. -/
def numbersOfBody : List Line → List String
  | [] => []
  | first :: later => first.numbers ++ numbersOfBody later

end

/-- The numbers that have a constant of their own: of those with the same constant the first. -/
def distinctNumbers (seen : List String) : List String → List String
  | [] => []
  | digits :: later =>
    if seen.contains (constantName digits) then distinctNumbers seen later
    else digits :: distinctNumbers (constantName digits :: seen) later

/-- The line that defines the constant of a number. -/
def constantLine (digits : String) : String :=
  "const " ++ constantName digits ++ " = $rt.num(" ++ Text.quote digits ++ ");\n"

/-- The numbers that a module defines constants for. -/
def constants (script : Script) : List String := distinctNumbers [] (numbersOfBody script.body)

/-- The text of a module. -/
def render (script : Script) : String :=
  "import * as $rt from " ++ Text.quote script.runtime ++ ";\n" ++
    "".intercalate (script.constants.map constantLine) ++ renderBody 0 script.body

end Offside.Script
