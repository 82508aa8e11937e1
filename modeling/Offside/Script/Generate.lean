import Offside.Builtin
import Offside.Script.Basic
import Offside.Script.Name

/-!
# Script/Generate — the JavaScript of a program

Code is generated under the names that the program has declared so far (`names`); a builtin function
is meant where a name is none of them.  A value that JavaScript tests is wrapped in an assertion
unless its expression can only give a Boolean.
-/

namespace Offside

namespace Script

/-- Whether a name means a builtin function. -/
def isBuiltin (names : List String) (name : String) : Bool :=
  !names.contains name && (Builtin.find? name).isSome

/-- Whether a name means a builtin function that answers a Boolean. -/
def isPredicate (names : List String) (name : String) : Bool :=
  !names.contains name && (Builtin.find? name).any (·.isPredicate)

/-- What a name means. -/
def reference (names : List String) (name : String) : Code :=
  if isBuiltin names name then .builtin name else .name name

/-- The connective that an operator is. -/
def connective? : BinaryOp → Option Connective
  | .and => some .and
  | .or => some .or
  | _ => none

/-- Whether an operation always gives a Boolean. -/
def isTest : BinaryOp → Bool
  | .equal | .notEqual | .less | .lessEqual | .greater | .greaterEqual | .and | .or => true
  | .add | .subtract | .multiply | .divide | .remainder => false

/-- Whether an expression can only give a Boolean. -/
def givesBoolean (names : List String) : Expr → Bool
  | .binary op _ _ _ => isTest op
  | .unary op _ _ => op = .not
  | .literal _ (.boolean _) => true
  | .group inner => givesBoolean names inner
  | .call _ (.name token) _ => isPredicate names token.lexeme
  | _ => false

/-- The code of a tested expression. -/
def tested (names : List String) (expression : Expr) (code : Code) : Code :=
  if givesBoolean names expression then code else .primitive .assertBoolean [code]

/-- The code of a literal. -/
def literal : Token.Literal → Code
  | .number digits => .number digits
  | .text value => .text value
  | .boolean value => .boolean value
  | .null => .null

/-- The code of a function. -/
def function (parameters : List Token) (body : List Line) : Code :=
  .primitive .seal [.arrow (parameters.map (·.lexeme)) body]

/-- The names in scope behind a statement. -/
def declaring (statement : Stmt) (names : List String) : List String :=
  match statement.declared? with
  | some (name, _) => name.lexeme :: names
  | none => names

end Script

open Script in
mutual

/-- The code of an expression. -/
def Expr.generate (names : List String) : Expr → Code
  | .ternary _ test consequent alternative =>
    .conditional (tested names test (test.generate names)) (consequent.generate names)
      (alternative.generate names)
  | .binary op _ left right =>
    match connective? op with
    | some connective =>
      .connective connective (tested names left (left.generate names))
        (tested names right (right.generate names))
    | none => .primitive (.operator op) [left.generate names, right.generate names]
  | .group inner => .group (inner.generate names)
  | .literal _ value => Script.literal value
  | .unary .negate _ operand => .primitive .negate [operand.generate names]
  | .unary .not _ operand => .not (tested names operand (operand.generate names))
  | .name token => reference names token.lexeme
  | .assign target value => .assign target.lexeme (value.generate names)
  | .call _ callee arguments => .call (callee.generate names) (generateAll names arguments)
  | .get object (.field name) =>
    .primitive .field [object.generate names, .text (memberName name.lexeme)]
  | .get object (.index _ index) =>
    .primitive .element [object.generate names, index.generate names]
  | .set object (.field name) value =>
    .assignField (object.generate names) name.lexeme (value.generate names)
  | .set object (.index _ index) value =>
    .primitive .putElement [object.generate names, index.generate names, value.generate names]
  | .list _ elements => .array (generateAll names elements)
  | .record _ fields => .object (generateFields names fields)
  | .function _ parameters body =>
    Script.function parameters (generateBody (parameters.map (·.lexeme) ++ names) body)

/-- The code of expressions. -/
def generateAll (names : List String) : List Expr → List Code
  | [] => []
  | first :: later => first.generate names :: generateAll names later

/-- The code of the fields of a record. -/
def generateFields (names : List String) : List Field → List Property
  | [] => []
  | .mk key value :: later => .mk key.lexeme (value.generate names) :: generateFields names later

/-- The code of a statement. -/
def Stmt.generate (names : List String) : Stmt → Line
  | .expression value => .expression (value.generate names)
  | .block body => .block (generateBody names body)
  | .branch _ test body rest =>
    .branch (tested names test (test.generate names)) (generateBody names body)
      (rest.generate names)
  | .loop _ test body =>
    .loop (tested names test (test.generate names)) (generateBody names body)
  | .leave _ => .leave
  | .function name _ parameters body =>
    .declare false name.lexeme (Script.function parameters
      (generateBody (parameters.map (·.lexeme) ++ name.lexeme :: names) body))
  | .answer _ none => .answer .null
  | .answer _ (some value) => .answer (value.generate names)
  | .declare mutable name _ value => .declare mutable name.lexeme (value.generate names)

/-- The code of what a conditional statement does where its condition fails. -/
def Otherwise.generate (names : List String) : Otherwise → Alternative
  | .nothing => .nothing
  | .body body => .body (generateBody names body)
  | .branch _ test body rest =>
    .branch (tested names test (test.generate names)) (generateBody names body)
      (rest.generate names)

/-- The code of statements in order. -/
def generateBody (names : List String) : List Stmt → List Line
  | [] => []
  | first :: later => first.generate names :: generateBody (declaring first names) later

end

/-- The module of a program. -/
def Script.ofProgram (runtime : String) (program : List Stmt) : Script :=
  ⟨runtime, generateBody [] program⟩

end Offside
