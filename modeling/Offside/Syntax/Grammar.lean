import Offside.Syntax.TypeGrammar

/-!
# Syntax/Grammar — reading expressions and statements

Each parser here is given the parsers of what may nest inside it (`Nested`), and `nested` ties them
together level by level.  A level takes a token, except that a statement may begin with an
expression, so twice the tokens that are left bound the depth of any program.
-/

namespace Offside

/-- The parsers of what nests inside an expression or a statement. -/
structure Nested where
  expression : Parser Expr
  ternary : Parser Expr
  /-- The statements of a block, to the end of it; in a loop or not. -/
  statements : Bool → Parser (List Stmt)

namespace Nested

open Offside.Parser

/-! ## Blocks and functions -/

/-- An indented block. -/
def block (n : Nested) (inLoop : Bool) : Parser (List Stmt) := do
  let _ ← expect .newline .expectedLineBreakBeforeBlock
  let _ ← expect .indent .expectedBlock
  n.statements inLoop

/-- A parameter list.  A name that is repeated is reported. -/
def parameters : Parser (List Token) := do
  let _ ← expect (.opening .round) .expectedParameterList
  if ← accept (.closing .round) then return []
  let names ← commaSeparated fun earlier => do
    let name ← expect .identifier .expectedParameter
    if earlier.any (·.lexeme == name.lexeme) then report name .duplicateParameter
    return name
  let _ ← expect (.closing .round) .expectedParameterListEnd
  return names

/-- The body of a function: an expression behind a colon, or a block.  A loop around the function is
not a loop around its body. -/
def functionBody (n : Nested) : Parser (List Stmt) := do
  if ← at? .colon then
    let colon ← take
    return [.answer colon (some (← n.expression))]
  else
    n.block false

/-- A function without a name. -/
def functionLiteral (n : Nested) : Parser Expr := do
  let keyword ← take
  if ← at? .identifier then refuse .namedFunctionLiteral
  let names ← parameters
  return .function keyword names (← n.functionBody)

/-! ## Expressions -/

/-- A field of a record literal.  A key that is repeated is reported. -/
def field (n : Nested) (earlier : List Field) : Parser Field := do
  let key ← expect .identifier .expectedField
  if earlier.any (·.key.lexeme == key.lexeme) then report key .duplicateField
  let _ ← expect .colon .expectedFieldValue
  return .mk key (← n.expression)

/-- An expression that is not built by operators, calls or member access. -/
def primary (n : Nested) : Parser Expr := do
  match ← kind with
  | .number | .text | .true | .false | .null =>
    let token ← take
    return .literal token (token.literal.getD .null)
  | .identifier => return .name (← take)
  | .opening .round =>
    let _ ← take
    let inner ← n.expression
    let _ ← expect (.closing .round) .expectedGroupEnd
    return .group inner
  | .opening .square =>
    let bracket ← take
    let items ← elements (.closing .square) fun _ => n.expression
    let _ ← expect (.closing .square) .expectedListEnd
    return .list bracket items
  | .opening .curly =>
    let brace ← take
    let fields ← elements (.closing .curly) n.field
    let _ ← expect (.closing .curly) .expectedRecordEnd
    return .record brace fields
  | .fn => refuse .bareFunctionLiteral
  | _ => refuse .expectedExpression

/-- A call, a field or an element of `target`, if one comes next. -/
def suffix? (n : Nested) (target : Expr) : Parser (Option Expr) := do
  match ← kind with
  | .opening .round =>
    let paren ← take
    let arguments ←
      if ← at? (.closing .round) then pure [] else commaSeparated fun _ => n.expression
    let _ ← expect (.closing .round) .expectedArgumentListEnd
    return some (.call paren target arguments)
  | .dot =>
    let _ ← take
    let name ← expect .identifier .expectedMemberName
    return some (.get target (.field name))
  | .opening .square =>
    let bracket ← take
    let index ← n.expression
    let _ ← expect (.closing .square) .expectedIndexEnd
    return some (.get target (.index bracket index))
  | _ => return none

/-- A primary expression and the calls and member accesses behind it. -/
def chain (n : Nested) : Parser Expr := do iterate n.suffix? (← n.primary)

/-- The operator that a token is before an operand. -/
def unaryOp? : Token.Kind → Option UnaryOp
  | .minus => some .negate
  | .bang => some .not
  | _ => none

/-- A chain and the operators before it. -/
def unary (n : Nested) : Parser Expr := do
  let operators ← iterate (fun operators => do
    match unaryOp? (← kind) with
    | some op => return some (operators ++ [(op, ← take)])
    | none => return none) []
  let operand ← n.chain
  return operators.foldr (fun (op, token) operand => .unary op token operand) operand

/-- The binary operators of one precedence. -/
abbrev Rung := List (Token.Kind × BinaryOp)

/-- The binary operators, the loosest first. -/
def ladder : List Rung :=
  [[(.or, .or)],
    [(.and, .and)],
    [(.equal, .equal), (.notEqual, .notEqual)],
    [(.less, .less), (.lessEqual, .lessEqual), (.greater, .greater),
      (.greaterEqual, .greaterEqual)],
    [(.plus, .add), (.minus, .subtract)],
    [(.star, .multiply), (.slash, .divide), (.percent, .remainder)]]

/-- Operands with the operators of these rungs between them; each rung associates to the left. -/
def binary (operand : Parser Expr) : List Rung → Parser Expr
  | [] => operand
  | rung :: tighter => do
    iterate (fun left => do
      match rung.lookup (← kind) with
      | some op =>
        let operator ← take
        return some (.binary op operator left (← binary operand tighter))
      | none => return none) (← binary operand tighter)

/-- A conditional expression, or a tighter one. -/
def ternaryOf (n : Nested) : Parser Expr := do
  let condition ← binary n.unary ladder
  if ← at? .question then
    let question ← take
    let consequent ← n.ternary
    let _ ← expect .bang .expectedAlternative
    return .ternary question condition consequent (← n.ternary)
  else
    return condition

/-- Any expression. -/
def expressionOf (n : Nested) : Parser Expr := do
  if ← at? .fn then n.functionLiteral else n.ternaryOf

/-! ## Statements -/

/-- The end of a statement: a line break, the end of its block, or a block that it ended with. -/
def endStatement : Parser Unit := do
  match ← kind with
  | .newline =>
    let _ ← take
  | .dedent | .eof => return
  | _ =>
    if (← see Cursor.previousKind?) = some .dedent then return
    refuse .expectedStatementEnd

/-- A declaration, with its type if one is written. -/
def declaration (n : Nested) (mutable : Bool) : Parser Stmt := do
  let keyword ← take
  let name ← expect .identifier (.expectedDeclaredName keyword.lexeme)
  let type ← do
    if ← accept (.opening .round) then
      let written ← TypeExpr.read
      let _ ← expect (.closing .round) .expectedDeclaredTypeEnd
      pure (some written)
    else
      pure none
  let _ ← expect .colon .expectedDeclaredValue
  let value ← n.expression
  endStatement
  return .declare mutable name type value

/-- What an assignment to `target` is: only a name or a member can be assigned to. -/
def assignment? (target value : Expr) : Option Expr :=
  match target with
  | .name token => some (.assign token value)
  | .get object member => some (.set object member value)
  | _ => none

/-- An assignment. -/
def assignment (n : Nested) : Parser Stmt := do
  let _ ← take
  let target ← n.chain
  let _ ← expect .colon .expectedAssignedValue
  let value ← n.expression
  match assignment? target value with
  | none => refuseAt target.anchor .invalidTarget
  | some expression =>
    endStatement
    return .expression expression

/-- Whether an expression is a call. -/
def isCall : Expr → Bool
  | .call .. => true
  | _ => false

/-- A call for its effect. -/
def callStatement (n : Nested) : Parser Stmt := do
  let keyword ← take
  let head ← n.primary
  match ← n.suffix? head with
  | none => refuse .expectedCall
  | some first =>
    let expression ← iterate n.suffix? first
    if !isCall expression then refuseAt keyword .callWithoutCall
    endStatement
    return .expression expression

/-- The further branches of a conditional statement, each with a condition of its own. -/
def branches (n : Nested) (inLoop : Bool) : Parser (List (Token × Expr × List Stmt)) :=
  iterate (fun earlier => do
    move Cursor.splitLeadingWord
    if ← at? (.keyword .elif) then
      let keyword ← take
      let condition ← n.expression
      let body ← n.block inLoop
      return some (earlier ++ [(keyword, condition, body)])
    else
      return none) []

/-- A conditional statement with all its branches. -/
def conditional (n : Nested) (inLoop : Bool) : Parser Stmt := do
  let keyword ← take
  let condition ← n.expression
  let body ← n.block inLoop
  let further ← n.branches inLoop
  let last ← do
    if ← accept (.keyword .«else») then pure (.body (← n.block inLoop)) else pure .nothing
  return .branch keyword condition body <|
    further.foldr (fun (keyword, condition, body) rest => .branch keyword condition body rest) last

/-- A loop. -/
def loop (n : Nested) : Parser Stmt := do
  let keyword ← take
  let condition ← n.expression
  return .loop keyword condition (← n.block true)

/-- A way out of a loop; outside of one it is reported. -/
def leave (inLoop : Bool) : Parser Stmt := do
  let keyword ← take
  if !inLoop then report keyword .breakOutsideLoop
  endStatement
  return .leave keyword

/-- A way out of a function, with its answer if one is written. -/
def answer (n : Nested) : Parser Stmt := do
  let keyword ← take
  let value ← do
    match ← kind with
    | .newline | .dedent | .eof => pure none
    | _ => pure (some (← n.expression))
  endStatement
  return .answer keyword value

/-- The declaration of a function. -/
def functionDeclaration (n : Nested) : Parser Stmt := do
  let keyword ← take
  let name ← take
  let names ← parameters
  let body ← n.functionBody
  endStatement
  return .function name keyword names body

/-- An expression for its effect. -/
def expressionStatement (n : Nested) : Parser Stmt := do
  let value ← n.expression
  endStatement
  return .expression value

/-- A statement. -/
def statement (n : Nested) (inLoop : Bool) : Parser Stmt := do
  move Cursor.splitLeadingWord
  match ← kind with
  | .indent =>
    let _ ← take
    return .block (← n.statements inLoop)
  | .keyword .var => n.declaration false
  | .keyword .«mut» => n.declaration true
  | .keyword .«let» => n.assignment
  | .keyword .call => n.callStatement
  | .keyword .«if» => n.conditional inLoop
  | .keyword .«while» => n.loop
  | .keyword .«break» => leave inLoop
  | .keyword .«return» => n.answer
  | .keyword .elif => refuse (.branchWithoutIf .elif)
  | .keyword .«else» => refuse (.branchWithoutIf .«else»)
  | .fn =>
    if (← see Cursor.nextKind?) = some .identifier then n.functionDeclaration
    else n.expressionStatement
  | _ => n.expressionStatement

/-- One more statement of a block, or none at the end of it. -/
def blockRound (n : Nested) (inLoop : Bool) (earlier : List Stmt) :
    Parser (Option (List Stmt)) := do
  move Cursor.skipNewlines
  if ← accept .dedent then return none
  if ← at? .eof then return none
  return some (earlier ++ (← recover (n.statement inLoop)).toList)

/-- The statements of a block, to the end of it. -/
def statementsOf (n : Nested) (inLoop : Bool) : Parser (List Stmt) :=
  iterate (n.blockRound inLoop) []

/-- One more statement of a program, or none at the end of it.  A block that ends where none began
is passed over. -/
def programRound (n : Nested) (earlier : List Stmt) : Parser (Option (List Stmt)) := do
  move Cursor.skipNewlines
  if ← at? .eof then return none
  if ← accept .dedent then return some earlier
  return some (earlier ++ (← recover (n.statement false)).toList)

/-- The statements of a program. -/
def program (n : Nested) : Parser (List Stmt) := iterate n.programRound []

end Nested

/-- The parsers of what nests at most `depth` deep. -/
def nested : Nat → Nested
  | 0 =>
    { expression := Parser.endless
      ternary := Parser.endless
      statements := fun _ => Parser.endless }
  | depth + 1 =>
    { expression := fun s => (nested depth).expressionOf s
      ternary := fun s => (nested depth).ternaryOf s
      statements := fun inLoop s => (nested depth).statementsOf inLoop s }

end Offside
