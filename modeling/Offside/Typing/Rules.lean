import Offside.Syntax.Basic
import Offside.Typing.Checker

/-!
# Typing/Rules — the types of expressions, and which statements have them

The rules first, each for the types of the parts that it is about, and then the walk that applies
them to expressions and statements.
-/

namespace Offside

/-! ## Written types -/

namespace TypeExpr

mutual

/-- The type that a written type stands for. -/
def resolve : TypeExpr → Ty
  | named name [] =>
    match name.lexeme with
    | "Number" => .number
    | "Text" => .text
    | "Boolean" => .boolean
    | "Nil" => .nil
    | other => .custom other []
  | named name (first :: later) => .custom name.lexeme (first.resolve :: resolveAll later)
  | list _ element => .list element.resolve
  | record _ fields => .record (resolveFields fields)
  | function _ parameters result => .function (resolveAll parameters) result.resolve
  | maybe inner => .maybe inner.resolve

/-- The types that written types stand for. -/
def resolveAll : List TypeExpr → List Ty
  | [] => []
  | type :: later => type.resolve :: resolveAll later

/-- The fields that written fields stand for. -/
def resolveFields : List (Token × TypeExpr) → List (String × Ty)
  | [] => []
  | (key, type) :: later => (key.lexeme, type.resolve) :: resolveFields later

end

end TypeExpr

namespace Check

/-! ## Rules -/

/-- Refuses a type at a token unless `holds`. -/
def require (holds : Bool) (token : Token) (fault : TypeFault) : Check Unit :=
  if holds then pure () else refuse token fault

/-- A condition is a Boolean. -/
def condition (anchor : Token) (type : Ty) : Check Unit :=
  require (type.compatible .boolean) anchor (.badCondition type)

/-- An operand of arithmetic is a number. -/
def numberOperand (operator : Token) (type : Ty) : Check Unit :=
  require (type.compatible .number) operator (.badNumberOperand operator.lexeme type)

/-- An operand of logic is a Boolean. -/
def booleanOperand (operator : Token) (type : Ty) : Check Unit :=
  require (type.compatible .boolean) operator (.badBooleanOperand operator.lexeme type)

/-- Whether a type is that of texts. -/
def isText : Ty → Bool
  | .text => true
  | _ => false

/-- Numbers and texts have an order. -/
def isOrdered (type : Ty) : Bool := type.compatible .number || type.compatible .text

/-- Whether the first type is optional, and the second is nil or agrees with what it is an option
of. -/
def isOptionOf (type other : Ty) : Bool :=
  match type with
  | .maybe inner => other.isNil || inner.compatible other
  | _ => false

/-- Whether values of these types can be told equal or not. -/
def areComparable (left right : Ty) : Bool :=
  left.compatible right || isOptionOf left right || isOptionOf right left

/-- The type of arithmetic on numbers. -/
def arithmetic (operator : Token) (left right : Ty) : Check Ty := do
  numberOperand operator left
  numberOperand operator right
  return .number

/-- The type of a binary operation. -/
def binary (op : BinaryOp) (operator : Token) (left right : Ty) : Check Ty :=
  match op with
  | .add =>
    if isText left || isText right then do
      require (left.compatible .text && right.compatible .text) operator (.cannotAdd left right)
      return .text
    else arithmetic operator left right
  | .subtract | .multiply | .divide | .remainder => arithmetic operator left right
  | .less | .lessEqual | .greater | .greaterEqual => do
    require (left.compatible right && isOrdered left && isOrdered right) operator
      (.cannotOrder left right)
    return .boolean
  | .equal | .notEqual => do
    require (areComparable left right) operator (.cannotCompare left right)
    return .boolean
  | .and | .or => do
    booleanOperand operator left
    booleanOperand operator right
    return .boolean

/-- The type of a unary operation. -/
def unary (op : UnaryOp) (operator : Token) (operand : Ty) : Check Ty :=
  match op with
  | .negate => do
    numberOperand operator operand
    return .number
  | .not => do
    require (operand.compatible .boolean) operator (.badNegation operand)
    return .boolean

/-- The type of a literal. -/
def literal : Token.Literal → Ty
  | .number _ => .number
  | .text _ => .text
  | .boolean _ => .boolean
  | .null => .nil

/-- The more telling one of two types that agree. -/
def prefer (first second : Ty) : Ty := if first.isVar then second else first

/-- The type that the branches of a conditional expression join to: nil and any type but an optional
one join to an optional type. -/
def join? (consequent alternative : Ty) : Option Ty :=
  match consequent, alternative with
  | .nil, .nil => some .nil
  | .nil, other => if other.isMaybe then none else some (.maybe other)
  | other, .nil => if other.isMaybe then none else some (.maybe other)
  | _, _ =>
    if consequent.compatible alternative then some (prefer consequent alternative) else none

/-- The type of a conditional expression. -/
def ternary (question : Token) (consequent alternative : Ty) : Check Ty :=
  match join? consequent alternative with
  | some type => return type
  | none => refuse question (.branchesDiffer consequent alternative)

/-- The type of the elements of a list so far, once an element of type `later` joins them. -/
def element (anchor : Token) (earlier : Option Ty) (later : Ty) : Check Ty :=
  match earlier with
  | none => return later
  | some earlier =>
    if earlier.compatible later then return prefer earlier later
    else refuse anchor (.elementsDiffer earlier later)

/-- The type of a field. -/
def field (object : Ty) (name : Token) : Check Ty :=
  match object with
  | .var _ => fresh
  | .record fields =>
    match fields.lookup name.lexeme with
    | some type => return type
    | none => refuse name (.noSuchField name.lexeme)
  | .list _ => refuse name (.fieldOfList name.lexeme)
  | other => refuse name (.memberOf other)

/-- The type of an element of a list; the type of the index is found in between. -/
def index (object : Ty) (bracket : Token) (indexType : Check Ty) : Check Ty :=
  match object with
  | .var _ => do
    let _ ← indexType
    fresh
  | .list element => do
    let type ← indexType
    require (type.compatible .number) bracket (.badIndex type)
    return element
  | .record _ => refuse bracket .indexOfRecord
  | other => refuse bracket (.memberOf other)

/-! ## Calls -/

section Calls

variable (compare : Ty → Ty.Comparison)

/-- Compares arguments with parameters, in order and counted from `number`. -/
def arguments (number : Nat) : List Ty → List (Token × Ty) → Subst → Check Subst
  | parameter :: parameters, (anchor, argument) :: later, s =>
    match compare argument parameter s with
    | .fits s' => arguments (number + 1) parameters later s'
    | .clashes s' => refuse anchor (.badArgument number (s'.apply parameter) argument)
    | .endless type s' => throw (.endless type s')
  | _, _, s => return s

/-- Whether a function takes nothing, which is to take nil. -/
def isNullary : Ty → Bool
  | .link input _ terminal => terminal && input.isNil
  | _ => false

/-- The number of arguments that a function of these parameters takes. -/
def arity (callee : Ty) (parameters : List Ty) : Nat :=
  if isNullary callee then 0 else parameters.length

/-- Whether a function takes these arguments by their number; one that takes nothing also takes a
single nil. -/
def arityMatches (callee : Ty) (parameters : List Ty) (given : List (Token × Ty)) : Bool :=
  given.length == arity callee parameters ||
    (isNullary callee && (given.map (·.2.isNil)) == [true])

/-- The type of a call.  Every call binds the variables of the function anew. -/
def call (paren : Token) (callee : Ty) (given : List (Token × Ty)) : Check Ty :=
  match callee.signature? with
  | some (parameters, result) => do
    require (arityMatches callee parameters given) paren
      (.wrongArity (arity callee parameters) given.length)
    return (← arguments compare 1 parameters given .empty).apply result
  | none => if callee.isVar then fresh else refuse paren (.cannotCall callee)

end Calls

/-! ## Names -/

/-- The name that a chain of member accesses begins with. -/
def root? : Expr → Option Token
  | .name token => some token
  | .get object _ => root? object
  | .group inner => root? inner
  | _ => none

/-- What a mutable name is bound to. -/
def lookupMutable (name : Token) : Check Binding := do
  let binding ← lookup name
  require binding.mutable name (.immutable name.lexeme)
  return binding

/-- Refuses an assignment to a member where the name that leads to it is immutable. -/
def ensureAssignable (object : Expr) : Check Unit :=
  match root? object with
  | some root => discard (lookupMutable root)
  | none => pure ()

/-- Declares the parameters of a function. -/
def declareParameters (names : List Token) (parameters : List Ty) : Check Unit :=
  (names.zip parameters).forM fun (name, type) => declare name ⟨false, type⟩

/-- The type of a function, with the types of its parameters and a walk over its body. -/
def function (names : List Token) (parameters : List Ty) (body : Check Unit) : Check Ty := do
  let result ← inScope .function do
    declareParameters names parameters
    body
    return (← innermost).answer.getD .nil
  return .function parameters result

/-- Binds a declared function before its body is walked over, with a result that is not known yet;
gives the types of its parameters. -/
def announce (name : Token) (names : List Token) : Check (List Ty) := do
  ensureNew name
  let parameters ← freshFor names
  let result ← fresh
  define name.lexeme ⟨false, .function parameters result⟩
  return parameters

/-- The declaration of a function, which the body may call. -/
def functionDeclaration (name : Token) (names : List Token) (body : Check Unit) : Check Unit := do
  let parameters ← announce name names
  let type ← function names parameters body
  define name.lexeme ⟨false, type⟩
  record name false type

/-- Refuses an answer outside of a function. -/
def ensureInFunction (keyword : Token) : Check Unit := do
  if (← function?).isNone then refuse keyword .answerOutsideFunction

/-- The type of the answers of the innermost function, once `type` is one of them. -/
def answer (anchor : Token) (type : Ty) : Check Unit := do
  match (← function?).bind (·.answer) with
  | none => setAnswer type
  | some earlier =>
    require (earlier.compatible type) anchor (.answersDiffer earlier type)
    if earlier.isVar && !type.isVar then setAnswer type

/-- The type of a declared name: the written one, if it takes what was inferred. -/
def declaredType (name : Token) (written : Option TypeExpr) (inferred : Ty) : Check Ty :=
  match written with
  | none => return inferred
  | some type => do
    require (type.resolve.accepts inferred) name (.declaredTypeDiffers type.resolve inferred)
    return type.resolve

end Check

/-! ## The walk

How arguments are compared with parameters is left open, so that the walk can be taken with a
comparison that gives up as well as with `Ty.fit`. -/

section Walk

variable (compare : Ty → Ty.Comparison)

open Check in
mutual

/-- The type of an expression, by a way to compare arguments. -/
def Expr.checkBy : Expr → Check Ty
  | .ternary question test consequent alternative => do
    condition test.anchor (← test.checkBy)
    let first ← consequent.checkBy
    let second ← alternative.checkBy
    Check.ternary question first second
  | .binary op operator left right => do
    let first ← left.checkBy
    let second ← right.checkBy
    Check.binary op operator first second
  | .group inner => inner.checkBy
  | .literal _ value => return Check.literal value
  | .unary op operator operand => do Check.unary op operator (← operand.checkBy)
  | .name token => return (← lookup token).type
  | .assign target value => do
    let binding ← lookupMutable target
    let type ← value.checkBy
    require (binding.type.accepts type) target (.cannotAssign type target.lexeme binding.type)
    return type
  | .call paren callee given => do
    let type ← callee.checkBy
    Check.call compare paren type (← checkArgumentsBy given)
  | .get object member => do member.checkBy (← object.checkBy)
  | .set object member value => do
    ensureAssignable object
    let target ← member.checkBy (← object.checkBy)
    let type ← value.checkBy
    require (target.accepts type) member.anchor (.cannotAssignMember type target)
    return type
  | .list _ elements => do
    match ← checkElementsBy none elements with
    | some type => return .list type
    | none => return .list (← fresh)
  | .record _ fields => return .record (← checkFieldsBy fields)
  | .function _ names body => do
    Check.function names (← freshFor names) (checkStatementsBy body)

/-- The type of a member of an object. -/
def Member.checkBy (object : Ty) : Member → Check Ty
  | .field name => field object name
  | .index bracket value => Check.index object bracket value.checkBy

/-- The types of arguments, each with the token that it is reported at. -/
def checkArgumentsBy : List Expr → Check (List (Token × Ty))
  | [] => return []
  | first :: later => do
    let type ← first.checkBy
    return (first.anchor, type) :: (← checkArgumentsBy later)

/-- The type of the elements of a list, given that of those before. -/
def checkElementsBy (earlier : Option Ty) : List Expr → Check (Option Ty)
  | [] => return earlier
  | first :: later => do
    let type ← element first.anchor earlier (← first.checkBy)
    checkElementsBy (some type) later

/-- The types of the fields of a record. -/
def checkFieldsBy : List Field → Check (List (String × Ty))
  | [] => return []
  | .mk key value :: later => do
    let type ← value.checkBy
    return (key.lexeme, type) :: (← checkFieldsBy later)

/-- Walks over a statement, by a way to compare arguments. -/
def Stmt.checkBy : Stmt → Check Unit
  | .expression value => discard value.checkBy
  | .block body => inScope .block (checkStatementsBy body)
  | .branch _ test body rest => do
    condition test.anchor (← test.checkBy)
    inScope .block (checkStatementsBy body)
    rest.checkBy
  | .loop _ test body => do
    condition test.anchor (← test.checkBy)
    inScope .block (checkStatementsBy body)
  | .leave _ => return
  | .function name _ names body => functionDeclaration name names (checkStatementsBy body)
  | .answer keyword none => do
    ensureInFunction keyword
    Check.answer keyword .nil
  | .answer keyword (some value) => do
    ensureInFunction keyword
    Check.answer value.anchor (← value.checkBy)
  | .declare mutable name written value => do
    ensureNew name
    let type ← declaredType name written (← value.checkBy)
    declare name ⟨mutable, type⟩
    record name mutable type

/-- Walks over what a conditional statement does where its condition fails. -/
def Otherwise.checkBy : Otherwise → Check Unit
  | .nothing => return
  | .body body => inScope .block (checkStatementsBy body)
  | .branch _ test body rest => do
    condition test.anchor (← test.checkBy)
    inScope .block (checkStatementsBy body)
    rest.checkBy

/-- Walks over statements in order. -/
def checkStatementsBy : List Stmt → Check Unit
  | [] => return
  | first :: later => do
    first.checkBy
    checkStatementsBy later

end

end Walk

/-- The type of an expression. -/
def Expr.check : Expr → Check Ty := Expr.checkBy Ty.fit

/-- Walks over a statement. -/
def Stmt.check : Stmt → Check Unit := Stmt.checkBy Ty.fit

end Offside
