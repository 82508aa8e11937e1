import Offside.Token.Basic

/-!
# Syntax/Basic — programs as trees

Tokens stay in the tree where a later stage reports at them: an operator, a name, the bracket that
opens a literal or an argument list.
-/

namespace Offside

/-- The operators between two operands. -/
inductive BinaryOp where
  | add | subtract | multiply | divide | remainder
  | equal | notEqual
  | less | lessEqual | greater | greaterEqual
  | and | or
deriving DecidableEq, Repr

/-- The operators before an operand. -/
inductive UnaryOp where
  | negate | not
deriving DecidableEq, Repr

/-- A type as a program writes it. -/
inductive TypeExpr where
  | named (name : Token) (arguments : List TypeExpr)
  | list (bracket : Token) (element : TypeExpr)
  | record (brace : Token) (fields : List (Token × TypeExpr))
  | function (paren : Token) (parameters : List TypeExpr) (result : TypeExpr)
  | maybe (inner : TypeExpr)
deriving Repr

mutual

/-- An expression. -/
inductive Expr where
  | ternary (question : Token) (condition consequent alternative : Expr)
  | binary (op : BinaryOp) (operator : Token) (left right : Expr)
  | group (inner : Expr)
  | literal (token : Token) (value : Token.Literal)
  | unary (op : UnaryOp) (operator : Token) (operand : Expr)
  | name (token : Token)
  | assign (name : Token) (value : Expr)
  | call (paren : Token) (callee : Expr) (arguments : List Expr)
  | get (object : Expr) (member : Member)
  | set (object : Expr) (member : Member) (value : Expr)
  | list (bracket : Token) (elements : List Expr)
  | record (brace : Token) (fields : List Field)
  | function (keyword : Token) (parameters : List Token) (body : List Stmt)

/-- What is asked of an object: a field by name, or an element by index. -/
inductive Member where
  | field (name : Token)
  | index (bracket : Token) (index : Expr)

/-- A field of a record literal. -/
inductive Field where
  | mk (key : Token) (value : Expr)

/-- A statement. -/
inductive Stmt where
  | expression (value : Expr)
  | block (body : List Stmt)
  | branch (keyword : Token) (condition : Expr) (body : List Stmt) (rest : Otherwise)
  | loop (keyword : Token) (condition : Expr) (body : List Stmt)
  | leave (keyword : Token)
  | function (name keyword : Token) (parameters : List Token) (body : List Stmt)
  | answer (keyword : Token) (value : Option Expr)
  | declare (mutable : Bool) (name : Token) (type : Option TypeExpr) (value : Expr)

/-- What a conditional statement does where its condition fails. -/
inductive Otherwise where
  | nothing
  | body (body : List Stmt)
  | branch (keyword : Token) (condition : Expr) (body : List Stmt) (rest : Otherwise)

end

/-- The token that a member access is reported at. -/
def Member.anchor : Member → Token
  | .field name => name
  | .index bracket _ => bracket

/-- The token that an expression is reported at. -/
def Expr.anchor : Expr → Token
  | .ternary question .. => question
  | .binary _ operator .. => operator
  | .group inner => inner.anchor
  | .literal token _ => token
  | .unary _ operator _ => operator
  | .name token => token
  | .assign target _ => target
  | .call paren .. => paren
  | .get _ member => member.anchor
  | .set _ member _ => member.anchor
  | .list bracket _ => bracket
  | .record brace _ => brace
  | .function keyword .. => keyword

/-- The key of a field. -/
def Field.key : Field → Token
  | .mk key _ => key

/-- The name that a statement declares, and whether it is mutable. -/
def Stmt.declared? : Stmt → Option (Token × Bool)
  | .declare mutable name _ _ => some (name, mutable)
  | .function name _ _ _ => some (name, false)
  | _ => none

end Offside
