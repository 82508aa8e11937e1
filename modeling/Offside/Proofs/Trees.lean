import Offside.Syntax.Basic

/-!
# Proofs/Trees — induction over syntax trees

Expressions, members, fields, statements and alternatives are made of one another, so a claim about
one of them is proved together with claims about all others.  A `Claim` says what is claimed of each
kind of tree, `Claim.Passes` that the claim passes from the parts of a tree to the tree, and
the theorems on `Passes` that it then holds of all trees.
-/

namespace Offside

/-- What is claimed of each kind of tree, and of each kind of list in a tree. -/
structure Claim where
  expr : Expr → Prop
  member : Member → Prop
  exprs : List Expr → Prop
  fields : List Field → Prop
  stmt : Stmt → Prop
  rest : Otherwise → Prop
  body : List Stmt → Prop

namespace Claim

/-- What is claimed of the index of a member access that has one. -/
def OfIndex (P : Expr → Prop) : Member → Prop
  | .field _ => True
  | .index _ value => P value

/-- **A claim that passes from the parts of a tree to the tree.**  By default what is claimed of a
tree with one part is what is claimed of the part. -/
structure Passes (P : Claim) : Prop where
  ternary {question test consequent alternative} : P.expr test → P.expr consequent →
    P.expr alternative → P.expr (.ternary question test consequent alternative)
  binary {op operator left right} : P.expr left → P.expr right →
    P.expr (.binary op operator left right)
  group {inner} : P.expr inner → P.expr (.group inner) := by exact id
  literal {token value} : P.expr (.literal token value)
  unary {op operator operand} : P.expr operand → P.expr (.unary op operator operand) := by exact id
  name {token} : P.expr (.name token)
  assign {target value} : P.expr value → P.expr (.assign target value) := by exact id
  call {paren callee given} : P.expr callee → P.exprs given → P.expr (.call paren callee given)
  get {object member} : P.expr object → P.member member → P.expr (.get object member)
  set {object member value} : P.expr object → P.member member → P.expr value →
    P.expr (.set object member value)
  list {bracket elements} : P.exprs elements → P.expr (.list bracket elements) := by exact id
  record {brace fields} : P.fields fields → P.expr (.record brace fields) := by exact id
  lambda {keyword names body} : P.body body → P.expr (.function keyword names body)
  field {name} : P.member (.field name) := by intros; trivial
  index {bracket value} : P.expr value → P.member (.index bracket value) := by exact id
  nilExprs : P.exprs []
  consExprs {first later} : P.expr first → P.exprs later → P.exprs (first :: later)
  nilFields : P.fields []
  consFields {key value later} : P.expr value → P.fields later → P.fields (.mk key value :: later)
  expression {value} : P.expr value → P.stmt (.expression value) := by exact id
  block {body} : P.body body → P.stmt (.block body) := by exact id
  branch {keyword test body rest} : P.expr test → P.body body → P.rest rest →
    P.stmt (.branch keyword test body rest)
  loop {keyword test body} : P.expr test → P.body body → P.stmt (.loop keyword test body)
  leave {keyword} : P.stmt (.leave keyword)
  function {name keyword names body} : P.body body → P.stmt (.function name keyword names body)
  bareAnswer {keyword} : P.stmt (.answer keyword none)
  answer {keyword value} : P.expr value → P.stmt (.answer keyword (some value)) := by exact id
  declare {mutable name type value} : P.expr value → P.stmt (.declare mutable name type value)
  nothing : P.rest .nothing
  otherwise {body} : P.body body → P.rest (.body body) := by exact id
  elseIf {keyword test body rest} : P.expr test → P.body body → P.rest rest →
    P.rest (.branch keyword test body rest)
  nilBody : P.body []
  consBody {first later} : P.stmt first → P.body later → P.body (first :: later)

namespace Passes

variable {P : Claim} (h : P.Passes)

include h

mutual

/-- **The claim holds of every expression.** -/
theorem expr : ∀ e : Expr, P.expr e
  | .ternary _ test consequent alternative =>
    h.ternary (expr test) (expr consequent) (expr alternative)
  | .binary _ _ left right => h.binary (expr left) (expr right)
  | .group inner => h.group (expr inner)
  | .literal _ _ => h.literal
  | .unary _ _ operand => h.unary (expr operand)
  | .name _ => h.name
  | .assign _ value => h.assign (expr value)
  | .call _ callee given => h.call (expr callee) (exprs given)
  | .get object accessed => h.get (expr object) (member accessed)
  | .set object accessed value => h.set (expr object) (member accessed) (expr value)
  | .list _ elements => h.list (exprs elements)
  | .record _ given => h.record (fields given)
  | .function _ _ inner => h.lambda (body inner)

theorem member : ∀ m : Member, P.member m
  | .field _ => h.field
  | .index _ value => h.index (expr value)

theorem exprs : ∀ es : List Expr, P.exprs es
  | [] => h.nilExprs
  | first :: later => h.consExprs (expr first) (exprs later)

theorem fields : ∀ given : List Field, P.fields given
  | [] => h.nilFields
  | .mk _ value :: later => h.consFields (expr value) (fields later)

/-- **The claim holds of every statement.** -/
theorem stmt : ∀ st : Stmt, P.stmt st
  | .expression value => h.expression (expr value)
  | .block inner => h.block (body inner)
  | .branch _ test inner other => h.branch (expr test) (body inner) (rest other)
  | .loop _ test inner => h.loop (expr test) (body inner)
  | .leave _ => h.leave
  | .function _ _ _ inner => h.function (body inner)
  | .answer _ none => h.bareAnswer
  | .answer _ (some value) => h.answer (expr value)
  | .declare _ _ _ value => h.declare (expr value)

theorem rest : ∀ other : Otherwise, P.rest other
  | .nothing => h.nothing
  | .body inner => h.otherwise (body inner)
  | .branch _ test inner other => h.elseIf (expr test) (body inner) (rest other)

/-- **The claim holds of every body.** -/
theorem body : ∀ statements : List Stmt, P.body statements
  | [] => h.nilBody
  | first :: later => h.consBody (stmt first) (body later)

end

end Passes

end Claim

end Offside
