import Offside.Proofs.Derivation
import Offside.Proofs.Trees

/-!
# Proofs/TreeTokens — the tokens in a tree
-/

namespace Offside

section

variable (P : Token → Prop)

mutual

/-- Holds of every token in a written type. -/
def TypeExpr.Every : TypeExpr → Prop
  | .named name arguments => P name ∧ EveryType arguments
  | .list bracket element => P bracket ∧ element.Every
  | .record brace fields => P brace ∧ EveryTypeField fields
  | .function paren parameters result => P paren ∧ EveryType parameters ∧ result.Every
  | .maybe inner => inner.Every

/-- Holds of every token in written types. -/
def EveryType : List TypeExpr → Prop
  | [] => True
  | first :: later => first.Every ∧ EveryType later

/-- Holds of every token in the fields of a written type. -/
def EveryTypeField : List (Token × TypeExpr) → Prop
  | [] => True
  | (key, type) :: later => (P key ∧ type.Every) ∧ EveryTypeField later

end

mutual

/-- Holds of every token in an expression. -/
def Expr.Every : Expr → Prop
  | .ternary question test consequent alternative =>
    P question ∧ test.Every ∧ consequent.Every ∧ alternative.Every
  | .binary _ operator left right => P operator ∧ left.Every ∧ right.Every
  | .group inner => inner.Every
  | .literal token _ => P token
  | .unary _ operator operand => P operator ∧ operand.Every
  | .name token => P token
  | .assign target value => P target ∧ value.Every
  | .call paren callee arguments => P paren ∧ callee.Every ∧ EveryExpr arguments
  | .get object member => object.Every ∧ member.Every
  | .set object member value => object.Every ∧ member.Every ∧ value.Every
  | .list bracket elements => P bracket ∧ EveryExpr elements
  | .record brace fields => P brace ∧ EveryField fields
  | .function keyword parameters body => P keyword ∧ (∀ t ∈ parameters, P t) ∧ EveryStmt body

/-- Holds of every token in a member access. -/
def Member.Every : Member → Prop
  | .field name => P name
  | .index bracket index => P bracket ∧ index.Every

/-- Holds of every token in expressions. -/
def EveryExpr : List Expr → Prop
  | [] => True
  | first :: later => first.Every ∧ EveryExpr later

/-- Holds of every token in the fields of a record. -/
def EveryField : List Field → Prop
  | [] => True
  | .mk key value :: later => (P key ∧ value.Every) ∧ EveryField later

/-- Holds of every token in a statement. -/
def Stmt.Every : Stmt → Prop
  | .expression value => value.Every
  | .block body => EveryStmt body
  | .branch keyword test body rest => P keyword ∧ test.Every ∧ EveryStmt body ∧ rest.Every
  | .loop keyword test body => P keyword ∧ test.Every ∧ EveryStmt body
  | .leave keyword => P keyword
  | .function name keyword parameters body =>
    P name ∧ P keyword ∧ (∀ t ∈ parameters, P t) ∧ EveryStmt body
  | .answer keyword none => P keyword
  | .answer keyword (some value) => P keyword ∧ value.Every
  | .declare _ name written value => P name ∧ (∀ type ∈ written, type.Every P) ∧ value.Every

/-- Holds of every token in what a conditional statement does where its condition fails. -/
def Otherwise.Every : Otherwise → Prop
  | .nothing => True
  | .body body => EveryStmt body
  | .branch keyword test body rest => P keyword ∧ test.Every ∧ EveryStmt body ∧ rest.Every

/-- Holds of every token in statements. -/
def EveryStmt : List Stmt → Prop
  | [] => True
  | first :: later => first.Every ∧ EveryStmt later

end

/-- Holds of every token in a field of a record. -/
def Field.Every : Field → Prop
  | .mk key value => P key ∧ value.Every P

end

variable {P : Token → Prop}

/-- What is asked of a list item by item is asked of all of its items. -/
theorem forall_mem_iff {α : Type} {F : List α → Prop} {Q : α → Prop} (hnil : F [])
    (hcons : ∀ a later, F (a :: later) ↔ Q a ∧ F later) {items : List α} :
    F items ↔ ∀ a ∈ items, Q a := by
  induction items with
  | nil => exact iff_of_true hnil (List.forall_mem_nil _)
  | cons a later ih => rw [hcons, ih, List.forall_mem_cons]

theorem everyType_iff {types} : EveryType P types ↔ ∀ t ∈ types, t.Every P :=
  forall_mem_iff trivial fun _ _ => .rfl

theorem everyTypeField_iff {fields} : EveryTypeField P fields ↔ ∀ f ∈ fields, P f.1 ∧ f.2.Every P :=
  forall_mem_iff trivial fun _ _ => .rfl

theorem everyExpr_iff {es} : EveryExpr P es ↔ ∀ e ∈ es, e.Every P :=
  forall_mem_iff trivial fun _ _ => .rfl

theorem everyStmt_iff {body} : EveryStmt P body ↔ ∀ st ∈ body, st.Every P :=
  forall_mem_iff trivial fun _ _ => .rfl

theorem everyField_iff {fields} : EveryField P fields ↔ ∀ f ∈ fields, f.Every P :=
  forall_mem_iff trivial fun f _ => by cases f; exact .rfl

/-- What is asked of the tokens in a tree: all of them have it if any token has it, and they have
whatever follows from it. -/
structure Tokenwise (F : (Token → Prop) → Prop) : Prop where
  all {P : Token → Prop} : (∀ t, P t) → F P
  mono {P P' : Token → Prop} : (∀ t, P t → P' t) → F P → F P'

namespace Tokenwise

variable {F G : (Token → Prop) → Prop}

theorem none : Tokenwise fun _ => True := ⟨fun _ => trivial, fun _ => id⟩

theorem one (t : Token) : Tokenwise fun P => P t := ⟨fun h => h t, fun himp => himp t⟩

theorem and (hF : Tokenwise F) (hG : Tokenwise G) : Tokenwise fun P => F P ∧ G P :=
  ⟨fun h => ⟨hF.all h, hG.all h⟩, fun himp h => ⟨hF.mono himp h.1, hG.mono himp h.2⟩⟩

theorem every {α : Type} {F : α → (Token → Prop) → Prop} {p : α → Prop}
    (h : ∀ a, Tokenwise (F a)) : Tokenwise fun P => ∀ a, p a → F a P :=
  ⟨fun hall a _ => (h a).all hall, fun himp hF a ha => (h a).mono himp (hF a ha)⟩

end Tokenwise

mutual

/-- What is said of every token of a written type is said token by token. -/
theorem TypeExpr.tokenwise : ∀ type : TypeExpr, Tokenwise (type.Every ·)
  | .named _ arguments => .and (.one _) (tokenwise_types arguments)
  | .list _ element => .and (.one _) element.tokenwise
  | .record _ fields => .and (.one _) (tokenwise_typeFields fields)
  | .function _ parameters result =>
    .and (.one _) (.and (tokenwise_types parameters) result.tokenwise)
  | .maybe inner => inner.tokenwise

theorem tokenwise_types : ∀ types : List TypeExpr, Tokenwise (EveryType · types)
  | [] => .none
  | type :: types => .and type.tokenwise (tokenwise_types types)

theorem tokenwise_typeFields :
    ∀ fields : List (Token × TypeExpr), Tokenwise (EveryTypeField · fields)
  | [] => .none
  | (_, type) :: fields => .and (.and (.one _) type.tokenwise) (tokenwise_typeFields fields)

end

/-- **What is said of every token of a tree is said token by token.** -/
theorem tokenwise : Claim.Passes ⟨fun e => Tokenwise (e.Every ·), fun m => Tokenwise (m.Every ·),
    fun es => Tokenwise (EveryExpr · es), fun fields => Tokenwise (EveryField · fields),
    fun st => Tokenwise (st.Every ·), fun rest => Tokenwise (rest.Every ·),
    fun body => Tokenwise (EveryStmt · body)⟩ where
  ternary htest hconsequent halternative :=
    .and (.one _) (.and htest (.and hconsequent halternative))
  binary hleft hright := .and (.one _) (.and hleft hright)
  literal := .one _
  unary h := .and (.one _) h
  name := .one _
  assign h := .and (.one _) h
  call hcallee hgiven := .and (.one _) (.and hcallee hgiven)
  get hobject hmember := .and hobject hmember
  set hobject hmember hvalue := .and hobject (.and hmember hvalue)
  list h := .and (.one _) h
  record h := .and (.one _) h
  lambda h := .and (.one _) (.and (.every .one) h)
  field := .one _
  index h := .and (.one _) h
  nilExprs := .none
  consExprs hfirst hlater := .and hfirst hlater
  nilFields := .none
  consFields hvalue hlater := .and (.and (.one _) hvalue) hlater
  branch htest hbody hrest := .and (.one _) (.and htest (.and hbody hrest))
  loop htest hbody := .and (.one _) (.and htest hbody)
  leave := .one _
  function h := .and (.one _) (.and (.one _) (.and (.every .one) h))
  bareAnswer := .one _
  answer h := .and (.one _) h
  declare h := .and (.one _) (.and (.every TypeExpr.tokenwise) h)
  nothing := .none
  elseIf htest hbody hrest := .and (.one _) (.and htest (.and hbody hrest))
  nilBody := .none
  consBody hfirst hlater := .and hfirst hlater

theorem Member.Every.anchor {m : Member} (h : m.Every P) : P m.anchor := by
  cases m with
  | field name => exact h
  | index bracket index => exact h.1

/-- The token that an expression is reported at is one of its own. -/
theorem Expr.Every.anchor : ∀ {e : Expr}, e.Every P → P e.anchor
  | .ternary .., h => h.1
  | .binary .., h => h.1
  | .group inner, h => Expr.Every.anchor (e := inner) h
  | .literal .., h => h
  | .unary .., h => h.1
  | .name _, h => h
  | .assign .., h => h.1
  | .call .., h => h.1
  | .get .., h => Member.Every.anchor h.2
  | .set .., h => Member.Every.anchor h.2.1
  | .list .., h => h.1
  | .record .., h => h.1
  | .function .., h => h.1

namespace Nested

theorem every_foldr_unary {operand : Expr} (h : operand.Every P) :
    ∀ operators : List (UnaryOp × Token), (∀ o ∈ operators, P o.2) →
      (operators.foldr (fun (op, token) operand => Expr.unary op token operand) operand).Every P
  | [], _ => h
  | _ :: later, hoperators =>
    have ⟨hfirst, hlater⟩ := List.forall_mem_cons.mp hoperators
    ⟨hfirst, every_foldr_unary h later hlater⟩

/-- An assignment has the tokens of its target and its value. -/
theorem every_of_assignment? {target value expression} (htarget : target.Every P)
    (hvalue : value.Every P) (h : assignment? target value = some expression) :
    expression.Every P := by
  rcases assignment?_cases h with ⟨name, rfl, rfl⟩ | ⟨object, member, rfl, rfl⟩
  · exact ⟨htarget, hvalue⟩
  · exact ⟨htarget.1, htarget.2, hvalue⟩

theorem every_foldr_branch (last : Otherwise) (hlast : last.Every P) :
    ∀ further : List (Token × Expr × List Stmt),
      (∀ b ∈ further, P b.1 ∧ b.2.1.Every P ∧ EveryStmt P b.2.2) →
      (further.foldr (fun (keyword, condition, body) rest =>
        Otherwise.branch keyword condition body rest) last).Every P
  | [], _ => hlast
  | (_, _, _) :: later, h =>
    have ⟨hfirst, hlater⟩ := List.forall_mem_cons.mp h
    ⟨hfirst.1, hfirst.2.1, hfirst.2.2, every_foldr_branch last hlast later hlater⟩

end Nested

end Offside
