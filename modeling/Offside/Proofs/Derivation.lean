import Offside.Proofs.Steps

/-!
# Proofs/Derivation — what the words of a program are there for

A word is a token and the part it plays: it leads a statement or a branch, it names a type, or it is
none of these.  `Derives` accounts for every word of a tree: `Derives c before tree after` says that
`before` is the words of `tree` and then `after`.  It is no more than that.  Precedence is left
open, and so is where a separator may be missing or doubled; but an assignment is only derived as a
statement, a way out of a loop only in a loop, and names in a row that have to differ do.
-/

namespace Offside

/-- The part that a token plays. -/
inductive Role where
  /-- It is the first of a statement. -/
  | statement
  /-- It is the first of a further branch of a conditional statement. -/
  | branch
  | typeName
  | inner
deriving DecidableEq, Repr

/-- Whether a keyword can play the part. -/
def Role.leads : Role → Bool
  | statement | branch => true
  | typeName | inner => false

/-- A token and the part it plays. -/
structure Word where
  token : Token
  role : Role
deriving DecidableEq, Repr

/-- What words are put together to. -/
inductive Category where
  | type | typeField | declaredType
  | parameter | parameters
  /-- An expression whose first word plays this part. -/
  | expression (role : Role)
  | field
  | functionBody
  | block (inLoop : Bool)
  | statement (inLoop : Bool)
  | otherwise (inLoop : Bool)
  | series (item : Category)

namespace Category

/-- The trees of a category. -/
@[reducible] def Tree : Category → Type
  | type => TypeExpr
  | typeField => Token × TypeExpr
  | declaredType => Option TypeExpr
  | parameter => Token
  | parameters => List Token
  | expression _ => Expr
  | field => Field
  | functionBody | block _ => List Stmt
  | statement _ => Stmt
  | otherwise _ => Otherwise
  | series item => List item.Tree

/-- What stands between the items of a series. -/
def separator : Category → Token.Kind
  | statement _ => .newline
  | _ => .comma

end Category

/-- What an assignment can be. -/
theorem Nested.assignment?_cases {target value assigned}
    (h : assignment? target value = some assigned) :
    (∃ name, target = .name name ∧ assigned = .assign name value) ∨
      ∃ object member, target = .get object member ∧ assigned = .set object member value := by
  unfold assignment? at h
  split at h
  · next name => exact .inl ⟨name, rfl, (Option.some.inj h).symm⟩
  · next object member => exact .inr ⟨object, member, rfl, (Option.some.inj h).symm⟩
  · cases h

theorem Nested.unaryOp?_cases {k op} (h : unaryOp? k = some op) : k = .minus ∨ k = .bang := by
  unfold unaryOp? at h
  split at h
  · exact .inl rfl
  · exact .inr rfl
  · cases h

/-- The end of a statement: a line break, or else the block ends too. -/
inductive Ending : List Word → List Word → Prop
  | newline {t after} (h : t.kind = .newline) : Ending (⟨t, .inner⟩ :: after) after
  | dedent {w after} (h : w.token.kind = .dedent) : Ending (w :: after) (w :: after)
  | final : Ending [] []

/-- The end of a block, which may be missing at the end of the program. -/
inductive Closing : List Word → List Word → Prop
  | dedent {t after} (h : t.kind = .dedent) : Closing (⟨t, .inner⟩ :: after) after
  | final : Closing [] []

/-- The first words are those of a tree. -/
inductive Derives : (c : Category) → List Word → c.Tree → List Word → Prop
  /- Series -/
  | none {item after} : Derives (.series item) after [] after
  | further {item before mid after} {trees : List item.Tree} {tree : item.Tree}
    (htrees : Derives (.series item) before trees mid) (htree : Derives item mid tree after) :
    Derives (.series item) before (trees ++ [tree]) after
  | separator {item before after} {trees : List item.Tree} {t}
    (htrees : Derives (.series item) before trees (⟨t, .inner⟩ :: after))
    (ht : t.kind = item.separator) : Derives (.series item) before trees after
  /- Types -/
  | named {t after} (ht : t.kind = .identifier) (hname : t.lexeme.toList.getLast? ≠ some '?') :
    Derives .type (⟨t, .typeName⟩ :: after) (.named t []) after
  | applied {t opener closer} {arguments : List TypeExpr} {mid after} (ht : t.kind = .identifier)
    (hname : t.lexeme.toList.getLast? ≠ some '?') (hopener : opener.kind = .opening .square)
    (harguments : Derives (.series .type) mid arguments (⟨closer, .inner⟩ :: after))
    (hcloser : closer.kind = .closing .square) :
    Derives .type (⟨t, .typeName⟩ :: ⟨opener, .inner⟩ :: mid) (.named t arguments) after
  | optional {t after} (ht : t.kind = .identifier) (hname : t.lexeme.toList.getLast? = some '?') :
    Derives .type (⟨t, .typeName⟩ :: after)
      (.maybe (.named { t with lexeme := String.ofList t.lexeme.toList.dropLast } [])) after
  | maybe {question} {type : TypeExpr} {before after}
    (htype : Derives .type before type (⟨question, .inner⟩ :: after))
    (hquestion : question.kind = .question) : Derives .type before (.maybe type) after
  | listType {bracket closer} {element : TypeExpr} {mid after}
    (hbracket : bracket.kind = .opening .square)
    (helement : Derives .type mid element (⟨closer, .inner⟩ :: after))
    (hcloser : closer.kind = .closing .square) :
    Derives .type (⟨bracket, .inner⟩ :: mid) (.list bracket element) after
  | recordType {brace closer} {fields : List (Token × TypeExpr)} {mid after}
    (hbrace : brace.kind = .opening .curly)
    (hfields : Derives (.series .typeField) mid fields (⟨closer, .inner⟩ :: after))
    (hcloser : closer.kind = .closing .curly) :
    Derives .type (⟨brace, .inner⟩ :: mid) (.record brace fields) after
  | functionType {paren closer arrow} {parameters : List TypeExpr} {result : TypeExpr}
    {mid mid' after} (hparen : paren.kind = .opening .round)
    (hparameters : Derives (.series .type) mid parameters
      (⟨closer, .inner⟩ :: ⟨arrow, .inner⟩ :: mid')) (hcloser : closer.kind = .closing .round)
    (harrow : arrow.kind = .arrow) (hresult : Derives .type mid' result after) :
    Derives .type (⟨paren, .inner⟩ :: mid) (.function paren parameters result) after
  | groupedType {paren closer} {type : TypeExpr} {mid after} (hparen : paren.kind = .opening .round)
    (htype : Derives (.series .type) mid [type] (⟨closer, .inner⟩ :: after))
    (hcloser : closer.kind = .closing .round) : Derives .type (⟨paren, .inner⟩ :: mid) type after
  | typeField {key colon} {type : TypeExpr} {mid after} (hkey : key.kind = .identifier)
    (hcolon : colon.kind = .colon) (htype : Derives .type mid type after) :
    Derives .typeField (⟨key, .inner⟩ :: ⟨colon, .inner⟩ :: mid) (key, type) after
  | untyped {after} : Derives .declaredType after Option.none after
  | typed {opener closer} {type : TypeExpr} {mid after} (hopener : opener.kind = .opening .round)
    (htype : Derives .type mid type (⟨closer, .inner⟩ :: after))
    (hcloser : closer.kind = .closing .round) :
    Derives .declaredType (⟨opener, .inner⟩ :: mid) (some type) after
  /- Functions -/
  | parameter {t after} (ht : t.kind = .identifier) :
    Derives .parameter (⟨t, .inner⟩ :: after) t after
  | parameters {opener closer} {names : List Token} {mid after}
    (hopener : opener.kind = .opening .round)
    (hnames : Derives (.series .parameter) mid names (⟨closer, .inner⟩ :: after))
    (hdistinct : (names.map (·.lexeme)).Nodup) (hcloser : closer.kind = .closing .round) :
    Derives .parameters (⟨opener, .inner⟩ :: mid) names after
  | shortBody {colon} {value : Expr} {mid after} (hcolon : colon.kind = .colon)
    (hvalue : Derives (.expression .inner) mid value after) :
    Derives .functionBody (⟨colon, .statement⟩ :: mid) [.answer colon (some value)] after
  | longBody {body : List Stmt} {before after} (hbody : Derives (.block false) before body after) :
    Derives .functionBody before body after
  /- Expressions -/
  | literal {r t after} (hrole : r ≠ .typeName)
    (ht : t.kind ∈ [.number, .text, .true, .false, .null]) :
    Derives (.expression r) (⟨t, r⟩ :: after) (.literal t (t.literal.getD .null)) after
  | name {r t after} (hrole : r ≠ .typeName) (ht : t.kind = .identifier) :
    Derives (.expression r) (⟨t, r⟩ :: after) (.name t) after
  | group {r opener closer} {value : Expr} {mid after} (hopener : opener.kind = .opening .round)
    (hvalue : Derives (.expression .inner) mid value (⟨closer, .inner⟩ :: after))
    (hcloser : closer.kind = .closing .round) :
    Derives (.expression r) (⟨opener, r⟩ :: mid) (.group value) after
  | list {r bracket closer} {elements : List Expr} {mid after}
    (hbracket : bracket.kind = .opening .square)
    (helements : Derives (.series (.expression .inner)) mid elements (⟨closer, .inner⟩ :: after))
    (hcloser : closer.kind = .closing .square) :
    Derives (.expression r) (⟨bracket, r⟩ :: mid) (.list bracket elements) after
  | record {r brace closer} {fields : List Field} {mid after}
    (hbrace : brace.kind = .opening .curly)
    (hfields : Derives (.series .field) mid fields (⟨closer, .inner⟩ :: after))
    (hdistinct : (fields.map (·.key.lexeme)).Nodup) (hcloser : closer.kind = .closing .curly) :
    Derives (.expression r) (⟨brace, r⟩ :: mid) (.record brace fields) after
  | field {key colon} {value : Expr} {mid after} (hkey : key.kind = .identifier)
    (hcolon : colon.kind = .colon) (hvalue : Derives (.expression .inner) mid value after) :
    Derives .field (⟨key, .inner⟩ :: ⟨colon, .inner⟩ :: mid) (.mk key value) after
  | call {r paren closer} {callee : Expr} {arguments : List Expr} {before mid after}
    (hcallee : Derives (.expression r) before callee (⟨paren, .inner⟩ :: mid))
    (hparen : paren.kind = .opening .round)
    (harguments : Derives (.series (.expression .inner)) mid arguments (⟨closer, .inner⟩ :: after))
    (hcloser : closer.kind = .closing .round) :
    Derives (.expression r) before (.call paren callee arguments) after
  | getField {r dot name} {object : Expr} {before after}
    (hobject : Derives (.expression r) before object (⟨dot, .inner⟩ :: ⟨name, .inner⟩ :: after))
    (hdot : dot.kind = .dot) (hname : name.kind = .identifier) :
    Derives (.expression r) before (.get object (.field name)) after
  | getIndex {r bracket closer} {object index : Expr} {before mid after}
    (hobject : Derives (.expression r) before object (⟨bracket, .inner⟩ :: mid))
    (hbracket : bracket.kind = .opening .square)
    (hindex : Derives (.expression .inner) mid index (⟨closer, .inner⟩ :: after))
    (hcloser : closer.kind = .closing .square) :
    Derives (.expression r) before (.get object (.index bracket index)) after
  | unary {r operator} {op : UnaryOp} {operand : Expr} {mid after}
    (hop : Nested.unaryOp? operator.kind = some op)
    (hoperand : Derives (.expression .inner) mid operand after) :
    Derives (.expression r) (⟨operator, r⟩ :: mid) (.unary op operator operand) after
  | binary {r operator} {rung : Nested.Rung} {op : BinaryOp} {left right : Expr} {before mid after}
    (hrung : rung ∈ Nested.ladder) (hop : rung.lookup operator.kind = some op)
    (hleft : Derives (.expression r) before left (⟨operator, .inner⟩ :: mid))
    (hright : Derives (.expression .inner) mid right after) :
    Derives (.expression r) before (.binary op operator left right) after
  | ternary {r question bang} {condition consequent alternative : Expr} {before mid mid' after}
    (hcondition : Derives (.expression r) before condition (⟨question, .inner⟩ :: mid))
    (hquestion : question.kind = .question)
    (hconsequent : Derives (.expression .inner) mid consequent (⟨bang, .inner⟩ :: mid'))
    (hbang : bang.kind = .bang) (halternative : Derives (.expression .inner) mid' alternative after)
    :
    Derives (.expression r) before (.ternary question condition consequent alternative) after
  | functionLiteral {r keyword} {names : List Token} {body : List Stmt} {mid mid' after}
    (hkeyword : keyword.kind = .fn) (hnames : Derives .parameters mid names mid')
    (hbody : Derives .functionBody mid' body after) :
    Derives (.expression r) (⟨keyword, r⟩ :: mid) (.function keyword names body) after
  /- Statements -/
  | block {inLoop newline indent} {body : List Stmt} {mid last after}
    (hnewline : newline.kind = .newline) (hindent : indent.kind = .indent)
    (hbody : Derives (.series (.statement inLoop)) mid body last) (hclosing : Closing last after) :
    Derives (.block inLoop) (⟨newline, .inner⟩ :: ⟨indent, .inner⟩ :: mid) body after
  | innerBlock {inLoop indent} {body : List Stmt} {mid last after} (hindent : indent.kind = .indent)
    (hbody : Derives (.series (.statement inLoop)) mid body last) (hclosing : Closing last after) :
    Derives (.statement inLoop) (⟨indent, .statement⟩ :: mid) (.block body) after
  | expression {inLoop} {value : Expr} {before mid after}
    (hvalue : Derives (.expression .statement) before value mid)
    (hend : mid = after ∨ Ending mid after) :
    Derives (.statement inLoop) before (.expression value) after
  | callStatement {inLoop keyword} {value : Expr} {mid mid' after}
    (hkeyword : keyword.kind = .keyword .call)
    (hvalue : Derives (.expression .inner) mid value mid') (hcall : Nested.isCall value = true)
    (hend : mid' = after ∨ Ending mid' after) :
    Derives (.statement inLoop) (⟨keyword, .statement⟩ :: mid) (.expression value) after
  | assignment {inLoop keyword colon} {target value assigned : Expr} {mid mid' mid'' after}
    (hkeyword : keyword.kind = .keyword .«let»)
    (htarget : Derives (.expression .inner) mid target (⟨colon, .inner⟩ :: mid'))
    (hcolon : colon.kind = .colon) (hvalue : Derives (.expression .inner) mid' value mid'')
    (hassigned : Nested.assignment? target value = some assigned)
    (hend : mid'' = after ∨ Ending mid'' after) :
    Derives (.statement inLoop) (⟨keyword, .statement⟩ :: mid) (.expression assigned) after
  | declare {inLoop mutable keyword name colon} {type : Option TypeExpr} {value : Expr}
    {mid mid' mid'' after} (hkeyword : keyword.kind = .keyword (if mutable then .«mut» else .var))
    (hname : name.kind = .identifier)
    (htype : Derives .declaredType mid type (⟨colon, .inner⟩ :: mid'))
    (hcolon : colon.kind = .colon) (hvalue : Derives (.expression .inner) mid' value mid'')
    (hend : mid'' = after ∨ Ending mid'' after) :
    Derives (.statement inLoop) (⟨keyword, .statement⟩ :: ⟨name, .inner⟩ :: mid)
      (.declare mutable name type value) after
  | function {inLoop keyword name} {names : List Token} {body : List Stmt} {mid mid' mid'' after}
    (hkeyword : keyword.kind = .fn) (hname : name.kind = .identifier)
    (hnames : Derives .parameters mid names mid') (hbody : Derives .functionBody mid' body mid'')
    (hend : mid'' = after ∨ Ending mid'' after) :
    Derives (.statement inLoop) (⟨keyword, .statement⟩ :: ⟨name, .inner⟩ :: mid)
      (.function name keyword names body) after
  | answerNothing {inLoop keyword mid after} (hkeyword : keyword.kind = .keyword .«return»)
    (hend : Ending mid after) :
    Derives (.statement inLoop) (⟨keyword, .statement⟩ :: mid) (.answer keyword Option.none) after
  | answer {inLoop keyword} {value : Expr} {mid mid' after}
    (hkeyword : keyword.kind = .keyword .«return»)
    (hvalue : Derives (.expression .inner) mid value mid') (hend : mid' = after ∨ Ending mid' after)
    :
    Derives (.statement inLoop) (⟨keyword, .statement⟩ :: mid) (.answer keyword (some value)) after
  | leave {keyword mid after} (hkeyword : keyword.kind = .keyword .«break»)
    (hend : Ending mid after) :
    Derives (.statement true) (⟨keyword, .statement⟩ :: mid) (.leave keyword) after
  | loop {inLoop keyword} {condition : Expr} {body : List Stmt} {mid mid' after}
    (hkeyword : keyword.kind = .keyword .«while»)
    (hcondition : Derives (.expression .inner) mid condition mid')
    (hbody : Derives (.block true) mid' body after) :
    Derives (.statement inLoop) (⟨keyword, .statement⟩ :: mid) (.loop keyword condition body) after
  | conditional {inLoop keyword} {condition : Expr} {body : List Stmt} {rest : Otherwise}
    {mid mid' mid'' after} (hkeyword : keyword.kind = .keyword .«if»)
    (hcondition : Derives (.expression .inner) mid condition mid')
    (hbody : Derives (.block inLoop) mid' body mid'')
    (hrest : Derives (.otherwise inLoop) mid'' rest after) :
    Derives (.statement inLoop) (⟨keyword, .statement⟩ :: mid) (.branch keyword condition body rest)
      after
  | otherwiseNothing {inLoop after} : Derives (.otherwise inLoop) after .nothing after
  | otherwiseBody {inLoop keyword} {body : List Stmt} {mid after}
    (hkeyword : keyword.kind = .keyword .«else») (hbody : Derives (.block inLoop) mid body after) :
    Derives (.otherwise inLoop) (⟨keyword, .branch⟩ :: mid) (.body body) after
  | otherwiseBranch {inLoop keyword} {condition : Expr} {body : List Stmt} {rest : Otherwise}
    {mid mid' mid'' after} (hkeyword : keyword.kind = .keyword .elif)
    (hcondition : Derives (.expression .inner) mid condition mid')
    (hbody : Derives (.block inLoop) mid' body mid'')
    (hrest : Derives (.otherwise inLoop) mid'' rest after) :
    Derives (.otherwise inLoop) (⟨keyword, .branch⟩ :: mid) (.branch keyword condition body rest)
      after

/-- The first words are those of some statements of a program, where the end of a block that never
began is passed over. -/
inductive DerivesProgram : List Word → List Stmt → List Word → Prop
  | none {after} : DerivesProgram after [] after
  | further {before mid after} {statements : List Stmt} {statement : Stmt}
    (hstatements : DerivesProgram before statements mid)
    (hstatement : Derives (.statement false) mid statement after) :
    DerivesProgram before (statements ++ [statement]) after
  | newline {before after} {statements : List Stmt} {t}
    (hstatements : DerivesProgram before statements (⟨t, .inner⟩ :: after)) (ht : t.kind = .newline)
    :
    DerivesProgram before statements after
  | dedent {before after} {statements : List Stmt} {t}
    (hstatements : DerivesProgram before statements (⟨t, .inner⟩ :: after)) (ht : t.kind = .dedent)
    :
    DerivesProgram before statements after

end Offside
