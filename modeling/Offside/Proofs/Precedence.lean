import Offside.Proofs.Numbers
import Offside.Proofs.Yields

/-!
# Proofs/Precedence — how expressions are grouped

The levels of expressions are ordered by how tightly their parts hold together (`Level`), and a tree
respects the ladder if every part is as tight as its place asks for (`Expr.Laddered`).  The tokens
of such a tree, in order (`Writes`), are read as that tree again (`program?_of_writes`): where the
left operand of an operator ends, the rounds to come are those of the operator itself (`Spine`), and
what can follow an expression cannot go on with it (`goingOn`).
-/

namespace Offside

open List

/-! ## The ladder -/

/-- How tightly an expression holds together, the loosest first. -/
inductive Level where
  | function | ternary
  | or | and | equality | comparison | additive | multiplicative
  | unary | chain | primary
deriving DecidableEq, Repr

namespace Level

variable {l : Level}

/-- The place of a level on the ladder. -/
def rank : Level → Nat
  | function => 0
  | ternary => 1
  | or => 2
  | and => 3
  | equality => 4
  | comparison => 5
  | additive => 6
  | multiplicative => 7
  | unary => 8
  | chain => 9
  | primary => 10

instance : LE Level := ⟨fun a b => a.rank ≤ b.rank⟩

instance : LT Level := ⟨fun a b => a.rank < b.rank⟩

instance (a b : Level) : Decidable (a ≤ b) := inferInstanceAs (Decidable (a.rank ≤ b.rank))

instance (a b : Level) : Decidable (a < b) := inferInstanceAs (Decidable (a.rank < b.rank))

theorem le_refl (l : Level) : l ≤ l := Nat.le_refl l.rank

theorem eq_unary : unary ≤ l → ¬chain ≤ l → l = unary := by cases l <;> decide

theorem or_le : ternary ≤ l → l ≠ ternary → or ≤ l := by cases l <;> decide

theorem ternary_le : l ≠ function → ternary ≤ l := by cases l <;> decide

theorem not_chain_le : l ≤ unary → ¬chain ≤ l := by cases l <;> decide

end Level

/-- The level of an operator between two operands. -/
def BinaryOp.level : BinaryOp → Level
  | .or => .or
  | .and => .and
  | .equal | .notEqual => .equality
  | .less | .lessEqual | .greater | .greaterEqual => .comparison
  | .add | .subtract => .additive
  | .multiply | .divide | .remainder => .multiplicative

theorem BinaryOp.level_mem (op : BinaryOp) :
    Level.or ≤ op.level ∧ op.level ≤ .multiplicative := by cases op <;> decide

/-- The kind of the token that writes an operator. -/
def BinaryOp.kind : BinaryOp → Token.Kind
  | .add => .plus
  | .subtract => .minus
  | .multiply => .star
  | .divide => .slash
  | .remainder => .percent
  | .equal => .equal
  | .notEqual => .notEqual
  | .less => .less
  | .lessEqual => .lessEqual
  | .greater => .greater
  | .greaterEqual => .greaterEqual
  | .and => .and
  | .or => .or

/-- The kind of the token that writes an operator. -/
def UnaryOp.kind : UnaryOp → Token.Kind
  | .negate => .minus
  | .not => .bang

/-- The level of an expression.  Functions are no operands at all. -/
def Expr.level : Expr → Level
  | .ternary .. => .ternary
  | .binary op .. => op.level
  | .unary .. => .unary
  | .call .. | .get .. => .chain
  | .group _ | .literal .. | .name _ | .list .. | .record .. => .primary
  | .assign .. | .set .. | .function .. => .function

mutual

/-- Every part of an expression is as tight as its place asks for, functions have an expression for
a body, and keys and parameters are not repeated. -/
def Expr.Laddered : Expr → Prop
  | .ternary _ condition consequent alternative =>
    (.ternary < condition.level ∧ .ternary ≤ consequent.level ∧ .ternary ≤ alternative.level) ∧
      condition.Laddered ∧ consequent.Laddered ∧ alternative.Laddered
  | .binary op _ left right =>
    (op.level ≤ left.level ∧ op.level < right.level) ∧ left.Laddered ∧ right.Laddered
  | .group inner => inner.Laddered
  | .literal .. | .name _ => True
  | .unary _ _ operand => .unary ≤ operand.level ∧ operand.Laddered
  | .assign .. | .set .. => False
  | .call _ callee arguments =>
    .chain ≤ callee.level ∧ callee.Laddered ∧ LadderedAll arguments
  | .get object member => .chain ≤ object.level ∧ object.Laddered ∧ member.Laddered
  | .list _ elements => LadderedAll elements
  | .record _ fields => (fields.map (·.key.lexeme)).Nodup ∧ LadderedFields fields
  | .function _ parameters body => (parameters.map (·.lexeme)).Nodup ∧ LadderedBody body

/-- The index of an element respects the ladder. -/
def Member.Laddered : Member → Prop
  | .field _ => True
  | .index _ index => index.Laddered

/-- All of these respect the ladder. -/
def LadderedAll : List Expr → Prop
  | [] => True
  | e :: es => e.Laddered ∧ LadderedAll es

/-- The values of all of these fields respect the ladder. -/
def LadderedFields : List Field → Prop
  | [] => True
  | .mk _ value :: fields => value.Laddered ∧ LadderedFields fields

/-- The body of a function is an expression that respects the ladder. -/
def LadderedBody : List Stmt → Prop
  | [.answer _ (some value)] => value.Laddered
  | _ => False

end

/-- The value of a field respects the ladder. -/
def Field.Laddered : Field → Prop
  | .mk _ value => value.Laddered

theorem ladderedAll_iff {es} : LadderedAll es ↔ ∀ e ∈ es, e.Laddered :=
  forall_mem_iff trivial fun _ _ => .rfl

theorem ladderedFields_iff {fields} : LadderedFields fields ↔ ∀ f ∈ fields, f.Laddered :=
  forall_mem_iff trivial fun f _ => by cases f; exact .rfl

/-! ## The tokens of an expression -/

/-- What tokens can be written for. -/
inductive Form where
  | expression | field | parameter
  /-- Items with commas between them. -/
  | series (item : Form)

/-- The trees of a form. -/
@[reducible] def Form.Tree : Form → Type
  | expression => Expr
  | field => Field
  | parameter => Token
  | series item => List item.Tree

/-- These are the tokens of a tree, in order.  Those that the tree does not hold (closing brackets,
commas, dots, colons) may be any of their kind. -/
inductive Writes : (form : Form) → form.Tree → List Token → Prop
  | none {item : Form} : Writes (.series item) [] []
  | one {item : Form} {a : item.Tree} {w : List Token} (h : Writes item a w) :
    Writes (.series item) [a] w
  | more {item : Form} {a b : item.Tree} {later : List item.Tree} {comma} {w w' : List Token}
    (h : Writes item a w) (hcomma : comma.kind = .comma)
    (hlater : Writes (.series item) (b :: later) w') :
    Writes (.series item) (a :: b :: later) (w ++ comma :: w')
  | parameter {t : Token} (ht : t.kind = .identifier) : Writes .parameter t [t]
  | field {key colon} {value : Expr} {w : List Token} (hkey : key.kind = .identifier)
    (hcolon : colon.kind = .colon) (hvalue : Writes .expression value w) :
    Writes .field (.mk key value) (key :: colon :: w)
  | literal {t} (ht : t.kind ∈ Token.literalKinds) :
    Writes .expression (.literal t (t.literal.getD .null)) [t]
  | name {t} (ht : t.kind = .identifier) : Writes .expression (.name t) [t]
  | group {opener closer} {inner : Expr} {w : List Token} (hopener : opener.kind = .opening .round)
    (hinner : Writes .expression inner w) (hcloser : closer.kind = .closing .round) :
    Writes .expression (.group inner) (opener :: (w ++ [closer]))
  | list {bracket closer} {elements : List Expr} {w : List Token}
    (hbracket : bracket.kind = .opening .square)
    (helements : Writes (.series .expression) elements w) (hcloser : closer.kind = .closing .square)
    :
    Writes .expression (.list bracket elements) (bracket :: (w ++ [closer]))
  | record {brace closer} {fields : List Field} {w : List Token}
    (hbrace : brace.kind = .opening .curly) (hfields : Writes (.series .field) fields w)
    (hcloser : closer.kind = .closing .curly) :
    Writes .expression (.record brace fields) (brace :: (w ++ [closer]))
  | call {paren closer} {callee : Expr} {arguments : List Expr} {w w' : List Token}
    (hcallee : Writes .expression callee w) (hparen : paren.kind = .opening .round)
    (harguments : Writes (.series .expression) arguments w')
    (hcloser : closer.kind = .closing .round) :
    Writes .expression (.call paren callee arguments) (w ++ paren :: (w' ++ [closer]))
  | getField {dot name} {object : Expr} {w : List Token} (hobject : Writes .expression object w)
    (hdot : dot.kind = .dot) (hname : name.kind = .identifier) :
    Writes .expression (.get object (.field name)) (w ++ [dot, name])
  | getIndex {bracket closer} {object index : Expr} {w w' : List Token}
    (hobject : Writes .expression object w) (hbracket : bracket.kind = .opening .square)
    (hindex : Writes .expression index w') (hcloser : closer.kind = .closing .square) :
    Writes .expression (.get object (.index bracket index)) (w ++ bracket :: (w' ++ [closer]))
  | unary {op : UnaryOp} {operator} {operand : Expr} {w : List Token}
    (hoperator : operator.kind = op.kind) (hoperand : Writes .expression operand w) :
    Writes .expression (.unary op operator operand) (operator :: w)
  | binary {op : BinaryOp} {operator} {left right : Expr} {w w' : List Token}
    (hleft : Writes .expression left w) (hoperator : operator.kind = op.kind)
    (hright : Writes .expression right w') :
    Writes .expression (.binary op operator left right) (w ++ operator :: w')
  | ternary {question bang} {condition consequent alternative : Expr} {w w' w'' : List Token}
    (hcondition : Writes .expression condition w) (hquestion : question.kind = .question)
    (hconsequent : Writes .expression consequent w') (hbang : bang.kind = .bang)
    (halternative : Writes .expression alternative w'') :
    Writes .expression (.ternary question condition consequent alternative)
      (w ++ question :: (w' ++ bang :: w''))
  | function {keyword opener closer colon} {names : List Token} {value : Expr} {w w' : List Token}
    (hkeyword : keyword.kind = .fn) (hopener : opener.kind = .opening .round)
    (hnames : Writes (.series .parameter) names w) (hcloser : closer.kind = .closing .round)
    (hcolon : colon.kind = .colon) (hvalue : Writes .expression value w') :
    Writes .expression (.function keyword names [.answer colon (some value)])
      (keyword :: opener :: (w ++ closer :: colon :: w'))

theorem UnaryOp.plain (op : UnaryOp) : op.kind ≠ .eof ∧ op.kind ≠ .softNewline := by
  cases op <;> decide

theorem BinaryOp.plain (op : BinaryOp) : op.kind ≠ .eof ∧ op.kind ≠ .softNewline := by
  cases op <;> decide

/-- Neither the end of the program nor a soft line break is a token of a tree. -/
theorem Writes.plain {form tree w} (h : Writes form tree w) :
    ∀ t ∈ w, t.kind ≠ .eof ∧ t.kind ≠ .softNewline := by
  induction h with
  | none => exact nofun
  | one _ ih => exact ih
  | literal ht =>
    intro t hmem
    obtain rfl := mem_singleton.mp hmem
    exact ⟨fun h => absurd (h ▸ ht) (by decide), fun h => absurd (h ▸ ht) (by decide)⟩
  | @unary op _ _ _ hoperator _ ih => simpa [hoperator, op.plain] using ih
  | @binary op _ _ _ _ _ _ hoperator _ ih ih' =>
    simp only [forall_mem_append, forall_mem_cons, hoperator]
    exact ⟨ih, op.plain, ih'⟩
  | function hkeyword hopener _ hcloser hcolon _ ih ih' =>
    simp only [forall_mem_cons, forall_mem_append, hkeyword, hopener, hcloser, hcolon]
    exact ⟨by decide, by decide, ih, by decide, by decide, ih'⟩
  | _ => grind

namespace Nested

open Offside.Parser

variable {e object : Expr} {w after w' later names : List Token} {j : Nat} {k : Token.Kind}
  {t closer newline opener operator bracket : Token} {elements : List Expr} {op : BinaryOp}
  {n : Nested}

/-! ## What goes on with an expression -/

/-- The kinds of tokens that go on with a call, or with operands and operators of these rungs. -/
def goingOn (rungs : List Rung) : List Token.Kind :=
  [.opening .round, .dot, .opening .square] ++ rungs.flatMap (·.map (·.1))

/-- A round of a rung: one more operator with its right operand. -/
def rungRound (operand : Parser Expr) (rung : Rung) (tighter : List Rung) (left : Expr) :
    Parser (Option Expr) := do
  match rung.lookup (← kind) with
  | some op =>
    let operator ← take
    return some (.binary op operator left (← binary operand tighter))
  | none => return none

theorem binary_cons (operand : Parser Expr) (rung : Rung) (tighter : List Rung) :
    binary operand (rung :: tighter) = (do
      iterate (rungRound operand rung tighter) (← binary operand tighter)) := rfl

theorem ladder_drop (hj : j < 6) : ∃ rung, ladder.drop j = rung :: ladder.drop (j + 1) ∧
    ∀ op : BinaryOp, op.level.rank = j + 2 → rung.lookup op.kind = some op := by
  refine ⟨ladder[j], drop_eq_getElem_cons hj, fun op hop => ?_⟩
  have hindex : j = op.level.rank - 2 := by omega
  subst hindex
  cases op <;> rfl

theorem goingOn_cons (rung : Rung) (rungs : List Rung) :
    k ∈ goingOn (rung :: rungs) ↔ k ∈ goingOn rungs ∨ k ∈ rung.map (·.1) := by
  simp only [goingOn, flatMap_cons, mem_append]
  tauto

theorem lookup_eq_none {rung : Rung} (h : k ∉ rung.map (·.1)) : rung.lookup k = none := by
  rw [lookup_eq_none_iff]
  rintro ⟨kind, op⟩ hmem
  rw [bne_iff_ne]
  rintro rfl
  exact h (mem_map_of_mem hmem)

/-- An operator of a rung does not go on with what is tighter. -/
theorem kind_notMem_goingOn (hop : op.level.rank = j + 2) :
    op.kind ∉ goingOn (ladder.drop (j + 1)) := by
  have hindex : j = op.level.rank - 2 := by omega
  subst hindex
  cases op <;> decide

/-! ## Reading from a level on -/

/-- Where nothing goes on with it, the expression is read from rung `j` of the ladder on. -/
def ReadsFrom (j : Nat) (e : Expr) (w : List Token) : Prop :=
  ∀ (depth : Nat) (after : List Token), headKind after ∉ goingOn (ladder.drop j) →
    Yields (binary (nested depth).unary (ladder.drop j)) (w ++ after) e after

/-- Read from rung `j` on, the expression is where the rounds of the rung begin. -/
def Spine (j : Nat) (e : Expr) (w : List Token) : Prop :=
  ∀ (depth : Nat) (rung : Rung) (after : List Token) (b : Expr) (last : List Token),
    ladder.drop j = rung :: ladder.drop (j + 1) →
    headKind after ∉ goingOn (ladder.drop (j + 1)) →
    Rounds (rungRound (nested depth).unary rung (ladder.drop (j + 1))) e after b last →
    Yields (binary (nested depth).unary (ladder.drop j)) (w ++ after) b last

/-- The expression is what the rounds of calls and member accesses begin with. -/
def ChainSpine (e : Expr) (w : List Token) : Prop :=
  ∀ (depth : Nat) (after : List Token) (b : Expr) (last : List Token),
    Rounds (nested depth).suffix? e after b last → Yields (nested depth).chain (w ++ after) b last

/-- A round of the operators before an operand. -/
def operatorRound (operators : List (UnaryOp × Token)) :
    Parser (Option (List (UnaryOp × Token))) := do
  match unaryOp? (← kind) with
  | some op => return some (operators ++ [(op, ← take)])
  | none => return none

/-- Operators before an operand. -/
def applied (operators : List (UnaryOp × Token)) (operand : Expr) : Expr :=
  operators.foldr (fun (op, token) operand => .unary op token operand) operand

/-- The expression is a chain and the operators before it. -/
def UnarySpine (e : Expr) (w : List Token) : Prop :=
  ∀ (depth : Nat) (after : List Token), headKind after ∉ goingOn [] → ∀ earlier,
    ∃ operators operand mid, e = applied operators operand ∧
      Rounds operatorRound earlier (w ++ after) (earlier ++ operators) mid ∧
      Yields (nested depth).chain mid operand after

/-- Nothing goes on with an expression here. -/
def Stops (after : List Token) : Prop := headKind after ∉ .question :: goingOn ladder

/-- The kinds of the tokens that an expression without operators begins with. -/
def primaryKinds : List Token.Kind :=
  Token.literalKinds ++ [.identifier, .opening .round, .opening .square, .opening .curly]

/-- What the first token of an expression is. -/
structure Starts (e : Expr) (t : Token) (later : List Token) : Prop where
  kind : t.kind ∈ primaryKinds ++ [.minus, .bang, .fn]
  operator : t.kind = .minus ∨ t.kind = .bang → e.level ≤ .unary
  fn : t.kind = .fn → e.level = .function ∧ headKind later = .opening .round

/-- The tokens are read as the expression from every level on that is not tighter. -/
structure Readable (e : Expr) (w : List Token) : Prop where
  starts : ∃ t later, w = t :: later ∧ Starts e t later
  chain : Level.chain ≤ e.level → ChainSpine e w
  unary : Level.unary ≤ e.level → UnarySpine e w
  spine : ∀ j < 6, j + 2 ≤ e.level.rank → Spine j e w
  reads : ∀ j ≤ 6, j + 2 ≤ e.level.rank → ReadsFrom j e w
  ternary : Level.ternary ≤ e.level → ∀ (depth : Nat) (after : List Token), Stops after →
    Yields (nested depth).ternary (w ++ after) e after
  whole : ∀ (depth : Nat) (after : List Token), Stops after →
    Yields (nested depth).expression (w ++ after) e after

theorem suffix?_none (h : headKind after ∉ goingOn []) : Yields (n.suffix? e) after none after := by
  refine .kind ?_
  split
  · next hk => exact absurd (hk ▸ by decide) h
  · next hk => exact absurd (hk ▸ by decide) h
  · next hk => exact absurd (hk ▸ by decide) h
  · exact .pure

theorem ChainSpine.unarySpine (h : ChainSpine e w)
    (hstart : ∀ after, unaryOp? (headKind (w ++ after)) = none) : UnarySpine e w := by
  intro depth after hafter earlier
  refine ⟨[], e, w ++ after, rfl, ?_, h depth after e after (.done (suffix?_none hafter))⟩
  rw [append_nil]
  refine .done (.kind ?_)
  rw [hstart]
  exact .pure

theorem UnarySpine.readsFrom (h : UnarySpine e w) : ReadsFrom 6 e w := by
  intro depth after hafter
  obtain ⟨operators, operand, mid, he, hrounds, hchain⟩ := h depth after hafter []
  subst he
  exact (Yields.iterate hrounds).bind (hchain.bind .pure)

/-- What is read from the next rung on is where the rounds of this one begin. -/
theorem ReadsFrom.spine (h : ReadsFrom (j + 1) e w) : Spine j e w := by
  intro depth rung after b last hdrop hafter hrounds
  rw [hdrop, binary_cons]
  exact (h depth after hafter).bind (.iterate hrounds)

/-- An operand whose rounds are to come is read from its rung on. -/
theorem Spine.readsFrom (h : Spine j e w) (hj : j < 6) : ReadsFrom j e w := by
  intro depth after hafter
  obtain ⟨rung, hdrop, -⟩ := ladder_drop hj
  rw [hdrop, goingOn_cons, not_or] at hafter
  refine h depth rung after e after hdrop hafter.1 (.done (.kind ?_))
  rw [lookup_eq_none hafter.2]
  exact .pure

/-- From the rung of an expression on, it is read from every looser one. -/
theorem readsFrom_of_spine (hspine : ∀ j < 6, e.level.rank = j + 2 → Spine j e w)
    (hunary : Level.unary ≤ e.level → ReadsFrom 6 e w) :
    ∀ d j, j + d = 6 → j + 2 ≤ e.level.rank → ReadsFrom j e w
  | 0, j, hd, hj => by
    obtain rfl : j = 6 := hd
    exact hunary hj
  | d + 1, j, hd, hj => by
    refine Spine.readsFrom ?_ (by omega)
    by_cases hrank : e.level.rank = j + 2
    · exact hspine j (by omega) hrank
    · exact (readsFrom_of_spine hspine hunary d (j + 1) (by omega) (by omega)).spine

theorem ReadsFrom.ternaryOf (h : ReadsFrom 0 e w) (depth : Nat) (hafter : Stops after) :
    Yields (nested depth).ternaryOf (w ++ after) e after := by
  obtain ⟨hquestion, hladder⟩ := not_or.mp (mem_cons.not.mp hafter)
  exact (h depth after hladder).bind (.at?_neg hquestion .pure)

/-- **An expression is readable as soon as it is read at its own level.** -/
theorem Readable.of_level (hstarts : ∃ t later, w = t :: later ∧ Starts e t later)
    (hchain : Level.chain ≤ e.level → ChainSpine e w)
    (hunary : e.level = .unary → UnarySpine e w)
    (hspine : ∀ j < 6, e.level.rank = j + 2 → Spine j e w)
    (hternary : e.level = .ternary → ∀ depth after, Stops after →
      Yields (nested depth).ternaryOf (w ++ after) e after)
    (hfunction : e.level = .function → headKind w = .fn ∧ ∀ depth after, Stops after →
      Yields (nested depth).functionLiteral (w ++ after) e after) : Readable e w := by
  obtain ⟨t, later, rfl, hstart⟩ := hstarts
  have hunarySpine : Level.unary ≤ e.level → UnarySpine e (t :: later) := by
    intro hle
    by_cases hchain' : Level.chain ≤ e.level
    · refine (hchain hchain').unarySpine fun after => ?_
      cases hop : unaryOp? (headKind (t :: later ++ after)) with
      | none => rfl
      | some op => exact absurd hchain' (Level.not_chain_le (hstart.operator (unaryOp?_cases hop)))
    · exact hunary (Level.eq_unary hle hchain')
  have hreads : ∀ j ≤ 6, j + 2 ≤ e.level.rank → ReadsFrom j e (t :: later) := fun j hj =>
    readsFrom_of_spine hspine (fun h => (hunarySpine h).readsFrom) (6 - j) j (by omega)
  have hternaryOf : Level.ternary ≤ e.level → ∀ depth after, Stops after →
      Yields (nested depth).ternaryOf (t :: later ++ after) e after := by
    intro hle depth after hafter
    by_cases hlevel : e.level = .ternary
    · exact hternary hlevel depth after hafter
    · exact (hreads 0 (by omega) (Level.or_le hle hlevel)).ternaryOf depth hafter
  have hexpressionOf : ∀ depth after, Stops after →
      Yields (nested depth).expressionOf (t :: later ++ after) e after := by
    intro depth after hafter
    by_cases hlevel : e.level = .function
    · obtain ⟨hfn, hliteral⟩ := hfunction hlevel
      exact .at?_pos hfn (hliteral depth after hafter)
    · exact .at?_neg (fun hfn => hlevel (hstart.fn hfn).1)
        (hternaryOf (Level.ternary_le hlevel) depth after hafter)
  refine ⟨⟨t, later, rfl, hstart⟩, hchain, hunarySpine, fun j hj hrank => ?_, hreads, ?_, ?_⟩
  · by_cases heq : e.level.rank = j + 2
    · exact hspine j hj heq
    · exact (hreads (j + 1) (by omega) (by omega)).spine
  · intro hle depth after hafter
    cases depth with
    | zero => exact .endless
    | succ depth => exact hternaryOf hle depth after hafter
  · intro depth after hafter
    cases depth with
    | zero => exact .endless
    | succ depth => exact hexpressionOf depth after hafter

theorem stops_of_kind (h : headKind after = k)
    (hk : k ∉ Token.Kind.question :: goingOn ladder) : Stops after := by
  rwa [Stops, h]

/-- Neither a comma nor a closing bracket goes on with an expression. -/
theorem stops_of_separator {pair after'} (h : headKind after' = .comma ∨ after' = closer :: after)
    (hcloser : closer.kind = .closing pair) : Stops after' := by
  rcases h with hcomma | rfl
  · exact stops_of_kind hcomma (by decide)
  · exact stops_of_kind hcloser (by cases pair <;> decide)

/-! ## Expressions without operators -/

/-- What a primary reads is readable. -/
theorem Readable.of_primary (hlevel : e.level = .primary)
    (hstarts : ∃ t later, w = t :: later ∧ Starts e t later)
    (h : ∀ depth after, Yields (nested depth).primary (w ++ after) e after) : Readable e w := by
  refine .of_level hstarts
    (fun _ depth after b last hrounds => (h depth after).bind (.iterate hrounds)) ?_ ?_ ?_ ?_ <;>
    rw [hlevel]
  · nofun
  · intro j hj hrank
    simp only [Level.rank] at hrank
    omega
  · nofun
  · nofun

theorem Starts.primary (hkind : t.kind ∈ primaryKinds) : Starts e t later := by
  refine ⟨mem_append_left _ hkind, ?_, ?_⟩
  · rintro (h | h) <;> exact absurd (h ▸ hkind) (by decide)
  · intro h
    exact absurd (h ▸ hkind) (by decide)

theorem readable_literal (ht : t.kind ∈ Token.literalKinds) :
    Readable (.literal t (t.literal.getD .null)) [t] := by
  refine .of_primary rfl ⟨t, [], rfl, .primary (mem_append_left _ ht)⟩ fun depth after => .kind ?_
  simp only [Token.literalKinds, mem_cons, not_mem_nil, or_false] at ht
  rw [singleton_append, headKind_cons]
  rcases ht with ht | ht | ht | ht | ht <;> rw [ht] <;> exact Yields.take.bind .pure

theorem readable_name (ht : t.kind = .identifier) : Readable (.name t) [t] := by
  refine .of_primary rfl ⟨t, [], rfl, .primary (by rw [ht]; decide)⟩ fun depth after => .kind ?_
  rw [singleton_append, headKind_cons, ht]
  exact Yields.take.bind .pure

theorem readable_group {inner} (hopener : opener.kind = .opening .round) (hinner : Readable inner w)
    (hcloser : closer.kind = .closing .round) :
    Readable (.group inner) (opener :: (w ++ [closer])) := by
  refine .of_primary rfl ⟨opener, w ++ [closer], rfl, .primary (by rw [hopener]; decide)⟩
    fun depth after => .kind ?_
  have hread := hinner.whole depth (closer :: after) (stops_of_kind hcloser (by decide))
  rw [cons_append, headKind_cons, hopener, append_assoc, singleton_append]
  exact Yields.take.bind (hread.bind ((Yields.expect hcloser).bind .pure))

/-- What has to be known of the parts of a tree to read it. -/
def ReadableAs : (form : Form) → form.Tree → List Token → Prop
  | .expression, e, w => e.Laddered → Readable e w
  | .field, .mk key value, w => ∃ colon later, w = key :: colon :: later ∧
      key.kind = .identifier ∧ colon.kind = .colon ∧ (value.Laddered → Readable value later)
  | .parameter, t, w => w = [t] ∧ t.kind = .identifier
  | .series item, trees, w => Separated (ReadableAs item) trees w

theorem Readable.headKind_ne (h : Readable e w) (after : List Token)
    (hk : k ∉ primaryKinds ++ [.minus, .bang, .fn]) : headKind (w ++ after) ≠ k := by
  obtain ⟨t, later, rfl, hstart⟩ := h.starts
  rintro rfl
  exact hk hstart.kind

/-- What is not repeated is not among what is before it. -/
theorem any_eq_false {α : Type} {f : α → String} {a : α} {earlier later : List α}
    (h : ((earlier ++ a :: later).map f).Nodup) : earlier.any (f · == f a) = false := by
  rw [map_append, nodup_append] at h
  simp only [List.any_eq_false, beq_iff_eq]
  exact fun b hb => h.2.2 _ (mem_map_of_mem hb) _ mem_cons_self

theorem readable_list (hbracket : bracket.kind = .opening .square)
    (helements : Separated (ReadableAs .expression) elements w) (hladder : LadderedAll elements)
    (hcloser : closer.kind = .closing .square) :
    Readable (.list bracket elements) (bracket :: (w ++ [closer])) := by
  refine .of_primary rfl ⟨bracket, w ++ [closer], rfl, .primary (by rw [hbracket]; decide)⟩
    fun depth after => .kind ?_
  rw [cons_append, headKind_cons, hbracket, append_assoc, singleton_append]
  refine Yields.take.bind (.bind (.elements ?_ hcloser (by decide) helements)
    ((Yields.expect hcloser).bind .pure))
  rintro earlier e later rfl w after' he hafter'
  have hread : Readable e w := he (ladderedAll_iff.mp hladder e (by simp))
  exact ⟨hread.headKind_ne after' (by decide),
    hread.whole depth after' (stops_of_separator hafter' hcloser)⟩

theorem readable_record {brace : Token} {fields : List Field}
    (hbrace : brace.kind = .opening .curly) (hfields : Separated (ReadableAs .field) fields w)
    (hdistinct : (fields.map (·.key.lexeme)).Nodup) (hladder : LadderedFields fields)
    (hcloser : closer.kind = .closing .curly) :
    Readable (.record brace fields) (brace :: (w ++ [closer])) := by
  refine .of_primary rfl ⟨brace, w ++ [closer], rfl, .primary (by rw [hbrace]; decide)⟩
    fun depth after => .kind ?_
  rw [cons_append, headKind_cons, hbrace, append_assoc, singleton_append]
  refine Yields.take.bind (.bind (.elements ?_ hcloser (by decide) hfields)
    ((Yields.expect hcloser).bind .pure))
  rintro earlier ⟨key, value⟩ later rfl w after' ⟨colon, mid, rfl, hkey, hcolon, hvalue⟩ hafter'
  have hread : Readable value mid :=
    hvalue (ladderedFields_iff.mp hladder (.mk key value) (by simp))
  refine ⟨by rw [cons_append, headKind_cons, hkey]; nofun, ?_⟩
  have hnew := Bool.eq_false_iff.mp (any_eq_false hdistinct)
  have hend := hread.whole depth after' (stops_of_separator hafter' hcloser)
  exact (Yields.expect hkey).bind (.ite_neg hnew ((Yields.expect hcolon).bind (hend.bind .pure)))

/-! ## Calls and member access -/

theorem Readable.of_chain (hlevel : e.level = .chain)
    (hstarts : ∃ t later, w = t :: later ∧ Starts e t later) (h : ChainSpine e w) :
    Readable e w := by
  refine .of_level hstarts (fun _ => h) ?_ ?_ ?_ ?_ <;> rw [hlevel]
  · nofun
  · intro j hj hrank
    simp only [Level.rank] at hrank
    omega
  · nofun
  · nofun

/-- A longer chain begins as what it goes on with. -/
theorem Readable.starts_chain {e'} (h : Readable e w) (hlevel : Level.chain ≤ e.level) :
    ∃ t more, w ++ later = t :: more ∧ Starts e' t more := by
  obtain ⟨t, more, rfl, hstart⟩ := h.starts
  refine ⟨t, more ++ later, rfl, hstart.kind, fun hop => ?_, fun hfn => ?_⟩
  · exact absurd hlevel (Level.not_chain_le (hstart.operator hop))
  · rw [(hstart.fn hfn).1] at hlevel
    exact absurd hlevel (by decide)

theorem headKind_ne (h : Separated (ReadableAs .expression) elements w) (hne : elements ≠ [])
    (hladder : LadderedAll elements) (after : List Token)
    (hk : k ∉ primaryKinds ++ [.minus, .bang, .fn]) : headKind (w ++ after) ≠ k := by
  cases h with
  | none => exact absurd rfl hne
  | one h => exact (h hladder.1).headKind_ne after hk
  | more h =>
    rw [append_assoc]
    exact (h hladder.1).headKind_ne _ hk

/-- A call is readable if its callee and its arguments are. -/
theorem readable_call {paren : Token} {callee : Expr} {arguments : List Expr}
    (hcallee : Readable callee w) (hlevel : Level.chain ≤ callee.level)
    (hparen : paren.kind = .opening .round)
    (harguments : Separated (ReadableAs .expression) arguments w')
    (hladder : LadderedAll arguments) (hcloser : closer.kind = .closing .round) :
    Readable (.call paren callee arguments) (w ++ paren :: (w' ++ [closer])) := by
  refine .of_chain rfl (hcallee.starts_chain hlevel) fun depth after b last hrounds => ?_
  rw [append_assoc, cons_append, append_assoc, singleton_append]
  refine hcallee.chain hlevel depth _ b last (.step (.kind ?_) hrounds)
  rw [headKind_cons, hparen]
  have hclose : ∀ {target : Expr}, Yields (do
      let _ ← expect (.closing .round) .expectedArgumentListEnd
      return some target) (closer :: after) (some target) after :=
    (Yields.expect hcloser).bind .pure
  refine Yields.take.bind ?_
  by_cases hnone : arguments = []
  · subst hnone
    cases harguments
    exact .at?_pos hcloser (Yields.pure.bind hclose)
  · refine .at?_neg (headKind_ne harguments hnone hladder _ (by decide))
      (.bind (.commaSeparated ?_ (by rw [headKind_cons, hcloser]; nofun) harguments hnone) hclose)
    rintro earlier e later rfl w after' he hafter'
    exact (he (ladderedAll_iff.mp hladder e (by simp))).whole depth after'
      (stops_of_separator hafter' hcloser)

theorem readable_getField {dot name : Token} (hobject : Readable object w)
    (hlevel : Level.chain ≤ object.level) (hdot : dot.kind = .dot)
    (hname : name.kind = .identifier) :
    Readable (.get object (.field name)) (w ++ [dot, name]) := by
  refine .of_chain rfl (hobject.starts_chain hlevel) fun depth after b last hrounds => ?_
  rw [append_assoc]
  refine hobject.chain hlevel depth _ b last (.step (.kind ?_) hrounds)
  rw [cons_append, headKind_cons, hdot]
  exact Yields.take.bind ((Yields.expect hname).bind .pure)

theorem readable_getIndex {index} (hobject : Readable object w)
    (hlevel : Level.chain ≤ object.level) (hbracket : bracket.kind = .opening .square)
    (hindex : Readable index w') (hcloser : closer.kind = .closing .square) :
    Readable (.get object (.index bracket index)) (w ++ bracket :: (w' ++ [closer])) := by
  refine .of_chain rfl (hobject.starts_chain hlevel) fun depth after b last hrounds => ?_
  have hread := hindex.whole depth (closer :: after) (stops_of_kind hcloser (by decide))
  rw [append_assoc, cons_append, append_assoc, singleton_append]
  refine hobject.chain hlevel depth _ b last (.step (.kind ?_) hrounds)
  rw [headKind_cons, hbracket]
  exact Yields.take.bind (hread.bind ((Yields.expect hcloser).bind .pure))

/-! ## Operators -/

@[simp] theorem unaryOp?_kind (op : UnaryOp) : unaryOp? op.kind = some op := by cases op <;> rfl

/-- An operator before a readable operand is readable. -/
theorem readable_unary {op operand} (hoperator : operator.kind = op.kind)
    (hoperand : Readable operand w) (hlevel : Level.unary ≤ operand.level) :
    Readable (.unary op operator operand) (operator :: w) := by
  have hkind : operator.kind = .minus ∨ operator.kind = .bang := by
    rw [hoperator]
    cases op
    · exact .inl rfl
    · exact .inr rfl
  have hspine : UnarySpine (.unary op operator operand) (operator :: w) := by
    intro depth after hafter earlier
    obtain ⟨operators, head, mid, rfl, hrounds, hchain⟩ :=
      hoperand.unary hlevel depth after hafter (earlier ++ [(op, operator)])
    refine ⟨(op, operator) :: operators, head, mid, rfl, ?_, hchain⟩
    rw [append_assoc, singleton_append] at hrounds
    refine .step (.kind ?_) hrounds
    rw [cons_append, headKind_cons, hoperator, unaryOp?_kind]
    exact Yields.take.bind .pure
  refine .of_level ⟨operator, w, rfl, ?_, fun _ => Level.le_refl _, fun hfn => ?_⟩ (fun h => ?_)
    (fun _ => hspine) (fun j hj hrank => ?_) nofun nofun
  · rcases hkind with h | h <;> rw [h] <;> decide
  · rcases hkind with h | h <;> cases hfn.symm.trans h
  · exact absurd h (Level.not_chain_le (Level.le_refl _))
  · have : Level.unary.rank = j + 2 := hrank
    simp only [Level.rank] at this
    omega

/-- An operator between readable operands is, the right one tighter. -/
theorem readable_binary {right left} (hleft : Readable left w) (hlevel : op.level ≤ left.level)
    (hoperator : operator.kind = op.kind) (hright : Readable right w')
    (hlevel' : op.level < right.level) :
    Readable (.binary op operator left right) (w ++ operator :: w') := by
  obtain ⟨hlow, hhigh⟩ := op.level_mem
  have hstarts : ∃ t later, w ++ operator :: w' = t :: later ∧
      Starts (.binary op operator left right) t later := by
    obtain ⟨t, later, rfl, hstart⟩ := hleft.starts
    refine ⟨t, later ++ operator :: w', rfl, hstart.kind, fun _ => ?_, fun hfn => ?_⟩
    · exact Nat.le_trans hhigh (by decide)
    · rw [(hstart.fn hfn).1] at hlevel
      exact absurd (Nat.le_trans hlow hlevel) (by decide)
  refine .of_level hstarts (fun h => absurd (Nat.le_trans h hhigh) (by decide))
    (fun h => ?_) (fun j hj hrank => ?_) (fun h => ?_) fun h => ?_
  · rw [show op.level = .unary from h] at hhigh
    exact absurd hhigh (by decide)
  · -- the left operand is where the rounds of the rung begin, this operator the first of them
    have hop : op.level.rank = j + 2 := hrank
    intro depth rung after b last hdrop hafter hrounds
    obtain ⟨rung', hdrop', hlookup⟩ := ladder_drop hj
    obtain rfl : rung' = rung := (cons.inj (hdrop'.symm.trans hdrop)).1
    rw [append_assoc, cons_append]
    refine hleft.spine j hj (hop ▸ hlevel) depth rung' _ b last hdrop ?_ (.step (.kind ?_) hrounds)
    · rw [headKind_cons, hoperator]
      exact kind_notMem_goingOn hop
    · have htight : op.level.rank < right.level.rank := hlevel'
      have hoperand := hright.reads (j + 1) hj (by omega) depth after hafter
      rw [headKind_cons, hoperator, hlookup op hop]
      exact Yields.take.bind (hoperand.bind .pure)
  · rw [show op.level = .ternary from h] at hlow
    exact absurd hlow (by decide)
  · rw [show op.level = .function from h] at hlow
    exact absurd hlow (by decide)

/-- So is a choice between readable expressions. -/
theorem readable_ternary {question bang condition consequent alternative w''}
    (hcondition : Readable condition w) (hlevel : Level.ternary < condition.level)
    (hquestion : question.kind = .question) (hconsequent : Readable consequent w')
    (hlevel' : Level.ternary ≤ consequent.level) (hbang : bang.kind = .bang)
    (halternative : Readable alternative w'') (hlevel'' : Level.ternary ≤ alternative.level) :
    Readable (.ternary question condition consequent alternative)
      (w ++ question :: (w' ++ bang :: w'')) := by
  have hstarts : ∃ t later, w ++ question :: (w' ++ bang :: w'') = t :: later ∧
      Starts (.ternary question condition consequent alternative) t later := by
    obtain ⟨t, later, rfl, hstart⟩ := hcondition.starts
    refine ⟨t, later ++ question :: (w' ++ bang :: w''), rfl, hstart.kind, fun _ => ?_,
      fun hfn => ?_⟩
    · exact show Level.ternary ≤ .unary by decide
    · rw [(hstart.fn hfn).1] at hlevel
      exact absurd hlevel (by decide)
  refine .of_level hstarts (fun h => ?_) nofun (fun j _ hrank => ?_)
    (fun _ depth after hafter => ?_) nofun
  · exact absurd (show Level.chain ≤ .ternary from h) (by decide)
  · have : Level.ternary.rank = j + 2 := hrank
    simp only [Level.rank] at this
    omega
  · have hreadConsequent :=
      hconsequent.ternary hlevel' depth (bang :: (w'' ++ after)) (stops_of_kind hbang (by decide))
    have hreadAlternative := halternative.ternary hlevel'' depth after hafter
    rw [append_assoc, cons_append, append_assoc, cons_append]
    refine (hcondition.reads 0 (by omega) hlevel depth _ ?_).bind (.at?_pos hquestion ?_)
    · rw [headKind_cons, hquestion]
      decide
    · exact Yields.take.bind (hreadConsequent.bind ((Yields.expect hbang).bind
        (hreadAlternative.bind .pure)))

/-! ## Functions -/

/-- A parameter list without repetitions. -/
theorem yields_parameters
    (hopener : opener.kind = .opening .round) (hnames : Separated (ReadableAs .parameter) names w)
    (hdistinct : (names.map (·.lexeme)).Nodup) (hcloser : closer.kind = .closing .round) :
    Yields parameters (opener :: (w ++ closer :: after)) names after := by
  refine (Yields.expect hopener).bind ?_
  by_cases hnone : names = []
  · subst hnone
    cases hnames
    exact (Yields.accept_pos hcloser).bind .pure
  · have hfirst : headKind (w ++ closer :: after) ≠ .closing .round := by
      cases hnames with
      | none => exact absurd rfl hnone
      | one h =>
        rw [h.1, singleton_append, headKind_cons, h.2]
        nofun
      | more h =>
        rw [h.1, append_assoc, singleton_append, headKind_cons, h.2]
        nofun
    refine (Yields.accept_neg hfirst).bind (.bind (.commaSeparated ?_
      (by rw [headKind_cons, hcloser]; nofun) hnames hnone) ((Yields.expect hcloser).bind .pure))
    rintro earlier t later rfl w after' ⟨rfl, ht⟩ -
    exact (Yields.expect ht).bind (.ite_neg (Bool.eq_false_iff.mp (any_eq_false hdistinct)) .pure)

/-- A function is readable if what it answers is. -/
theorem readable_function {keyword colon value} (hkeyword : keyword.kind = .fn)
    (hopener : opener.kind = .opening .round) (hnames : Separated (ReadableAs .parameter) names w)
    (hdistinct : (names.map (·.lexeme)).Nodup) (hcloser : closer.kind = .closing .round)
    (hcolon : colon.kind = .colon) (hvalue : Readable value w') :
    Readable (.function keyword names [.answer colon (some value)])
      (keyword :: opener :: (w ++ closer :: colon :: w')) := by
  refine .of_level ⟨keyword, _, rfl, by rw [hkeyword]; decide, fun hop => ?_,
    fun _ => ⟨rfl, hopener⟩⟩ (fun h => ?_) nofun (fun j _ hrank => ?_) nofun
    fun _ => ⟨hkeyword, fun depth after hafter => ?_⟩
  · rw [hkeyword] at hop
    rcases hop with hop | hop <;> cases hop
  · exact absurd (show Level.chain ≤ .function from h) (by decide)
  · have : Level.function.rank = j + 2 := hrank
    simp only [Level.rank] at this
    omega
  · have hread := hvalue.whole depth after hafter
    rw [cons_append, cons_append, append_assoc, cons_append, cons_append]
    refine Yields.take.bind (.at?_neg (by rw [headKind_cons, hopener]; nofun)
      ((yields_parameters hopener hnames hdistinct hcloser).bind ?_))
    exact .bind (.at?_pos hcolon (Yields.take.bind (hread.bind .pure))) .pure

/-- **The tokens of a tree that respects the ladder are read as that tree.** -/
theorem readable_of_writes {form tree} (h : Writes form tree w) : ReadableAs form tree w := by
  induction h with
  | none => exact .none
  | one _ ih => exact .one ih
  | more _ hcomma _ ih ih' => exact .more ih hcomma ih'
  | parameter ht => exact ⟨rfl, ht⟩
  | field hkey hcolon _ ih => exact ⟨_, _, rfl, hkey, hcolon, ih⟩
  | literal ht => exact fun _ => readable_literal ht
  | name ht => exact fun _ => readable_name ht
  | group hopener _ hcloser ih => exact fun hladder => readable_group hopener (ih hladder) hcloser
  | list hbracket _ hcloser ih => exact fun hladder => readable_list hbracket ih hladder hcloser
  | record hbrace _ hcloser ih =>
    exact fun hladder => readable_record hbrace ih hladder.1 hladder.2 hcloser
  | call _ hparen _ hcloser ih ih' =>
    rintro ⟨hlevel, hcallee, harguments⟩
    exact readable_call (ih hcallee) hlevel hparen ih' harguments hcloser
  | getField _ hdot hname ih =>
    rintro ⟨hlevel, hobject, -⟩
    exact readable_getField (ih hobject) hlevel hdot hname
  | getIndex _ hbracket _ hcloser ih ih' =>
    rintro ⟨hlevel, hobject, hindex⟩
    exact readable_getIndex (ih hobject) hlevel hbracket (ih' hindex) hcloser
  | unary hoperator _ ih =>
    rintro ⟨hlevel, hoperand⟩
    exact readable_unary hoperator (ih hoperand) hlevel
  | binary _ hoperator _ ih ih' =>
    rintro ⟨⟨hlevel, hlevel'⟩, hleft, hright⟩
    exact readable_binary (ih hleft) hlevel hoperator (ih' hright) hlevel'
  | ternary _ hquestion _ hbang _ ih ih' ih'' =>
    rintro ⟨⟨hlevel, hlevel', hlevel''⟩, hcondition, hconsequent, halternative⟩
    exact readable_ternary (ih hcondition) hlevel hquestion (ih' hconsequent) hlevel' hbang
      (ih'' halternative) hlevel''
  | function hkeyword hopener _ hcloser hcolon _ ih ih' =>
    rintro ⟨hdistinct, hvalue⟩
    exact readable_function hkeyword hopener ih hdistinct hcloser hcolon (ih' hvalue)

theorem yields_endStatement (hnewline : newline.kind = .newline) :
    Yields endStatement [newline] () [] := by
  refine .kind ?_
  rw [headKind_cons, hnewline]
  exact Yields.take.bind .pure

theorem yields_expressionStatement
    (h : Yields n.expression (w ++ [newline]) e [newline]) (hnewline : newline.kind = .newline) :
    Yields n.expressionStatement (w ++ [newline]) (.expression e) [] :=
  h.bind ((yields_endStatement hnewline).bind .pure)

/-- An expression that does not begin with a keyword is a statement. -/
theorem Readable.statement (h : Readable e w) (hnewline : newline.kind = .newline)
    (hfirst : ∀ t ∈ w.head?, Cursor.leadingWord t = [t]) (depth : Nat) :
    Yields ((nested depth).statement false) (w ++ [newline]) (.expression e) [] := by
  have hread := yields_expressionStatement
    (h.whole depth [newline] (stops_of_kind hnewline (by decide))) hnewline
  obtain ⟨t, later, rfl, hstart⟩ := h.starts
  rw [cons_append] at hread ⊢
  refine (Yields.splitLeadingWord (hfirst t rfl)).bind (.kind ?_)
  rw [singleton_append, headKind_cons]
  split
  case h_12 hfn =>
    refine .nextKind? (.ite_neg ?_ hread)
    have hparen := (hstart.fn hfn).2
    cases later with
    | nil => cases hparen
    | cons u later =>
      rw [cons_append, head?_cons, Option.map_some, show u.kind = _ from hparen]
      nofun
  case h_13 => exact hread
  all_goals next hk => exact absurd (hk ▸ hstart.kind) (by decide)

end Nested

/-- The first word of a name is a keyword. -/
def Token.LedByKeyword (t : Token) : Prop :=
  t.kind = .identifier ∧
    (Keyword.ofWord? (String.ofList (t.lexeme.toList.takeWhile (!Token.isJoiner ·)))).isSome

theorem Cursor.leadingWord_eq_self {t} (h : ¬t.LedByKeyword) : leadingWord t = [t] := by
  rcases leadingWord_cases t with hself | ⟨hkind, k, hk, -⟩ |
    ⟨hkind, k, first, joiner, later, hlexeme, hjoiner, hfirst, hk, -⟩
  · exact hself
  · refine absurd ⟨hkind, ?_⟩ h
    have hword : t.lexeme.toList.takeWhile (!Token.isJoiner ·) = t.lexeme.toList := by
      rw [← Keyword.word_of_ofWord? hk]
      cases k <;> decide
    rw [hword, String.ofList_toList, hk]
    rfl
  · refine absurd ⟨hkind, ?_⟩ h
    rw [hlexeme, takeWhile_append_of_pos (by simpa using hfirst),
      takeWhile_cons_of_neg (by simp [hjoiner]), append_nil, hk]
    rfl

/-- **Expressions are grouped by the ladder.**  The tokens of an expression that respects the
ladder, on a line of their own and not led by a keyword, are read as this one statement. -/
theorem program?_of_writes {e : Expr} {w : List Token} {newline final : Token} (h : e.Laddered)
    (hwrites : Writes .expression e w) (hfirst : ∀ t ∈ w.head?, ¬t.LedByKeyword)
    (hnewline : newline.kind = .newline) (hfinal : final.kind = .eof) :
    (Parsed.ofTokens (w ++ [newline, final])).program? = some [.expression e] := by
  have hread : Nested.Readable e w := Nested.readable_of_writes hwrites h
  have hplain : ∀ t ∈ w ++ [newline], t.kind ≠ .eof ∧ t.kind ≠ .softNewline := by
    intro t ht
    rcases mem_append.mp ht with ht | ht
    · exact hwrites.plain t ht
    · rw [mem_singleton.mp ht, hnewline]
      decide
  have hyields := hread.statement hnewline fun t ht => Cursor.leadingWord_eq_self (hfirst t ht)
  rw [← singleton_append, ← append_assoc]
  refine Parsed.program?_of_yields hplain hfinal fun depth => .program ?_ (hyields depth)
  obtain ⟨t, later, rfl, hstart⟩ := hread.starts
  rw [cons_append, Parser.headKind_cons]
  intro hmem
  simp only [mem_cons, not_mem_nil, or_false] at hmem
  rcases hmem with hk | hk | hk <;> exact absurd (hk ▸ hstart.kind) (by decide)

/-- A token at the beginning of a text. -/
def Token.mark (kind : Token.Kind) (lexeme : String) : Token := ⟨kind, lexeme, none, .start⟩

section Grouped

open Token (mark)

/-- The condition of `groupedExpr`, in which the terms of a difference are taken one by one:
`-f(a).b * c - d - e`. -/
def groupedCondition : Expr :=
  .binary .subtract (mark .minus "-")
    (.binary .subtract (mark .minus "-")
      (.binary .multiply (mark .star "*")
        (.unary .negate (mark .minus "-")
          (.get (.call (mark (.opening .round) "(") (.name (mark .identifier "f"))
            [.name (mark .identifier "a")]) (.field (mark .identifier "b"))))
        (.name (mark .identifier "c")))
      (.name (mark .identifier "d")))
    (.name (mark .identifier "e"))

/-- `-f(a).b * c - d - e ? {k: fn (y) : y} ! g or h and i ? j ! k`, where the alternative is
conditional too. -/
def groupedExpr : Expr :=
  .ternary (mark .question "?") groupedCondition
    (.record (mark (.opening .curly) "\x7b") [.mk (mark .identifier "k")
      (.function (mark .fn "fn") [mark .identifier "y"]
        [.answer (mark .colon ":") (some (.name (mark .identifier "y")))])])
    (.ternary (mark .question "?")
      (.binary .or (mark .or "or") (.name (mark .identifier "g"))
        (.binary .and (mark .and "and") (.name (mark .identifier "h"))
          (.name (mark .identifier "i"))))
      (.name (mark .identifier "j")) (.name (mark .identifier "k")))

/-- The tokens of `groupedCondition`. -/
def conditionTokens : List Token :=
  [mark .minus "-", mark .identifier "f", mark (.opening .round) "(", mark .identifier "a",
    mark (.closing .round) ")", mark .dot ".", mark .identifier "b", mark .star "*",
    mark .identifier "c", mark .minus "-", mark .identifier "d", mark .minus "-",
    mark .identifier "e"]

/-- The tokens of `groupedExpr`. -/
def groupedTokens : List Token :=
  conditionTokens ++ mark .question "?" ::
    ([mark (.opening .curly) "\x7b", mark .identifier "k", mark .colon ":", mark .fn "fn",
      mark (.opening .round) "(", mark .identifier "y", mark (.closing .round) ")",
      mark .colon ":", mark .identifier "y", mark (.closing .curly) "\x7d"] ++ mark .bang "!" ::
    [mark .identifier "g", mark .or "or", mark .identifier "h", mark .and "and",
      mark .identifier "i", mark .question "?", mark .identifier "j", mark .bang "!",
      mark .identifier "k"])

theorem laddered_groupedExpr : groupedExpr.Laddered := by
  simp only [groupedExpr, groupedCondition, Expr.Laddered, Member.Laddered, LadderedAll,
    LadderedFields, LadderedBody]
  decide

theorem writes_name (lexeme : String) :
    Writes .expression (.name (mark .identifier lexeme)) [mark .identifier lexeme] := .name rfl

theorem writes_binary {w w' : List Token} {right left : Expr} (op : BinaryOp) (lexeme : String)
    (hleft : Writes .expression left w) (hright : Writes .expression right w') :
    Writes .expression (.binary op (mark op.kind lexeme) left right)
      (w ++ mark op.kind lexeme :: w') := .binary hleft rfl hright

theorem writes_groupedCondition : Writes .expression groupedCondition conditionTokens := by
  have hcall : Writes .expression _ ([mark .identifier "f"] ++ mark (.opening .round) "(" ::
      ([mark .identifier "a"] ++ [mark (.closing .round) ")"])) :=
    .call (writes_name "f") rfl (.one (writes_name "a")) rfl
  have hmember : Writes .expression (.unary .negate (mark .minus "-") _)
      (mark .minus "-" :: (_ ++ [mark .dot ".", mark .identifier "b"])) :=
    .unary rfl (.getField hcall rfl rfl)
  have hproduct := writes_binary .multiply "*" hmember (writes_name "c")
  exact writes_binary .subtract "-" (writes_binary .subtract "-" hproduct (writes_name "d"))
    (writes_name "e")

theorem writes_groupedExpr : Writes .expression groupedExpr groupedTokens := by
  have hfunction : Writes .expression
      (.function (mark .fn "fn") _
        [.answer (mark .colon ":") (some (.name (mark .identifier "y")))])
      (mark .fn "fn" :: mark (.opening .round) "(" :: ([mark .identifier "y"] ++
        mark (.closing .round) ")" :: mark .colon ":" :: [mark .identifier "y"])) :=
    .function rfl rfl (.one (.parameter rfl)) rfl rfl (writes_name "y")
  have hrecord : Writes .expression (.record (mark (.opening .curly) "\x7b") _)
      (mark (.opening .curly) "\x7b" ::
        ((mark .identifier "k" :: mark .colon ":" :: _) ++ [mark (.closing .curly) "\x7d"])) :=
    .record rfl (.one (.field rfl rfl hfunction)) rfl
  have halternative : Writes .expression (.ternary (mark .question "?") _ _ _)
      (_ ++ mark .question "?" ::
        ([mark .identifier "j"] ++ mark .bang "!" :: [mark .identifier "k"])) :=
    .ternary (writes_binary .or "or" (writes_name "g")
      (writes_binary .and "and" (writes_name "h") (writes_name "i"))) rfl (writes_name "j") rfl
      (writes_name "k")
  exact .ternary writes_groupedCondition rfl hrecord rfl halternative

theorem program?_groupedTokens :
    groupedExpr.Laddered ∧ Writes .expression groupedExpr groupedTokens ∧
      (Parsed.ofTokens (groupedTokens ++ [mark .newline "\n", mark .eof ""])).program?
        = some [.expression groupedExpr] := by
  refine ⟨laddered_groupedExpr, writes_groupedExpr,
    program?_of_writes laddered_groupedExpr writes_groupedExpr ?_ rfl rfl⟩
  rintro t ⟨⟩ ⟨hkind, -⟩
  cases hkind

end Grouped

end Offside
