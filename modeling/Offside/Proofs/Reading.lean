import Offside.Proofs.Progress
import Offside.Proofs.TreeTokens

/-!
# Proofs/Reading — what the grammar reads

What each parser does is said from what the parsers of what nests inside do where fewer words are
left (`Nested.ReadsBelow`).  An expression takes a level of nesting, and a block one more for the
expression that its statements may begin with, so twice the words that are left are depth enough
(`readsBelow_nested`).

So a program is read to its end (`exists_program_eq_ok`), and if it is accepted it is derived from
the words of its tokens (`exists_derivesProgram`).  The tokens in it are those of its text, or what
a name was split or cut down to (`every_ofTokens`), and it is the same wherever the line breaks are
said to be (`ofTokens_moved`).
-/

namespace Offside

open List Cursor Parsed
open Offside.Parser
open Offside.Parser.Reads (Collects Step)
open Token.Scan (layoutKinds)

variable {g : Position → Position} {T : Token → Prop} {s : State} {w : Nat} {tokens : List Token}

/-- Separators do not count in a series. -/
theorem collects_series (item : Category) (h : item.separator = .comma) :
    Collects (Derives (.series item)) :=
  ⟨fun _ => .none, fun hitems ht => .separator hitems (ht.trans h.symm)⟩

/-- Items of a series one by one. -/
theorem Parser.Reads.item {E : Prop} (item : Category) {p : Parser item.Tree}
    {Q : item.Tree → Cursor → Prop} (h : Reads g T E p s Q (Derives item))
    {items : List item.Tree} : Reads g T E p s Q fun mid a after =>
      ∀ before, Derives (.series item) before items mid →
        Derives (.series item) before (items ++ [a]) after :=
  h.imp fun _ _ _ ha _ hitems => .further hitems ha

/-! ## Types -/

namespace TypeExpr

variable {inner : Parser TypeExpr}

/-- A written type is read. -/
abbrev ReadsType (g : Position → Position) (T : Token → Prop) (p : Parser TypeExpr) (s : State) :
    Prop :=
  Reads g T True p s (Took s (TypeExpr.Every (Kept T))) (Derives .type)

/-- Types are read where fewer than `w` words are left. -/
def ReadsBelow (g : Position → Position) (T : Token → Prop) (w : Nat) (inner : Parser TypeExpr) :
    Prop :=
  ∀ s : State, s.cursor.weight < w → ReadsType g T inner s

section

variable (h : ReadsBelow g T w inner) (hw : s.cursor.weight ≤ w)

include h hw

theorem reads_readNamed (hkind : s.cursor.kind = .identifier) :
    ReadsType g T (readNamed inner) s := by
  refine .takeName .typeName hkind nofun fun t s₁ hlt ht => .ite (fun hlast => ?_) fun hlast => ?_
  · exact .pure ⟨hlt, ⟨ht.cut rfl, ht.kept.kind⟩, trivial⟩ fun _ => .optional ht.kind hlast
  · refine .acceptSymbol rfl (fun opener s₂ hlt₂ hopener => ?_) fun _ =>
      .pure ⟨hlt, ht.kept, trivial⟩ fun _ => .named ht.kind hlast
    exact .seq (.commaSeparated (collects_series .type rfl) (fun _ s hs =>
        .item .type (h s (by omega))) (Nat.le_refl s₂.cursor.weight)) fun _ s₃ hlt₃ htypes =>
      .expect (.inr rfl) fun _ s₄ hlt₄ hcloser =>
      .pure ⟨by omega, ht.kept, everyType_iff.mpr htypes⟩ fun _ _ harguments =>
      .applied ht.kind hlast hopener harguments hcloser.kind

theorem reads_readField : Reads g T True (readField inner) s
    (Took s fun f => Kept T f.1 ∧ f.2.Every (Kept T)) (Derives .typeField) :=
  .expect (.inl rfl) fun _ s₁ hlt₁ hkey => .expect (.inr rfl) fun _ s₂ hlt₂ hcolon =>
    .seq (h s₂ (by omega)) fun _ s₃ hlt₃ htype => .pure ⟨by omega, hkey.kept, htype⟩
      fun _ _ hderives => .typeField hkey.kind hcolon.kind hderives

/-- What follows the parameters of a function type is read the same with and without any. -/
theorem reads_behindParameters {paren : Token} (hparen : Taken T (.opening .round) paren)
    {parameters : List TypeExpr} (hparameters : ∀ t ∈ parameters, t.Every (Kept T)) {s₁ : State}
    (hs₁ : s₁.cursor.weight < s.cursor.weight) :
    Reads g T True (do
      let _ ← expect (.closing .round) .expectedParameterTypesEnd
      if ← accept .arrow then return .function paren parameters (← inner)
      match parameters with
      | [only] => return only
      | _ => refuse .expectedResultType) s₁ (Took s (TypeExpr.Every (Kept T))) fun mid type after =>
        ∀ before, Derives (.series .type) before parameters mid →
          Derives .type (⟨paren, .inner⟩ :: before) type after := by
  refine .expect (.inr rfl) fun _ s₂ hlt₂ hcloser => .acceptSymbol rfl
    (fun _ s₃ hlt₃ harrow => ?_) fun _ => ?_
  · exact .seq (h s₃ (by omega)) fun _ s₄ hlt₄ hresult =>
      .pure ⟨by omega, hparen.kept, everyType_iff.mpr hparameters, hresult⟩
        fun _ _ hderives _ hin => .functionType hparen.kind hin hcloser.kind harrow hderives
  · split
    · exact .pure ⟨by omega, hparameters _ (mem_singleton_self _)⟩ fun _ _ htype =>
        .groupedType hparen.kind htype hcloser.kind
    · exact .refuse _

theorem reads_readFunctionOrGroup (hkind : s.cursor.kind = .opening .round) :
    ReadsType g T (readFunctionOrGroup inner) s := by
  refine .takeMark .inner hkind rfl fun paren s₁ hlt hparen => .at? (fun _ => ?_) fun _ => ?_
  · refine .bind (Q := fun parameters _ => ∀ t ∈ parameters, t.Every (Kept T))
      (W := fun before parameters after => parameters = [] ∧ before = after)
      (.pure (forall_mem_nil (TypeExpr.Every (Kept T))) fun _ => ⟨rfl, rfl⟩)
      fun parameters s₂ hle hparameters =>
        (reads_behindParameters h hw hparen hparameters (by omega)).imp
          fun mid _ _ hderives before hnone => ?_
    obtain ⟨rfl, rfl⟩ := hnone
    exact hderives _ .none
  · exact .seq (.commaSeparated (collects_series .type rfl) (fun _ s hs =>
        .item .type (h s (by omega))) (Nat.le_refl s₁.cursor.weight)) fun _ s₂ hlt₂ hparameters =>
      reads_behindParameters h hw hparen hparameters (by omega)

/-- A type without an option mark is read as it is derived. -/
theorem reads_readBase : ReadsType g T (readBase inner) s := by
  unfold readBase
  refine .kind ?_
  split
  · next hkind => exact reads_readNamed h hw hkind
  · next hkind =>
    exact .takeMark .inner hkind rfl fun _ s₁ hlt hbracket => .seq (h s₁ (by omega))
      fun _ s₂ hlt₂ helement => .expect (.inr rfl) fun _ s₃ hlt₃ hcloser =>
      .pure ⟨by omega, hbracket.kept, helement⟩ fun _ _ hderives =>
      .listType hbracket.kind hderives hcloser.kind
  · next hkind =>
    refine .takeMark .inner hkind rfl fun _ s₁ hlt hbrace => .bind (.elements
      (collects_series .typeField rfl) (fun _ s hs =>
        .item .typeField (reads_readField h (by omega)))
      (Nat.le_refl s₁.cursor.weight)) fun _ s₂ hle hfields => ?_
    exact .expect (.inr rfl) fun _ s₃ hlt₃ hcloser =>
      .pure ⟨by omega, hbrace.kept, everyTypeField_iff.mpr hfields⟩ fun _ _ hderives =>
      .recordType hbrace.kind hderives hcloser.kind
  · next hkind => exact reads_readFunctionOrGroup h hw hkind
  · exact .refuse _

end

/-- Every level of nesting takes a token. -/
theorem readsBelow_readTo : ∀ depth : Nat, ReadsBelow g T depth (readTo depth)
  | 0 => fun _ hs => absurd hs (Nat.not_lt_zero _)
  | depth + 1 => fun s hs => by
    refine .seq (reads_readBase (readsBelow_readTo depth) (Nat.le_of_lt_succ hs))
      fun type s₁ hlt htype => .post (.iterate (R := fun type _ => type.Every (Kept T))
        (P := Derives .type) (Z := Derives .type) (fun type s _ htype => ?_)
        (Nat.le_refl s₁.cursor.weight) htype) fun _ _ _ htype => ⟨by omega, htype⟩
    exact .acceptSymbol rfl (fun _ _ hlt hquestion => .pure (.on hlt htype)
      fun _ _ hderives => .maybe hderives hquestion) fun _ => .pure (.done htype) fun _ _ h => h

/-- **A type is read as it is derived.** -/
theorem reads_read : ReadsType g T read s :=
  .congr (q := readTo (s.cursor.weight + 1)) rfl
    (congrArg (fun n => readTo (n + 1) (s.moved g)) (weight_moved s.cursor))
    (readsBelow_readTo _ s (Nat.lt_succ_self _))

end TypeExpr

/-! ## Expressions -/

namespace Nested

variable {n : Nested} {depth : Nat} {k : Token.Kind} {op : UnaryOp} {before after mid : List Word}

/-- An expression is read whose first word plays this part. -/
abbrev ReadsExpr (g : Position → Position) (T : Token → Prop) (p : Parser Expr) (s : State)
    (role : Role) : Prop :=
  Reads g T True p s (Took s (Expr.Every (Kept T))) (Derives (.expression role))

/-- A statement is read, in a loop or not. -/
abbrev ReadsStmt (g : Position → Position) (T : Token → Prop) (p : Parser Stmt) (s : State)
    (inLoop : Bool) : Prop :=
  Reads g T True p s (Took s (Stmt.Every (Kept T))) (Derives (.statement inLoop))

/-- The statements of a block and its end. -/
def Body (inLoop : Bool) (before : List Word) (body : List Stmt) (after : List Word) : Prop :=
  ∃ last, Derives (.series (.statement inLoop)) before body last ∧ Closing last after

/-- What the parsers of what nests inside do where fewer than `w` words are left. -/
structure ReadsBelow (g : Position → Position) (T : Token → Prop) (w : Nat) (n : Nested) :
    Prop where
  expression : ∀ (role : Role) (s : State), s.cursor.weight < w → s.cursor.Starts role →
    ReadsExpr g T n.expression s role
  ternary : ∀ s : State, s.cursor.weight < w → ReadsExpr g T n.ternary s .inner
  statements : ∀ (inLoop : Bool) (s : State), s.cursor.weight < w →
    Reads g T False (n.statements inLoop) s (fun body _ => EveryStmt (Kept T) body) (Body inLoop)

theorem ReadsBelow.inner (h : ReadsBelow g T w n) (s : State) (hs : s.cursor.weight < w) :
    ReadsExpr g T n.expression s .inner :=
  h.expression .inner s hs (starts_inner _)

/-- A name that was not there before keeps names distinct. -/
theorem nodup_concat {α : Type} {items : List α} {f : α → String} {item : α}
    (h : (items.map f).Nodup) (hnew : ¬(items.any fun a => f a == f item) = true) :
    ((items ++ [item]).map f).Nodup := by
  rw [map_append, map_singleton, nodup_append]
  refine ⟨h, pairwise_singleton _ _, ?_⟩
  rintro _ hmem _ hitem rfl
  obtain ⟨a, ha, heq⟩ := mem_map.mp hmem
  rw [mem_singleton] at hitem
  exact hnew (any_eq_true.mpr ⟨a, ha, beq_iff_eq.mpr (heq.trans hitem)⟩)

/-- The first words are those of a series whose keys differ. -/
structure Distinct (item : Category) (key : item.Tree → String) (before : List Word)
    (trees : List item.Tree) (after : List Word) : Prop where
  series : Derives (.series item) before trees after
  nodup : (trees.map key).Nodup

theorem collects_distinct (item : Category) (key : item.Tree → String)
    (h : item.separator = .comma) : Collects (Distinct item key) :=
  ⟨fun _ => ⟨.none, nodup_nil⟩,
    fun hitems ht => ⟨.separator hitems.series (ht.trans h.symm), hitems.nodup⟩⟩

theorem Distinct.further {item key trees tree} (h : Distinct item key before trees mid)
    (htree : Derives item mid tree after)
    (hnew : ¬(trees.any fun earlier => key earlier == key tree) = true) :
    Distinct item key before (trees ++ [tree]) after :=
  ⟨.further h.series htree, nodup_concat h.nodup hnew⟩

theorem reads_parameters : Reads g T True parameters s
    (Took s fun names => ∀ t ∈ names, Kept T t) (Derives .parameters) := by
  refine .expect (.inr rfl) fun _ s₁ hlt₁ hopener => .acceptSymbol rfl
    (fun _ s₂ hlt₂ hcloser => ?_) fun _ => ?_
  · exact .pure ⟨by omega, forall_mem_nil _⟩ fun _ =>
      .parameters hopener.kind .none nodup_nil hcloser
  · refine .seq (.commaSeparated (collects_distinct .parameter (·.lexeme) rfl)
      (fun earlier s hs => ?_) (Nat.le_refl s₁.cursor.weight)) fun _ s₂ hlt₂ hkept =>
        .expect (.inr rfl) fun _ s₃ hlt₃ hcloser => .pure ⟨by omega, hkept⟩ fun _ _ hnames =>
        .parameters hopener.kind hnames.series hnames.nodup hcloser.kind
    refine .expect (.inl rfl) fun _ s₁ hlt hname => .ite (fun _ => ?_) fun hnew => ?_
    · exact .bind (.report hname.kept _) fun _ s₂ hle _ => .pure ⟨by omega, hname.kept⟩
        fun _ _ hfalse => hfalse.elim
    · exact .pure ⟨hlt, hname.kept⟩ fun _ _ hnames => hnames.further (.parameter hname.kind) hnew

theorem isSymbol_of_unaryOp? (h : unaryOp? k = some op) : isSymbol k = true := by
  rcases unaryOp?_cases h with rfl | rfl <;> rfl

theorem isMark_of_unaryOp? (h : unaryOp? k = some op) : isMark k = true := by
  rcases unaryOp?_cases h with rfl | rfl <;> rfl

theorem isMark_of_mem_ladder : ∀ rung ∈ ladder, ∀ entry ∈ rung, isMark entry.1 = true := by
  decide

theorem isSymbol_of_mem_ladder : ∀ rung ∈ ladder, ∀ entry ∈ rung, isSymbol entry.1 = true := by
  decide

theorem mem_of_lookup {rung : Rung} {op : BinaryOp}
    (h : rung.lookup k = some op) : (k, op) ∈ rung := by
  obtain ⟨_, _, heq, -⟩ := lookup_eq_some_iff.mp h
  exact heq ▸ mem_append_right _ mem_cons_self

/-- The words of operators, if an operand follows.  The first word plays the part that was asked
for: the first operator, if there is one. -/
def Operators (role : Role) (before : List Word) (operators : List (UnaryOp × Token))
    (mid : List Word) : Prop :=
  ∀ operand after,
    Derives (.expression (if operators = [] then role else .inner)) mid operand after →
    Derives (.expression role) before
      (operators.foldr (fun (op, token) operand => .unary op token operand) operand) after

theorem Operators.concat {role operators t}
    (h : Operators role before operators (⟨t, if operators = [] then role else .inner⟩ :: mid))
    (hop : unaryOp? t.kind = some op) : Operators role before (operators ++ [(op, t)]) mid := by
  intro operand after hoperand
  rw [if_neg (by simp)] at hoperand
  rw [foldr_append]
  exact h _ after (.unary hop hoperand)

/-- The rungs of the ladder are read one around the other. -/
theorem reads_binary {operand}
    (hoperand : ∀ (role : Role) (s : State),
      s.cursor.weight ≤ w → s.cursor.Starts role → ReadsExpr g T operand s role) :
    ∀ rungs : List Rung, (∀ rung ∈ rungs, rung ∈ ladder) → ∀ (role : Role) (s : State),
      s.cursor.weight ≤ w → s.cursor.Starts role → ReadsExpr g T (binary operand rungs) s role
  | [], _, role, s, hw, hstarts => hoperand role s hw hstarts
  | rung :: tighter, hrungs, role, s, hw, hstarts => by
    obtain ⟨hrung, htighter⟩ := forall_mem_cons.mp hrungs
    have ih := reads_binary hoperand tighter htighter
    refine .seq (ih role s hw hstarts) fun first s₁ hlt hfirst => .post (.iterate (w := w)
      (R := fun e _ => e.Every (Kept T)) (P := Derives (.expression role))
      (Z := Derives (.expression role)) (fun left s hs hleft => .kind ?_) (by omega) hfirst)
      fun _ _ _ he => ⟨by omega, he⟩
    split
    · next op hop =>
      have hmark := isMark_of_mem_ladder rung hrung _ (mem_of_lookup hop)
      exact .takeMark .inner rfl hmark fun _ s₂ hlt₂ ht =>
        .seq (ih .inner s₂ (by omega) (starts_inner _)) fun _ s₃ hlt₃ hright =>
        .pure (.on (by omega) ⟨ht.kept, hleft, hright⟩) fun _ _ hr _ hl =>
        .binary hrung (ht.kind ▸ hop) hl hr
    · exact .pure (.done hleft) fun _ _ hl => hl

section Below

variable (h : ReadsBelow g T w n) (hw : s.cursor.weight ≤ w) (role : Role)

include h hw

theorem reads_block (inLoop : Bool) : Reads g T True (n.block inLoop) s
    (Took s (EveryStmt (Kept T))) (Derives (.block inLoop)) :=
  .skipExpect rfl fun _ s₁ hlt₁ hnewline => .skipExpect rfl fun _ s₂ hlt₂ hindent =>
    (h.statements inLoop s₂ (by omega)).ofReturns.mono (fun _ _ _ hbody => ⟨by omega, hbody⟩)
      fun _ _ _ ⟨_, hbody, hclosing⟩ => .block hnewline hindent hbody hclosing

theorem reads_functionBody : Reads g T True n.functionBody s (Took s (EveryStmt (Kept T)))
    (Derives .functionBody) := by
  refine .at? (fun hkind => ?_) fun _ => (reads_block h hw false).imp fun _ _ _ => .longBody
  exact .takeMark .statement hkind rfl fun _ s₁ hlt hcolon => .seq (h.inner s₁ (by omega))
    fun _ s₂ hlt₂ hvalue => .pure ⟨by omega, ⟨hcolon.kept, hvalue⟩, trivial⟩ fun _ _ hderives =>
    .shortBody hcolon.kind hderives

theorem reads_functionLiteral (hkind : s.cursor.kind = .fn) :
    ReadsExpr g T n.functionLiteral s role := by
  refine .takeMark role hkind rfl fun _ s₁ hlt hkeyword => .at? (fun _ => .refuse_bind) fun _ => ?_
  exact .seq reads_parameters fun _ s₂ hlt₂ hnames => .seq (reads_functionBody h (by omega))
    fun _ s₃ hlt₃ hbody => .pure ⟨by omega, hkeyword.kept, hnames, hbody⟩
      fun _ _ hderives _ hparameters => .functionLiteral hkeyword.kind hparameters hderives

theorem reads_field (earlier : List Field) : Reads g T True (n.field earlier) s
    (Took s (Field.Every (Kept T))) fun mid field after => ∀ before,
      Distinct .field (·.key.lexeme) before earlier mid →
        Distinct .field (·.key.lexeme) before (earlier ++ [field]) after := by
  refine .expect (.inl rfl) fun key s₁ hlt hkey => .ite (fun _ => ?_) fun hnew => ?_
  · exact .bind (.report hkey.kept _) fun _ s₂ hle _ => .expect (.inr rfl) fun _ s₃ hlt₃ _ =>
      .seq (h.inner s₃ (by omega)) fun _ s₄ hlt₄ hvalue => .pure ⟨by omega, hkey.kept, hvalue⟩
        fun _ _ _ _ hfalse => hfalse.elim
  · exact .expect (.inr rfl) fun _ s₂ hlt₂ hcolon => .seq (h.inner s₂ (by omega))
      fun _ s₃ hlt₃ hvalue => .pure ⟨by omega, hkey.kept, hvalue⟩ fun _ _ hderives _ hfields =>
      hfields.further (.field hkey.kind hcolon.kind hderives) hnew

/-- An expression without operators is read as it is derived. -/
theorem reads_primary (hstarts : s.cursor.Starts role) : ReadsExpr g T n.primary s role := by
  have hliteral : ∀ k, s.cursor.kind = k → k ∈ [.number, .text, .true, .false, .null] →
      isMark k = true → ReadsExpr g T (do
        let token ← take
        return Expr.literal token (token.literal.getD .null)) s role :=
    fun k hkind hk hmark => .takeMark role hkind hmark fun _ _ hlt ht =>
      .pure ⟨hlt, ht.kept⟩ fun _ => .literal hstarts.typeName (ht.kind ▸ hk)
  unfold primary
  refine .kind ?_
  split
  iterate 5 · next hkind => exact hliteral _ hkind (by decide) rfl
  · next hkind =>
    exact .takeName role hkind hstarts.told fun _ _ hlt ht => .pure ⟨hlt, ht.kept⟩ fun _ =>
      .name hstarts.typeName ht.kind
  · next hkind =>
    exact .takeMark role hkind rfl fun _ s₁ hlt hopener => .seq (h.inner s₁ (by omega))
      fun _ s₂ hlt₂ hinner => .expect (.inr rfl) fun _ s₃ hlt₃ hcloser =>
      .pure ⟨by omega, hinner⟩ fun _ _ hderives => .group hopener.kind hderives hcloser.kind
  · next hkind =>
    exact .takeMark role hkind rfl fun _ s₁ hlt hbracket => .bind
        (.elements (collects_series (.expression .inner) rfl) (fun _ s hs =>
          .item (.expression .inner) (h.inner s (by omega))) (Nat.le_refl s₁.cursor.weight))
      fun _ s₂ hle hitems => .expect (.inr rfl) fun _ s₃ hlt₃ hcloser =>
      .pure ⟨by omega, hbracket.kept, everyExpr_iff.mpr hitems⟩ fun _ _ hderives =>
      .list hbracket.kind hderives hcloser.kind
  · next hkind =>
    exact .takeMark role hkind rfl fun _ s₁ hlt hbrace => .bind
        (.elements (collects_distinct .field _ rfl) (fun earlier s hs =>
          reads_field h (by omega) earlier) (Nat.le_refl s₁.cursor.weight))
      fun _ s₂ hle hfields => .expect (.inr rfl) fun _ s₃ hlt₃ hcloser =>
      .pure ⟨by omega, hbrace.kept, everyField_iff.mpr hfields⟩ fun _ _ hderives =>
      .record hbrace.kind hderives.series hderives.nodup hcloser.kind
  · exact .refuse _
  · exact .refuse _

/-- What is added to an expression has its words behind those of the expression. -/
theorem reads_suffix? {target} (htarget : target.Every (Kept T)) :
    Reads g T True (n.suffix? target) s (Goes s (fun e _ => e.Every (Kept T)) target)
      (Step (Derives (.expression role)) (Derives (.expression role)) target) := by
  unfold suffix?
  refine .kind ?_
  split
  · next hkind =>
    refine .takeMark .inner hkind rfl fun paren s₁ hlt hparen => ?_
    have hrest : ∀ (arguments : List Expr) (s₁ : State), s₁.cursor.weight < s.cursor.weight →
        (∀ e ∈ arguments, e.Every (Kept T)) → Reads g T True (do
          let _ ← expect (.closing .round) .expectedArgumentListEnd
          return some (Expr.call paren target arguments)) s₁
            (Goes s (fun e _ => e.Every (Kept T)) target) fun mid found after => ∀ before,
              Derives (.series (.expression .inner)) before arguments mid →
              Step (Derives (.expression role)) (Derives (.expression role)) target
                (⟨paren, .inner⟩ :: before) found after :=
      fun arguments s₁ hlt harguments => .expect (.inr rfl) fun _ s₂ hlt₂ hcloser =>
        .pure (.on (by omega) ⟨hparen.kept, htarget, everyExpr_iff.mpr harguments⟩)
          fun _ _ hderives _ hcallee => .call hcallee hparen.kind hderives hcloser.kind
    refine .at? (fun _ => ?_) fun _ => .seq
      (.commaSeparated (collects_series (.expression .inner) rfl) (fun _ s hs =>
        .item (.expression .inner) (h.inner s (by omega))) (Nat.le_refl s₁.cursor.weight))
      fun arguments s₂ hlt₂ harguments => hrest arguments s₂ (by omega) harguments
    exact .bind (Q := fun arguments _ => ∀ e ∈ arguments, e.Every (Kept T))
      (W := fun before arguments after => arguments = [] ∧ before = after)
      (.pure (forall_mem_nil (Expr.Every (Kept T))) fun _ => ⟨rfl, rfl⟩)
      fun arguments s₂ hle hnone => (hrest arguments s₂ (by omega) hnone).imp
        fun mid _ _ hderives _ ⟨hnil, hsame⟩ => hderives _ (hnil ▸ hsame ▸ .none)
  · next hkind =>
    exact .takeMark .inner hkind rfl fun _ s₁ hlt hdot => .expect (.inl rfl)
      fun _ s₂ hlt₂ hname => .pure (.on (by omega) ⟨htarget, hname.kept⟩) fun _ _ hobject =>
      .getField hobject hdot.kind hname.kind
  · next hkind =>
    exact .takeMark .inner hkind rfl fun _ s₁ hlt hbracket => .seq (h.inner s₁ (by omega))
      fun _ s₂ hlt₂ hindex => .expect (.inr rfl) fun _ s₃ hlt₃ hcloser =>
      .pure (.on (by omega) ⟨htarget, hbracket.kept, hindex⟩) fun _ _ hderives _ hobject =>
      .getIndex hobject hbracket.kind hderives hcloser.kind
  · exact .pure (.done htarget) fun _ _ hderives => hderives

theorem reads_suffixes {target} (htarget : target.Every (Kept T)) :
    Reads g T True (iterate n.suffix? target) s (fun e _ => e.Every (Kept T))
      fun mid e after => ∀ before, Derives (.expression role) before target mid →
        Derives (.expression role) before e after :=
  .iterate (fun _ _ hs htarget => reads_suffix? h hs role htarget) hw htarget

theorem reads_chain (hstarts : s.cursor.Starts role) : ReadsExpr g T n.chain s role :=
  .seq (reads_primary h hw role hstarts) fun _ s₁ hlt hhead =>
    (reads_suffixes h (by omega) role hhead).post fun _ _ _ he => ⟨by omega, he⟩

/-- Operators before an operand apply from the innermost out. -/
theorem reads_unary (hstarts : s.cursor.Starts role) : ReadsExpr g T n.unary s role := by
  refine .bind (.iterate (w := w) (R := fun operators c => (∀ o ∈ operators, Kept T o.2) ∧
      (operators = [] → c.Starts role)) (P := Operators role) (Z := Operators role)
      (fun operators s hs hoperators => .kind ?_) hw ⟨forall_mem_nil _, fun _ => hstarts⟩)
    fun operators s₁ hle hoperators => ?_
  · split
    · next op hop =>
      exact .takeMark _ rfl (isMark_of_unaryOp? hop) fun t s₁ hlt ht => .pure (.on hlt
        ⟨forall_mem_append.mpr ⟨hoperators.1, forall_mem_singleton.mpr ht.kept⟩, by simp⟩)
        fun _ _ hbefore => hbefore.concat (ht.kind ▸ hop)
    · exact .pure (.done hoperators) fun _ _ hbefore => hbefore
  · have hstarts₁ : s₁.cursor.Starts (if operators = [] then role else .inner) := by
      split
      · next hnil => exact hoperators.2 hnil
      · exact starts_inner _
    exact .seq (reads_chain h (by omega) _ hstarts₁) fun _ s₂ hlt₂ hoperand =>
      .pure ⟨by omega, every_foldr_unary hoperand _ hoperators.1⟩ fun _ _ hderives before hbefore =>
      hbefore before (fun _ _ h => h) _ _ hderives

theorem reads_ternaryOf (hstarts : s.cursor.Starts role) : ReadsExpr g T n.ternaryOf s role := by
  refine .seq (reads_binary (fun role _ hs hstarts => reads_unary h hs role hstarts) ladder
    (fun _ hmem => hmem) role s hw hstarts) fun _ s₁ hlt htest => .at? (fun hkind => ?_) fun _ =>
      .pure ⟨hlt, htest⟩ fun _ _ hderives => hderives
  exact .takeMark .inner hkind rfl fun _ s₂ hlt₂ hquestion => .seq (h.ternary s₂ (by omega))
    fun _ s₃ hlt₃ hconsequent => .expect (.inr rfl) fun _ s₄ hlt₄ hbang =>
    .seq (h.ternary s₄ (by omega)) fun _ s₅ hlt₅ halternative =>
    .pure ⟨by omega, hquestion.kept, htest, hconsequent, halternative⟩ fun _ _ hno _ hyes _ hif =>
    .ternary hif hquestion.kind hyes hbang.kind hno

/-- **An expression is read as it is derived.** -/
theorem reads_expressionOf (hstarts : s.cursor.Starts role) : ReadsExpr g T n.expressionOf s role :=
  .at? (fun hkind => reads_functionLiteral h hw role hkind) fun _ =>
    reads_ternaryOf h hw role hstarts

end Below

/-! ## Statements -/

/-- A statement ends, or has ended with a block. -/
theorem reads_endStatement : Reads g T True endStatement s (fun _ _ => True)
    fun before _ after => Ending before after ∨ before = after ∧
      s.cursor.previousKind? = some .dedent ∧ s.cursor.final.kind = .eof := by
  unfold endStatement
  refine .kind ?_
  split
  · next hkind =>
    exact .skip .inner hkind rfl fun _ _ _ hnewline => .pure trivial fun _ =>
      .inl (.newline hnewline)
  · next hkind =>
    refine .stay trivial fun _ _ hahead => .inl ?_
    obtain ⟨w, later, hwords, hw⟩ := hahead.dedent hkind
    rw [hwords]
    exact .dedent hw
  · next hkind =>
    refine .stay trivial fun _ _ hahead => .inl ?_
    rw [hahead.eq_nil hkind]
    exact .final
  · refine .see previousKind?_moved (.ite (fun hprevious => ?_) fun _ => .refuse _)
    exact .stay trivial fun _ _ hahead => .inr ⟨rfl, hprevious, hahead.final⟩

theorem reads_end : Reads g T True endStatement s (fun _ _ => True) fun before _ after =>
    before = after ∨ Ending before after :=
  reads_endStatement.imp fun _ _ _ h => h.symm.imp And.left id

/-- Right behind a keyword no block has ended. -/
theorem reads_endBehind {c : Cursor} {k : Keyword} (hs : s.cursor = c.advance)
    (hkind : c.kind = .keyword k) :
    Reads g T True endStatement s (fun _ _ => True) fun before _ after => Ending before after := by
  refine reads_endStatement.imp fun _ _ _ h => h.resolve_right ?_
  rintro ⟨-, hprevious, hfinal⟩
  rw [hs] at hprevious hfinal
  have hrest : c.rest ≠ [] := by
    intro hnil
    rw [Cursor.kind, Cursor.current, hnil, headD_nil] at hkind
    rw [advance, hnil, hkind] at hfinal
    cases hfinal
  have hkeyword : c.kind ≠ .softNewline := fun hsoft => by
    rw [hkind] at hsoft
    cases hsoft
  rw [previousKind?_advance hrest hkeyword, hkind] at hprevious
  cases hprevious

theorem reads_leave (inLoop : Bool) (hkind : s.cursor.kind = .keyword .«break») :
    ReadsStmt g T (leave inLoop) s inLoop := by
  refine .take .statement (admits_keyword hkind rfl) hkind
    (Token.keyword_notMem_layoutKinds _) fun s₁ hs₁ hlt ht => .ite (fun _ => ?_) fun hin => ?_
  · exact .bind (.report ht.kept _) fun _ s₂ hle _ => .bind reads_end fun _ s₃ hle₃ _ =>
      .pure ⟨by omega, ht.kept⟩ fun _ _ _ _ hfalse => hfalse.elim
  · obtain rfl : inLoop = true := by simpa using hin
    exact .bind (reads_endBehind hs₁ hkind) fun _ s₂ hle _ => .pure ⟨by omega, ht.kept⟩
      fun _ _ hend => .leave hkind hend

theorem derives_of_breaks {inLoop : Bool} {body : List Stmt}
    (h : Derives (.series (.statement inLoop)) before body mid) (hbreaks : Breaks mid after) :
    Derives (.series (.statement inLoop)) before body after := by
  obtain ⟨breaks, hkind, rfl⟩ := hbreaks
  induction breaks with
  | nil => exact h
  | cons t breaks ih =>
    obtain ⟨ht, hkind⟩ := forall_mem_cons.mp hkind
    exact ih hkind (.separator h ht)

theorem derivesProgram_of_breaks {statements} (h : DerivesProgram before statements mid)
    (hbreaks : Breaks mid after) : DerivesProgram before statements after := by
  obtain ⟨breaks, hkind, rfl⟩ := hbreaks
  induction breaks with
  | nil => exact h
  | cons t breaks ih =>
    obtain ⟨ht, hkind⟩ := forall_mem_cons.mp hkind
    exact ih hkind (.newline h ht)

/-- Statements were read behind earlier ones, and their tokens may be kept. -/
def Gains (T : Token → Prop) (earlier body : List Stmt) : Prop :=
  ∀ st ∈ body, st ∈ earlier ∨ st.Every (Kept T)

theorem reads_kept {E : Prop} {p earlier W} (hearlier : EveryStmt (Kept T) earlier)
    (h : Reads g T E p s (Goes s (fun body _ => Gains T earlier body) earlier) W) :
    Reads g T E p s (Goes s (fun body _ => EveryStmt (Kept T) body) earlier) W :=
  h.post fun _ _ _ hgoes => hgoes.mono (Nat.le_refl _) fun _ hgains => everyStmt_iff.mpr
    fun st hst => (hgains st hst).elim (everyStmt_iff.mp hearlier st) id

/-- The words of further branches, if the last one follows. -/
def Branches (inLoop : Bool) (before : List Word) (branches : List (Token × Expr × List Stmt))
    (mid : List Word) : Prop :=
  ∀ last after, Derives (.otherwise inLoop) mid last after →
    Derives (.otherwise inLoop) before (branches.foldr
      (fun (keyword, condition, body) rest => .branch keyword condition body rest) last) after

section Below

variable (h : ReadsBelow g T w n) (hw : s.cursor.weight ≤ w)

include h hw

/-- A declaration is read with its type and its value, or without. -/
theorem reads_declaration (inLoop mutable : Bool)
    (hkind : s.cursor.kind = .keyword (if mutable then .«mut» else .var)) :
    ReadsStmt g T (n.declaration mutable) s inLoop := by
  refine .takeKeyword .statement hkind rfl fun keyword s₁ hlt hkeyword => .expect (.inl rfl)
    fun name s₂ hlt₂ hname => ?_
  have hrest : ∀ (type : Option TypeExpr) (s₃ : State), s₃.cursor.weight ≤ s₂.cursor.weight →
      (∀ t ∈ type, TypeExpr.Every (Kept T) t) → Reads g T True (do
        let _ ← expect .colon .expectedDeclaredValue
        let value ← n.expression
        endStatement
        return Stmt.declare mutable name type value) s₃ (Took s (Stmt.Every (Kept T)))
          fun mid st after => ∀ before, Derives .declaredType before type mid →
            Derives (.statement inLoop)
              (⟨keyword, .statement⟩ :: ⟨name, .inner⟩ :: before) st after :=
    fun type s₃ hle htype => .expect (.inr rfl) fun _ s₄ hlt₄ hcolon =>
      .seq (h.inner s₄ (by omega)) fun _ s₅ hlt₅ hvalue => .bind reads_end fun _ s₆ hle₆ _ =>
      .pure ⟨by omega, hname.kept, htype, hvalue⟩ fun _ _ hend _ hderives _ hwritten =>
      .declare hkeyword.kind hname.kind hwritten hcolon.kind hderives hend
  refine .acceptSymbol rfl (fun _ s₃ hlt₃ hopener => ?_) fun _ => ?_
  · refine .seq TypeExpr.reads_read fun type s₄ hlt₄ htype => .expect (.inr rfl)
      fun _ s₅ hlt₅ hcloser => ?_
    refine .bind (Q := fun found _ => found = some type)
      (W := fun before found after => found = some type ∧ before = after)
      (.pure rfl fun _ => ⟨rfl, rfl⟩) fun found s₆ hle hfound => ?_
    subst hfound
    exact (hrest _ s₆ (by omega) (by simpa using htype)).imp
      fun _ _ _ hst _ ⟨_, hsame⟩ _ hderives =>
        hst _ (.typed hopener (hsame ▸ hderives) hcloser.kind)
  · refine .bind (Q := fun found _ => found = Option.none)
      (W := fun before found after => found = Option.none ∧ before = after)
      (.pure rfl fun _ => ⟨rfl, rfl⟩) fun found s₃ hle hfound => ?_
    subst hfound
    exact (hrest _ s₃ hle (by simp)).imp fun mid _ _ hst _ ⟨_, hsame⟩ => hsame ▸ hst _ .untyped

theorem reads_assignment (inLoop : Bool) (hkind : s.cursor.kind = .keyword .«let») :
    ReadsStmt g T n.assignment s inLoop := by
  refine .takeKeyword .statement hkind rfl fun _ s₁ hlt hkeyword =>
    .seq (reads_chain h (by omega) .inner (starts_inner _)) fun target s₂ hlt₂ htarget =>
      .expect (.inr rfl) fun _ s₃ hlt₃ hcolon => .seq (h.inner s₃ (by omega))
      fun value s₄ hlt₄ hvalue => ?_
  split
  · exact .refuseAt htarget.anchor _
  · next assigned hassigned =>
    exact .bind reads_end fun _ s₅ hle₅ _ =>
      .pure ⟨by omega, every_of_assignment? htarget hvalue hassigned⟩
        fun _ _ hend _ hright _ hleft =>
        .assignment hkeyword.kind hleft hcolon.kind hright hassigned hend

theorem reads_callStatement (inLoop : Bool) (hkind : s.cursor.kind = .keyword .call) :
    ReadsStmt g T n.callStatement s inLoop := by
  refine .takeKeyword .statement hkind rfl fun _ s₁ hlt hkeyword =>
    .seq (reads_primary h (by omega) .inner (starts_inner _)) fun head s₂ hlt₂ hhead =>
      .bind (reads_suffix? h (by omega) .inner hhead) fun found s₃ hle₃ hfound => ?_
  cases hfound with
  | done => exact .refuse _
  | on hlt₃ hfirst =>
    refine .bind (reads_suffixes h (by omega) .inner hfirst) fun value s₄ hle₄ hvalue =>
      .ite (fun _ => .refuseAt_bind hkeyword.kept) fun hcall => ?_
    exact .bind reads_end fun _ s₅ hle₅ _ => .pure ⟨by omega, hvalue⟩
      fun _ _ hend _ hderives _ hcallee _ hstart => .callStatement hkeyword.kind
        (hderives _ (hcallee _ hstart)) (by simpa using hcall) hend

theorem reads_branches (inLoop : Bool) : Reads g T True (n.branches inLoop) s
    (fun further _ => ∀ b ∈ further,
      Kept T b.1 ∧ b.2.1.Every (Kept T) ∧ EveryStmt (Kept T) b.2.2) (Branches inLoop) := by
  refine (Reads.iterate (P := Branches inLoop) (Z := Branches inLoop)
    (R := fun further _ => ∀ b ∈ further,
      Kept T b.1 ∧ b.2.1.Every (Kept T) ∧ EveryStmt (Kept T) b.2.2)
    (fun earlier s hs hearlier => ?_) hw fun _ hnone => absurd hnone not_mem_nil).imp
    fun mid _ _ hderives => hderives mid fun _ _ hlast => hlast
  refine .splitLeadingWord fun s₁ hle _ => .at? (fun hkind => ?_) fun _ =>
    .pure (.done hearlier) fun _ _ hbefore => hbefore
  refine .takeKeyword .branch hkind rfl fun keyword s₂ hlt₂ hkeyword => .seq (h.inner s₂ (by omega))
    fun condition s₃ hlt₃ htest => .seq (reads_block h (by omega) inLoop) fun body s₄ hlt₄ hbody =>
    .pure (.on (by omega) (forall_mem_append.mpr ⟨hearlier, forall_mem_singleton.mpr
      ⟨hkeyword.kept, htest, hbody⟩⟩)) fun _ _ hblock _ hif before hbefore last after hlast => ?_
  rw [foldr_append]
  exact hbefore _ _ (.otherwiseBranch hkeyword.kind hif hblock hlast)

/-- A conditional statement is read branch by branch. -/
theorem reads_conditional (inLoop : Bool) (hkind : s.cursor.kind = .keyword .«if») :
    ReadsStmt g T (n.conditional inLoop) s inLoop := by
  refine .takeKeyword .statement hkind rfl fun _ s₁ hlt hkeyword => .seq (h.inner s₁ (by omega))
    fun _ s₂ hlt₂ htest => .seq (reads_block h (by omega) inLoop) fun _ s₃ hlt₃ hbody =>
    .bind (reads_branches h (by omega) inLoop) fun further s₄ hle₄ hfurther =>
    .accept .branch (fun hkind => admits_keyword hkind rfl) (fun _ s₅ hlt₅ helse => ?_) fun _ => ?_
  · refine .seq (reads_block h (by omega) inLoop) fun last s₆ hlt₆ hlast =>
      .bind (Q := fun found _ => found = .body last)
        (W := fun before found after => found = .body last ∧ before = after)
        (.pure rfl fun _ => ⟨rfl, rfl⟩) fun found s₇ hle₇ hfound => ?_
    subst hfound
    exact .pure ⟨by omega, hkeyword.kept, htest, hbody,
        every_foldr_branch (.body last) hlast further hfurther⟩
      fun _ _ ⟨_, hsame⟩ _ hblock _ hmore _ hthen _ hif => .conditional hkeyword.kind hif hthen
        (hmore _ _ (.otherwiseBody helse (hsame ▸ hblock)))
  · refine .bind (Q := fun found _ => found = .nothing)
      (W := fun before found after => found = .nothing ∧ before = after)
      (.pure rfl fun _ => ⟨rfl, rfl⟩) fun found s₅ hle₅ hfound => ?_
    subst hfound
    exact .pure ⟨by omega, hkeyword.kept, htest, hbody,
        every_foldr_branch .nothing trivial further hfurther⟩
      fun _ _ ⟨_, hsame⟩ _ hmore _ hthen _ hif => .conditional hkeyword.kind hif hthen
        (hmore _ _ (hsame ▸ .otherwiseNothing))

theorem reads_loop (inLoop : Bool) (hkind : s.cursor.kind = .keyword .«while») :
    ReadsStmt g T n.loop s inLoop :=
  .takeKeyword .statement hkind rfl fun _ s₁ hlt hkeyword => .seq (h.inner s₁ (by omega))
    fun _ s₂ hlt₂ htest => .seq (reads_block h (by omega) true) fun _ s₃ hlt₃ hbody =>
    .pure ⟨by omega, hkeyword.kept, htest, hbody⟩ fun _ _ hblock _ hif =>
    .loop hkeyword.kind hif hblock

/-- An answer is read with its value, or without one. -/
theorem reads_answer (inLoop : Bool) (hkind : s.cursor.kind = .keyword .«return») :
    ReadsStmt g T n.answer s inLoop := by
  refine .take .statement (admits_keyword hkind rfl) hkind
    (Token.keyword_notMem_layoutKinds _) fun s₁ hs₁ hlt ht => .kind ?_
  have hnothing : Reads g T True (do
      let value ← Pure.pure Option.none
      endStatement
      return Stmt.answer s.cursor.current value) s₁ (Took s (Stmt.Every (Kept T)))
        fun mid st after =>
          Derives (.statement inLoop) (⟨s.cursor.current, .statement⟩ :: mid) st after :=
    .congr (q := do
      endStatement
      return Stmt.answer s.cursor.current Option.none) rfl rfl
      (.bind (reads_endBehind hs₁ hkind) fun _ s₂ hle _ => .pure ⟨by omega, ht.kept⟩ fun _ _ hend =>
        .answerNothing hkind hend)
  dsimp only
  split
  · exact hnothing
  · exact hnothing
  · exact hnothing
  · refine .seq (h.inner s₁ (by omega)) fun value s₂ hlt₂ hvalue => .congr (q := do
      endStatement
      return Stmt.answer s.cursor.current (some value)) rfl rfl ?_
    exact .bind reads_end fun _ s₃ hle _ => .pure ⟨by omega, ht.kept, hvalue⟩
      fun _ _ hend _ hderives => .answer hkind hderives hend

theorem reads_functionDeclaration (inLoop : Bool) (hkind : s.cursor.kind = .fn)
    (hnext : s.cursor.nextKind? = some .identifier) :
    ReadsStmt g T n.functionDeclaration s inLoop := by
  refine .take .statement (admits_symbol (by rw [hkind]; rfl)) hkind (by decide)
    fun s₁ hs₁ hlt hkeyword => ?_
  have hname : s₁.cursor.kind = .identifier := by rw [hs₁, Cursor.kind_advance hnext]
  exact .takeName .inner hname nofun fun _ s₂ hlt₂ hname => .seq reads_parameters
    fun _ s₃ hlt₃ hnames => .seq (reads_functionBody h (by omega)) fun _ s₄ hlt₄ hbody =>
    .bind reads_end fun _ s₅ hle₅ _ => .pure ⟨by omega, hname.kept, hkeyword.kept, hnames, hbody⟩
      fun _ _ hend _ hderives _ hparameters =>
      .function hkind hname.kind hparameters hderives hend

omit h hw in
theorem reads_expressionStatement (inLoop : Bool) (h : ReadsExpr g T n.expression s .statement) :
    ReadsStmt g T n.expressionStatement s inLoop :=
  .seq h fun _ s₁ hlt hvalue => .bind reads_end fun _ s₂ hle _ => .pure ⟨by omega, hvalue⟩
    fun _ _ hend _ hderives => .expression hderives hend

section First

/- A statement is read where the expression that it may begin with is. -/
variable (hexpression : ∀ (role : Role) (s : State), s.cursor.weight ≤ w → s.cursor.Starts role →
  ReadsExpr g T n.expression s role)

include hexpression

/-- **A statement is read as it is derived**, by the word it begins with. -/
theorem reads_statement (inLoop : Bool) : ReadsStmt g T (n.statement inLoop) s inLoop := by
  refine .splitLeadingWord fun s₁ hle htold => .post (Q := Took s₁ (Stmt.Every (Kept T)))
    (.kind ?_) fun _ _ _ h => ⟨Nat.lt_of_lt_of_le h.lt hle, h.holds⟩
  have hw : s₁.cursor.weight ≤ w := Nat.le_trans hle hw
  have hfirst := hexpression .statement s₁ hw ⟨fun _ => htold, nofun⟩
  split
  · next hkind =>
    exact .skip .statement hkind rfl fun _ s₂ hlt hindent =>
      .bind (h.statements inLoop s₂ (by omega)).ofReturns fun _ s₃ hle' hbody =>
      .pure ⟨by omega, hbody⟩ fun _ _ ⟨_, hderives, hclosing⟩ =>
      .innerBlock hindent hderives hclosing
  · next hkind => exact reads_declaration h hw inLoop false hkind
  · next hkind => exact reads_declaration h hw inLoop true hkind
  · next hkind => exact reads_assignment h hw inLoop hkind
  · next hkind => exact reads_callStatement h hw inLoop hkind
  · next hkind => exact reads_conditional h hw inLoop hkind
  · next hkind => exact reads_loop h hw inLoop hkind
  · next hkind => exact reads_leave inLoop hkind
  · next hkind => exact reads_answer h hw inLoop hkind
  · exact .refuse _
  · exact .refuse _
  · next hkind =>
    exact .see nextKind?_moved (.ite
      (fun hnext => reads_functionDeclaration h hw inLoop hkind hnext) fun _ =>
      reads_expressionStatement inLoop hfirst)
  · exact reads_expressionStatement inLoop hfirst

/-! ## Blocks and programs -/

/-- One more statement takes a token, also where it is given up. -/
theorem reads_further (inLoop : Bool) (earlier : List Stmt) (hnewline : s.cursor.kind ≠ .newline)
    (hdedent : s.cursor.kind ≠ .dedent) (heof : s.cursor.kind ≠ .eof) :
    Reads g T False (do return some (earlier ++ (← recover (n.statement inLoop)).toList)) s
      (Goes s (fun body _ => Gains T earlier body) earlier) fun mid next after =>
        ∃ st, next = some (earlier ++ [st]) ∧ Derives (.statement inLoop) mid st after := by
  refine .seq (.recover (reads_statement h hw hexpression inLoop) hnewline hdedent heof)
    fun found s₁ hlt hfound => .pure (.on hlt ?_) fun _ _ ⟨st, hst, hderives⟩ =>
      ⟨st, by rw [hst]; rfl, hderives⟩
  exact forall_mem_append.mpr ⟨fun _ => .inl, fun st hst =>
    .inr (hfound st (Option.mem_toList.mp hst))⟩

/-- **A round over the statements of a block is never refused, and takes a token if it goes on.** -/
theorem reads_blockRound (inLoop : Bool) (earlier : List Stmt) :
    Reads g T False (n.blockRound inLoop earlier) s
      (Goes s (fun body _ => Gains T earlier body) earlier)
      (Step (Derives (.series (.statement inLoop))) (Body inLoop) earlier) := by
  refine .bind .skipNewlines fun _ s₁ hle hnewline => .acceptSymbol rfl (fun _ _ _ hdedent => ?_)
    fun hdedent => .at? (fun hkind => ?_) fun heof => ?_
  · exact .pure (.done fun _ => .inl) fun _ _ hbreaks _ hbefore =>
      ⟨_, derives_of_breaks hbefore hbreaks, .dedent hdedent⟩
  · refine .stay (.done fun _ => .inl) fun _ _ hahead _ hbreaks _ hbefore =>
      ⟨_, derives_of_breaks hbefore hbreaks, ?_⟩
    rw [hahead.eq_nil hkind]
    exact .final
  · refine (reads_further h (by omega) hexpression inLoop earlier hnewline hdedent heof).mono
      (fun _ _ _ hgoes => hgoes.mono hle fun _ => id) fun _ _ _ hmore _ hbreaks _ hbefore => ?_
    obtain ⟨st, rfl, hst⟩ := hmore
    exact .further (derives_of_breaks hbefore hbreaks) hst

/-- **A round over the statements of a program is never refused, and takes a token if it goes
on.** -/
theorem reads_programRound (earlier : List Stmt) : Reads g T False (n.programRound earlier) s
      (Goes s (fun body _ => Gains T earlier body) earlier)
      (Step DerivesProgram DerivesProgram earlier) := by
  refine .bind .skipNewlines fun _ s₁ hle hnewline => .at? (fun _ => ?_) fun heof =>
    .acceptSymbol rfl (fun _ _ hlt hdedent => ?_) fun hdedent => ?_
  · exact .pure (.done fun _ => .inl) fun _ _ hbreaks _ hbefore =>
      derivesProgram_of_breaks hbefore hbreaks
  · exact .pure (.on (by omega) fun _ => .inl) fun _ _ hbreaks _ hbefore =>
      .dedent (derivesProgram_of_breaks hbefore hbreaks) hdedent
  · refine (reads_further h (by omega) hexpression false earlier hnewline hdedent heof).mono
      (fun _ _ _ hgoes => hgoes.mono hle fun _ => id) fun _ _ _ hmore _ hbreaks _ hbefore => ?_
    obtain ⟨st, rfl, hst⟩ := hmore
    exact .further (derivesProgram_of_breaks hbefore hbreaks) hst

end First

end Below

/-- **Twice the words that are left are depth enough**: an expression takes a level, and a block one
more for the expression that its statements may begin with. -/
theorem readsBelow_nested : ∀ {w depth}, 2 * w ≤ depth → ReadsBelow g T w (nested depth)
  | 0, _, _ =>
    ⟨fun _ _ hs => absurd hs (Nat.not_lt_zero _), fun _ hs => absurd hs (Nat.not_lt_zero _),
      fun _ _ hs => absurd hs (Nat.not_lt_zero _)⟩
  | w + 1, 0, hdepth => absurd hdepth (by omega)
  | w + 1, 1, hdepth => absurd hdepth (by omega)
  | w + 1, depth + 2, hdepth =>
    have houter : ReadsBelow g T w (nested (depth + 1)) := readsBelow_nested (by omega)
    have hinner : ReadsBelow g T w (nested depth) := readsBelow_nested (by omega)
    ⟨fun role _ hs hstarts => reads_expressionOf houter (Nat.le_of_lt_succ hs) role hstarts,
      fun _ hs => reads_ternaryOf houter (Nat.le_of_lt_succ hs) .inner (starts_inner _),
      fun inLoop _ hs => (Reads.iterate (a := []) (fun _ _ hs hearlier =>
        reads_kept hearlier (reads_blockRound houter hs (fun role _ hs hstarts =>
          reads_expressionOf hinner hs role hstarts) inLoop _))
        (Nat.le_of_lt_succ hs) trivial).imp fun before _ _ hderives => hderives before .none⟩

/-- The expression that a statement begins with is read one level further down. -/
theorem reads_expression_nested (hdepth : 2 * w + 1 ≤ depth) (role : Role) (s : State)
    (hw : s.cursor.weight ≤ w) (hstarts : s.cursor.Starts role) :
    ReadsExpr g T (nested depth).expression s role := by
  obtain ⟨depth, rfl⟩ : ∃ d, depth = d + 1 := ⟨depth - 1, by omega⟩
  exact reads_expressionOf (readsBelow_nested (by omega)) hw role hstarts

/-- **A program is read as it is derived.** -/
theorem reads_program (hdepth : 2 * s.cursor.weight + 1 ≤ depth) :
    Reads g T False (nested depth).program s (fun body _ => EveryStmt (Kept T) body)
      DerivesProgram :=
  (Reads.iterate (a := []) (fun _ _ hs hearlier => reads_kept hearlier (reads_programRound
    (readsBelow_nested (by omega)) hs (reads_expression_nested hdepth) _))
    (Nat.le_refl _) trivial).imp fun before _ _ hderives => hderives before .none

/-- Statements are read up to the end of the tokens. -/
theorem kind_of_programRound_eq_none {earlier s'} (h : n.programRound earlier s = .ok none s') :
    s'.cursor.kind = .eof := by
  obtain ⟨_, s₁, -, h⟩ := exists_of_bind_eq_ok h
  obtain ⟨atEnd, _, hat, h⟩ := exists_of_bind_eq_ok h
  cases hat
  split at h
  · next heof =>
    cases h
    exact of_decide_eq_true heof
  · obtain ⟨found, s₂, -, h⟩ := exists_of_bind_eq_ok h
    split at h
    · cases h
    · obtain ⟨_, _, -, h⟩ := exists_of_bind_eq_ok h
      cases h

/-- What becomes of reading a program. -/
theorem exists_program_outcome (hs : s.cursor.Settled) (hT : s.Holds T)
    (hdepth : 2 * s.cursor.weight + 1 ≤ depth) :
    ∃ statements s', (nested depth).program s = .ok statements s' ∧ s'.cursor.rest = [] ∧
      Outcome g T False s (fun body _ => EveryStmt (Kept T) body) DerivesProgram
        ((nested depth).program (s.moved g)) (.ok statements s') := by
  obtain ⟨statements, s', hok, h⟩ := (reads_program (g := g) hdepth).exists_ok hs hT
  obtain ⟨_, -, hround⟩ := exists_of_iterate_eq_ok (P := fun _ _ => True)
    (fun _ _ => trivial) trivial hok
  exact ⟨statements, s', hok, (hs.reaches h.1).rest_eq_nil_iff.mpr
    (kind_of_programRound_eq_none hround), h⟩

/-- **A program is read to its end.** -/
theorem exists_program_eq_ok (hs : s.cursor.Settled) (hdepth : 2 * s.cursor.weight + 1 ≤ depth) :
    ∃ statements s', (nested depth).program s = .ok statements s' ∧
      Reaches s.cursor s'.cursor ∧ s'.cursor.rest = [] := by
  obtain ⟨statements, s', hok, hrest, h⟩ :=
    exists_program_outcome (g := id) hs s.holds_true hdepth
  exact ⟨statements, s', hok, h.1, hrest⟩

end Nested

/-! ## Programs -/

/-- What became of tokens, with other places for line breaks. -/
def Parsed.moved (g : Position → Position) (p : Parsed) : Parsed :=
  ⟨p.statements, p.reports.map (Parser.Report.moved g), p.tokens.map (Token.moved g), p.ended⟩

@[simp] theorem Cursor.tokens_moved (c : Cursor) :
    (c.moved g).tokens = c.tokens.map (Token.moved g) := by
  simp only [tokens, moved, map_append, map_reverse, map_cons, map_nil]

theorem Cursor.exists_find?_eof (heof : ∃ t ∈ tokens, t.kind = .eof) :
    ∃ t, tokens.find? (·.kind = .eof) = some t :=
  Option.isSome_iff_exists.mp (find?_isSome.mpr (by simpa using heof))

theorem Cursor.finalOf_mem (heof : ∃ t ∈ tokens, t.kind = .eof) : finalOf tokens ∈ tokens := by
  obtain ⟨t, ht⟩ := exists_find?_eof heof
  simp only [finalOf, ht]
  exact mem_of_find?_eq_some ht

theorem Cursor.start_moved (heof : ∃ t ∈ tokens, t.kind = .eof) :
    start (tokens.map (Token.moved g)) = (start tokens).moved g := by
  obtain ⟨t, ht⟩ := exists_find?_eof heof
  have hmoved : (tokens.map (Token.moved g)).find? (·.kind = .eof) = some (t.moved g) := by
    rw [find?_map]
    exact congrArg (Option.map (Token.moved g)) ht
  have hfinal : finalOf (tokens.map (Token.moved g)) = (finalOf tokens).moved g := by
    simp only [finalOf, ht, hmoved]
  unfold start
  rw [hfinal, takeWhile_moved (p := fun k => k ≠ .eof)]
  exact skipSoft_moved _ _ []

/-- Tokens as they are parsed. -/
theorem Parsed.exists_outcome (tokens : List Token) (hT : State.Holds T ⟨start tokens, []⟩) :
    ∃ statements s, ofTokens tokens
        = ⟨statements, s.reports.reverse, s.cursor.tokens, true⟩ ∧ s.cursor.rest = [] ∧
      Outcome g T False ⟨start tokens, []⟩ (fun body _ => EveryStmt (Kept T) body)
        DerivesProgram ((nested (2 * (start tokens).weight + 2)).program
          (State.moved g ⟨start tokens, []⟩)) (.ok statements s) := by
  obtain ⟨statements, s, hok, hrest, h⟩ := Nested.exists_program_outcome (g := g)
    (s := ⟨start tokens, []⟩) (settled_start tokens) hT
    (Nat.le_succ (2 * (start tokens).weight + 1))
  refine ⟨statements, s, ?_, hrest, h⟩
  unfold ofTokens
  dsimp only
  rw [hok]

/-- **A program that is accepted is derived from its words**, which are read off the tokens before
the first end of input. -/
theorem exists_derivesProgram {program} (h : (ofTokens tokens).program? = some program) :
    ∃ words, Splits (tokens.takeWhile (·.kind ≠ .eof)) words ∧
      (ofTokens tokens).tokens = words.map (·.token) ++ [finalOf tokens] ∧
      DerivesProgram (withoutSoft words) program [] := by
  obtain ⟨statements, s, hparsed, hrest, hreaches, -, -, -, hspans⟩ :=
    exists_outcome (g := id) tokens (State.holds_true _)
  rw [hparsed] at h ⊢
  obtain ⟨hreports, rfl⟩ : s.reports = [] ∧ statements = program := by
    simpa [program?] using h
  have hahead : Ahead s.cursor s.cursor.taken.reverse [] :=
    ⟨((settled_start tokens).reaches hreaches).final, hrest ▸ .nil, append_nil _⟩
  obtain ⟨before, hbefore, hderives⟩ := (hspans hreports).2 _ _ hahead
  obtain ⟨words, hwords, hhard⟩ := hbefore.skipSoft
  refine ⟨words, hwords.splits, ?_, hhard ▸ hderives⟩
  have hread : words.map (·.token) = s.cursor.taken.reverse := hwords.read
  simp [hread, Cursor.tokens, hrest, hreaches.final_eq]

/-- **The tokens in a program, accepted or not, and those that are reported are tokens of its
text**, or what a name was split or cut down to. -/
theorem every_ofTokens {Q} (hQ : Token.Hereditary Q) (htokens : ∀ t ∈ tokens, Q t)
    (heof : ∃ t ∈ tokens, t.kind = .eof) :
    (∀ st ∈ (ofTokens tokens).statements, st.Every (Kept Q)) ∧
      ∀ r ∈ (ofTokens tokens).reports, Q r.token := by
  have hstart : Left Q (start tokens) :=
    .skipSoft (fun t ht => htokens t ((takeWhile_sublist _).subset ht))
      (htokens _ (finalOf_mem heof))
  obtain ⟨statements, s, hparsed, -, -, hholds, -, hevery, -⟩ :=
    exists_outcome (g := id) tokens ⟨hQ, hstart, forall_mem_nil _⟩
  rw [hparsed]
  exact ⟨everyStmt_iff.mp hevery, fun r hr => hholds.reports r (mem_reverse.mp hr)⟩

/-- **A program does not depend on where the line breaks are said to be.** -/
theorem ofTokens_moved (heof : ∃ t ∈ tokens, t.kind = .eof) :
    Parsed.ofTokens (tokens.map (Token.moved g)) = (Parsed.ofTokens tokens).moved g := by
  obtain ⟨statements, s, hparsed, -, -, -, hmoved, -⟩ :=
    exists_outcome (g := g) tokens (State.holds_true _)
  have hprogram : (nested (2 * (start tokens).weight + 2)).program
      ⟨(start tokens).moved g, []⟩ = .ok statements (s.moved g) := hmoved
  rw [hparsed]
  unfold ofTokens
  simp [start_moved heof, hprogram, Parsed.moved, State.moved, map_reverse]

end Offside
