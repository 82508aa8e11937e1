import Offside.Proofs.Indentation

/-!
# Proofs/Names — names, literals and written types in a program

A tree holds names and literals that are words of its program, and the names of types as they are
written, but for a question mark at their end.  So what words grant (`Grants`) can be asked of a
tree that is derived from them (`Derives.names`).
-/

namespace Offside

open List

/-! ## The names in a tree -/

/-- What is asked of the names in a tree, of its literals and of the names of types. -/
structure Asked where
  name : Token → Prop
  literal : Token → Token.Literal → Prop
  typeName : Token → Prop

section

variable (P : Asked)

mutual

/-- Holds of the names in a written type. -/
def TypeExpr.Names : TypeExpr → Prop
  | .named name arguments => P.typeName name ∧ NamesTypes arguments
  | .list _ element => element.Names
  | .record _ fields => NamesTypeFields fields
  | .function _ parameters result => NamesTypes parameters ∧ result.Names
  | .maybe inner => inner.Names

/-- Holds of the names in written types. -/
def NamesTypes : List TypeExpr → Prop
  | [] => True
  | first :: later => first.Names ∧ NamesTypes later

/-- Holds of the names in the fields of a record type. -/
def NamesTypeFields : List (Token × TypeExpr) → Prop
  | [] => True
  | (key, type) :: later => (P.name key ∧ type.Names) ∧ NamesTypeFields later

end

mutual

/-- Holds of the names, literals and types in an expression. -/
def Expr.Names : Expr → Prop
  | .ternary _ test consequent alternative =>
    test.Names ∧ consequent.Names ∧ alternative.Names
  | .binary _ _ left right => left.Names ∧ right.Names
  | .group inner => inner.Names
  | .literal token value => P.literal token value
  | .unary _ _ operand => operand.Names
  | .name token => P.name token
  | .assign target value => P.name target ∧ value.Names
  | .call _ callee arguments => callee.Names ∧ NamesAll arguments
  | .get object member => object.Names ∧ member.Names
  | .set object member value => object.Names ∧ member.Names ∧ value.Names
  | .list _ elements => NamesAll elements
  | .record _ fields => NamesFields fields
  | .function _ parameters body => (∀ t ∈ parameters, P.name t) ∧ NamesBody body

/-- Holds of what is in a member access. -/
def Member.Names : Member → Prop
  | .field name => P.name name
  | .index _ index => index.Names

/-- Holds of what is in expressions. -/
def NamesAll : List Expr → Prop
  | [] => True
  | first :: later => first.Names ∧ NamesAll later

/-- Holds of what is in the fields of a record. -/
def NamesFields : List Field → Prop
  | [] => True
  | .mk key value :: later => (P.name key ∧ value.Names) ∧ NamesFields later

/-- Holds of what is in a statement. -/
def Stmt.Names : Stmt → Prop
  | .expression value => value.Names
  | .block body => NamesBody body
  | .branch _ test body rest => test.Names ∧ NamesBody body ∧ rest.Names
  | .loop _ test body => test.Names ∧ NamesBody body
  | .leave _ => True
  | .function name _ parameters body =>
    P.name name ∧ (∀ t ∈ parameters, P.name t) ∧ NamesBody body
  | .answer _ none => True
  | .answer _ (some value) => value.Names
  | .declare _ name type value => P.name name ∧ (∀ t ∈ type, t.Names P) ∧ value.Names

/-- Holds of what is in what a conditional statement does where its condition fails. -/
def Otherwise.Names : Otherwise → Prop
  | .nothing => True
  | .body body => NamesBody body
  | .branch _ test body rest => test.Names ∧ NamesBody body ∧ rest.Names

/-- Holds of what is in statements. -/
def NamesBody : List Stmt → Prop
  | [] => True
  | first :: later => first.Names ∧ NamesBody later

end

/-- Holds of what is in a field of a record. -/
def Field.Names : Field → Prop
  | .mk key value => P.name key ∧ value.Names P

end

variable {P : Asked}

theorem namesTypes_iff {types} : NamesTypes P types ↔ ∀ t ∈ types, t.Names P :=
  forall_mem_iff trivial fun _ _ => .rfl

theorem namesTypeFields_iff {fields} :
    NamesTypeFields P fields ↔ ∀ f ∈ fields, P.name f.1 ∧ f.2.Names P :=
  forall_mem_iff trivial fun _ _ => .rfl

theorem namesAll_iff {es} : NamesAll P es ↔ ∀ e ∈ es, e.Names P :=
  forall_mem_iff trivial fun _ _ => .rfl

theorem namesBody_iff {body} : NamesBody P body ↔ ∀ st ∈ body, st.Names P :=
  forall_mem_iff trivial fun _ _ => .rfl

theorem namesFields_iff {fields} : NamesFields P fields ↔ ∀ f ∈ fields, f.Names P :=
  forall_mem_iff trivial fun f _ => by cases f; exact .rfl

theorem names_of_assignment? {target value assigned}
    (h : Nested.assignment? target value = some assigned) (htarget : target.Names P)
    (hvalue : value.Names P) : assigned.Names P := by
  rcases Nested.assignment?_cases h with ⟨name, rfl, rfl⟩ | ⟨object, member, rfl, rfl⟩
  · exact ⟨htarget, hvalue⟩
  · exact ⟨htarget.1, htarget.2, hvalue⟩

/-- Holds of what is in a tree of the category. -/
def Category.Names (P : Asked) : (c : Category) → c.Tree → Prop
  | .type, written => written.Names P
  | .typeField, f => P.name f.1 ∧ f.2.Names P
  | .declaredType, written => ∀ t ∈ written, t.Names P
  | .parameter, t => P.name t
  | .parameters, names => ∀ t ∈ names, P.name t
  | .expression _, e => e.Names P
  | .field, f => f.Names P
  | .functionBody, body => NamesBody P body
  | .block _, body => NamesBody P body
  | .statement _, st => st.Names P
  | .otherwise _, rest => rest.Names P
  | .series item, trees => ∀ tree ∈ trees, item.Names P tree

/-! ## The words of a tree -/

/-- The kinds of the tokens that are literals. -/
def Token.literalKinds : List Token.Kind := [.number, .text, .true, .false, .null]

/-- Words of which `W` holds are what is asked of a tree. -/
structure Grants (W : Word → Prop) (P : Asked) : Prop where
  name : ∀ w, W w → w.token.kind = .identifier → P.name w.token
  literal : ∀ w, W w → w.token.kind ∈ Token.literalKinds →
    P.literal w.token (w.token.literal.getD .null)
  typeName : ∀ w, W w → w.token.kind = .identifier → P.typeName w.token.unquestioned

theorem Grants.named {W} (hgrants : Grants W P) {w} (hw : W w) (ht : w.token.kind = .identifier)
    (hname : w.token.lexeme.toList.getLast? ≠ some '?') : P.typeName w.token := by
  have hgranted := hgrants.typeName w hw ht
  rwa [Token.unquestioned, if_neg hname] at hgranted

/-- Holds of every one of some words. -/
def Throughout (W : Word → Prop) (words : List Word) : Prop := ∀ w ∈ words, W w

section

variable {W : Word → Prop} {w : Word} {words mid after : List Word}

theorem Throughout.head (h : Throughout W (w :: words)) : W w := (forall_mem_cons.mp h).1

theorem Throughout.tail (h : Throughout W (w :: words)) : Throughout W words :=
  (forall_mem_cons.mp h).2

theorem Ending.throughout (h : Ending mid after) (hmid : Throughout W mid) :
    Throughout W after := by
  cases h with
  | newline => exact hmid.tail
  | dedent | final => exact hmid

theorem Closing.throughout (h : Closing mid after) (hmid : Throughout W mid) :
    Throughout W after := by
  cases h with
  | dedent => exact hmid.tail
  | final => exact hmid

theorem throughout_of_end (h : mid = after ∨ Ending mid after) (hmid : Throughout W mid) :
    Throughout W after := by
  rcases h with rfl | hending
  · exact hmid
  · exact hending.throughout hmid

/-- Words that have a property throughout show a fact, and what is behind them has the property
throughout as well. -/
def PassesOn (W : Word → Prop) (before : List Word) (F : Prop) (after : List Word) : Prop :=
  Throughout W before → F ∧ Throughout W after

namespace PassesOn

variable {F G : Prop} {before : List Word}

theorem nothing (h : F) : PassesOn W words F words := fun hwords => ⟨h, hwords⟩

theorem word : PassesOn W (w :: words) (W w) words := fun hwords => ⟨hwords.head, hwords.tail⟩

theorem and (h : PassesOn W before F mid) (h' : PassesOn W mid G after) :
    PassesOn W before (F ∧ G) after := fun hbefore =>
  have ⟨hF, hmid⟩ := h hbefore
  have ⟨hG, hafter⟩ := h' hmid
  ⟨⟨hF, hG⟩, hafter⟩

section

variable (h : PassesOn W before F mid)

include h

theorem imp (himp : F → G) : PassesOn W before G mid := fun hbefore => (h hbefore).imp_left himp

/-- A word in front. -/
theorem lead : PassesOn W (w :: before) F mid := fun hbefore => h hbefore.tail

theorem close (hmid : Throughout W mid → Throughout W after) : PassesOn W before F after :=
  fun hbefore => (h hbefore).imp_right hmid

end

/-- A word behind. -/
theorem skip (h : PassesOn W before F (w :: mid)) : PassesOn W before F mid := h.close (·.tail)

end PassesOn

end

/-- **A tree has what its words grant.** -/
theorem Derives.names {W} (hgrants : Grants W P) {c before after tree}
    (h : Derives c before tree after) : PassesOn W before (c.Names P tree) after := by
  induction h with
  | none => exact .nothing (forall_mem_nil _)
  | further _ _ ih ih' =>
    exact (ih.and ih').imp fun h =>
      forall_mem_append.mpr ⟨h.1, forall_mem_singleton.mpr h.2⟩
  | separator _ _ ih | maybe _ _ ih => exact ih.skip
  | named ht hname => exact PassesOn.word.imp fun hw => ⟨hgrants.named hw ht hname, trivial⟩
  | applied ht hname _ _ _ ih =>
    exact (PassesOn.word.and ih.lead.skip).imp fun h =>
      ⟨hgrants.named h.1 ht hname, namesTypes_iff.mpr h.2⟩
  | optional ht hname =>
    refine PassesOn.word.imp fun hw => ⟨?_, trivial⟩
    have hgranted := hgrants.typeName _ hw ht
    rwa [Token.unquestioned, if_pos hname] at hgranted
  | listType _ _ _ ih | group _ _ _ ih | parameters _ _ _ _ ih => exact ih.lead.skip
  | recordType _ _ _ ih => exact ih.lead.skip.imp namesTypeFields_iff.mpr
  | functionType _ _ _ _ _ ih ih' =>
    exact (ih.lead.skip.skip.and ih').imp fun h => ⟨namesTypes_iff.mpr h.1, h.2⟩
  | groupedType _ _ _ ih => exact ih.lead.skip.imp forall_mem_singleton.mp
  | typeField hkey _ _ ih | field hkey _ _ ih =>
    exact (PassesOn.word.and ih.lead).imp fun h => ⟨hgrants.name _ h.1 hkey, h.2⟩
  | untyped => exact .nothing (by rintro _ ⟨⟩)
  | typed _ _ _ ih =>
    refine ih.lead.skip.imp fun htype => ?_
    rintro _ ⟨⟩
    exact htype
  | parameter ht | name _ ht => exact PassesOn.word.imp fun hw => hgrants.name _ hw ht
  | shortBody _ _ ih => exact ih.lead.imp fun h => ⟨h, trivial⟩
  | longBody _ ih => exact ih
  | literal _ ht => exact PassesOn.word.imp fun hw => hgrants.literal _ hw ht
  | list _ _ _ ih => exact ih.lead.skip.imp namesAll_iff.mpr
  | record _ _ _ _ ih => exact ih.lead.skip.imp namesFields_iff.mpr
  | call _ _ _ _ ih ih' =>
    exact (ih.skip.and ih'.skip).imp fun h => ⟨h.1, namesAll_iff.mpr h.2⟩
  | getField _ _ hname ih =>
    exact (ih.skip.and .word).imp fun h => ⟨h.1, hgrants.name _ h.2 hname⟩
  | getIndex _ _ _ _ ih ih' => exact ih.skip.and ih'.skip
  | unary _ _ ih | otherwiseBody _ _ ih => exact ih.lead
  | binary _ _ _ _ ih ih' => exact ih.skip.and ih'
  | ternary _ _ _ _ _ ih ih' ih'' => exact ih.skip.and (ih'.skip.and ih'')
  | functionLiteral _ _ _ ih ih' | loop _ _ _ ih ih' => exact ih.lead.and ih'
  | block _ _ _ hclosing ih =>
    exact (ih.lead.lead.imp namesBody_iff.mpr).close hclosing.throughout
  | innerBlock _ _ hclosing ih => exact (ih.lead.imp namesBody_iff.mpr).close hclosing.throughout
  | expression _ hend ih => exact ih.close (throughout_of_end hend)
  | callStatement _ _ _ hend ih | answer _ _ hend ih => exact ih.lead.close (throughout_of_end hend)
  | assignment _ _ _ _ hassigned hend ih ih' =>
    refine ((ih.lead.skip.and ih').imp fun h => ?_).close (throughout_of_end hend)
    exact names_of_assignment? hassigned h.1 h.2
  | declare _ hname _ _ _ hend ih ih' =>
    refine ((PassesOn.word.and (ih.skip.and ih')).lead.imp fun h => ?_).close
      (throughout_of_end hend)
    exact ⟨hgrants.name _ h.1 hname, h.2⟩
  | function _ hname _ _ hend ih ih' =>
    refine ((PassesOn.word.and (ih.and ih')).lead.imp fun h => ?_).close (throughout_of_end hend)
    exact ⟨hgrants.name _ h.1 hname, h.2⟩
  | answerNothing _ hend | leave _ hend =>
    exact (PassesOn.nothing trivial).lead.close hend.throughout
  | conditional _ _ _ _ ih ih' ih'' | otherwiseBranch _ _ _ _ ih ih' ih'' =>
    exact ih.lead.and (ih'.and ih'')
  | otherwiseNothing => exact .nothing trivial

theorem DerivesProgram.names {W} (hgrants : Grants W P) {before after program}
    (h : DerivesProgram before program after) (hbefore : Throughout W before) :
    (∀ st ∈ program, st.Names P) ∧ Throughout W after := by
  induction h with
  | none => exact ⟨forall_mem_nil _, hbefore⟩
  | further _ hst ih =>
    obtain ⟨hprogram, hmid⟩ := ih
    obtain ⟨hlast, hafter⟩ := hst.names hgrants hmid
    exact ⟨forall_mem_append.mpr ⟨hprogram, forall_mem_singleton.mpr hlast⟩, hafter⟩
  | newline _ _ ih | dedent _ _ ih => exact ⟨ih.1, ih.2.tail⟩

/-- A word that is neither a name nor a keyword is a token. -/
theorem Respelled.mem_tokens {tokens words} (h : Respelled tokens words) :
    ∀ w ∈ words, w.token.kind ≠ .identifier →
      isKeyword w.token.kind = false → w.token ∈ tokens := by
  induction h with
  | nil => exact forall_mem_nil _
  | same _ ih =>
    refine forall_mem_cons.mpr ⟨fun _ _ => mem_cons_self, fun w hw hname hkeyword => ?_⟩
    exact mem_cons_of_mem _ (ih w hw hname hkeyword)
  | keyword _ _ _ _ ih =>
    refine forall_mem_cons.mpr ⟨fun _ => nofun, fun w hw hname hkeyword => ?_⟩
    exact mem_cons_of_mem _ (ih w hw hname hkeyword)
  | split _ _ _ _ _ _ ih =>
    refine forall_mem_cons.mpr ⟨fun _ => nofun, forall_mem_cons.mpr
      ⟨fun hname => absurd rfl hname, fun w hw hname hkeyword => ?_⟩⟩
    exact mem_cons_of_mem _ (ih w hw hname hkeyword)

/-- **What is asked of a program that is read from a text**: names are asked of with a property that
goes over to what stands behind a joiner in a name, and literals are tokens of the text. -/
theorem names_of_program? {text : List Char} {program : List Stmt} {N : List Char → Prop}
    (h : (Parsed.ofTokens (Token.scan text).tokens).program? = some program)
    (hnames : ∀ t ∈ (Token.scan text).tokens, t.kind = .identifier → N t.lexeme.toList)
    (hbehind : ∀ first joiner later, Token.isJoiner joiner = true →
      N (first ++ joiner :: later) → N later)
    (hgrants : Grants (fun w => (w.token.kind = .identifier → N w.token.lexeme.toList) ∧
      (w.token.kind ∈ Token.literalKinds → w.token ∈ (Token.scan text).tokens)) P) :
    NamesBody P program := by
  obtain ⟨body, final, words, hscan, -, hrespelled, hderives, -⟩ := exists_words_of_program? h
  have hbody : ∀ t ∈ body, t ∈ (Token.scan text).tokens := by
    rw [hscan]
    exact fun t => mem_append_left _
  have hspelled := hrespelled.forall_names hbehind fun t ht => hnames t (hbody t ht)
  have hliteral : ∀ k ∈ Token.literalKinds, k ≠ .identifier ∧ isKeyword k = false := by decide
  refine namesBody_iff.mpr (hderives.names hgrants fun w hw => ?_).1
  have hmem := mem_of_mem_filter hw
  refine ⟨hspelled w hmem, fun hkind => hbody _ (hrespelled.mem_tokens w hmem ?_ ?_)⟩
  · exact (hliteral _ hkind).1
  · exact (hliteral _ hkind).2

end Offside
