import Offside.Proofs.Reading

/-!
# Proofs/WellFormed — what every program keeps to

Some rules of the language are no rules of its grammar: where a loop may be left, which names have
to differ, where an assignment may stand.  What is read against one of them is reported and reading
goes on, so the tree may break it; a tree without reports does not (`wellFormed_of_program?`).
-/

namespace Offside

/-! ## The rules -/

mutual

/-- An expression keeps to the rules: it assigns nothing, the parameters of its functions differ by
name, and so do the keys of each of its records. -/
def Expr.WellFormed : Expr → Prop
  | .ternary _ condition consequent alternative =>
    condition.WellFormed ∧ consequent.WellFormed ∧ alternative.WellFormed
  | .binary _ _ left right => left.WellFormed ∧ right.WellFormed
  | .group inner => inner.WellFormed
  | .literal _ _ => True
  | .unary _ _ operand => operand.WellFormed
  | .name _ => True
  | .assign _ _ => False
  | .call _ callee arguments => callee.WellFormed ∧ WellFormedAll arguments
  | .get object member => object.WellFormed ∧ member.WellFormed
  | .set _ _ _ => False
  | .list _ elements => WellFormedAll elements
  | .record _ fields => (fields.map (·.key.lexeme)).Nodup ∧ WellFormedFields fields
  | .function _ parameters body => (parameters.map (·.lexeme)).Nodup ∧ WellFormedBody false body

/-- A member access keeps to the rules. -/
def Member.WellFormed : Member → Prop
  | .field _ => True
  | .index _ index => index.WellFormed

/-- Expressions keep to the rules. -/
def WellFormedAll : List Expr → Prop
  | [] => True
  | first :: later => first.WellFormed ∧ WellFormedAll later

/-- The values of fields keep to the rules. -/
def WellFormedFields : List Field → Prop
  | [] => True
  | .mk _ value :: later => value.WellFormed ∧ WellFormedFields later

/-- A statement keeps to the rules, in a loop or not.  An assignment is the whole of an expression
statement, and a loop is left only in its body: not from a function in it, which is a body of its
own. -/
def Stmt.WellFormed (inLoop : Bool) : Stmt → Prop
  | .expression (.assign _ value) => value.WellFormed
  | .expression (.set object member value) =>
    object.WellFormed ∧ member.WellFormed ∧ value.WellFormed
  | .expression value => value.WellFormed
  | .block body => WellFormedBody inLoop body
  | .branch _ condition body rest =>
    condition.WellFormed ∧ WellFormedBody inLoop body ∧ rest.WellFormed inLoop
  | .loop _ condition body => condition.WellFormed ∧ WellFormedBody true body
  | .leave _ => inLoop = true
  | .function _ _ parameters body =>
    (parameters.map (·.lexeme)).Nodup ∧ WellFormedBody false body
  | .answer _ none => True
  | .answer _ (some value) => value.WellFormed
  | .declare _ _ _ value => value.WellFormed

/-- What a conditional statement does where its condition fails keeps to the rules. -/
def Otherwise.WellFormed (inLoop : Bool) : Otherwise → Prop
  | .nothing => True
  | .body body => WellFormedBody inLoop body
  | .branch _ condition body rest =>
    condition.WellFormed ∧ WellFormedBody inLoop body ∧ rest.WellFormed inLoop

/-- Statements keep to the rules, in a loop or not. -/
def WellFormedBody (inLoop : Bool) : List Stmt → Prop
  | [] => True
  | first :: later => first.WellFormed inLoop ∧ WellFormedBody inLoop later

end

/-! ## Trees of words -/

theorem wellFormedAll_iff {es} : WellFormedAll es ↔ ∀ e ∈ es, e.WellFormed :=
  forall_mem_iff trivial fun _ _ => .rfl

/-- A field keeps to the rules. -/
def Field.WellFormed : Field → Prop
  | .mk _ value => value.WellFormed

theorem wellFormedFields_iff {fields} : WellFormedFields fields ↔ ∀ f ∈ fields, f.WellFormed :=
  forall_mem_iff trivial fun f _ => by cases f; exact .rfl

theorem wellFormedBody_iff {inLoop body} :
    WellFormedBody inLoop body ↔ ∀ st ∈ body, st.WellFormed inLoop :=
  forall_mem_iff trivial fun _ _ => .rfl

/-- An expression that assigns nothing is one for its effect as well. -/
theorem Expr.WellFormed.statement {e} (h : e.WellFormed) (inLoop : Bool) :
    (Stmt.expression e).WellFormed inLoop := by
  rw [Stmt.WellFormed]
  · exact h
  · rintro _ _ rfl
    rwa [Expr.WellFormed] at h
  · rintro _ _ _ rfl
    rwa [Expr.WellFormed] at h

theorem wellFormed_of_assignment? {target value assigned}
    (h : Nested.assignment? target value = some assigned) (htarget : target.WellFormed)
    (hvalue : value.WellFormed) (inLoop : Bool) : (Stmt.expression assigned).WellFormed inLoop := by
  rcases Nested.assignment?_cases h with ⟨name, rfl, rfl⟩ | ⟨object, member, rfl, rfl⟩
  · exact hvalue
  · exact ⟨htarget.1, htarget.2, hvalue⟩

/-- The trees of a category keep to the rules. -/
def Category.WellFormed : (c : Category) → c.Tree → Prop
  | .type, _ => True
  | .typeField, _ => True
  | .declaredType, _ => True
  | .parameter, _ => True
  | .parameters, names => (names.map (·.lexeme)).Nodup
  | .expression _, e => e.WellFormed
  | .field, f => f.WellFormed
  | .functionBody, body => WellFormedBody false body
  | .block inLoop, body => WellFormedBody inLoop body
  | .statement inLoop, st => st.WellFormed inLoop
  | .otherwise inLoop, rest => rest.WellFormed inLoop
  | .series item, trees => ∀ tree ∈ trees, item.WellFormed tree

/-- **What is derived from words keeps to the rules.** -/
theorem Derives.wellFormed {c before after tree} (h : Derives c before tree after) :
    c.WellFormed tree := by
  induction h with
  | none => exact List.forall_mem_nil _
  | further _ _ htrees htree =>
    exact List.forall_mem_append.mpr ⟨htrees, List.forall_mem_singleton.mpr htree⟩
  | separator _ _ htrees => exact htrees
  | named | applied | optional | maybe | listType | recordType | functionType | groupedType
  | typeField | untyped | typed | parameter => trivial
  | parameters _ _ hdistinct => exact hdistinct
  | shortBody _ _ hvalue => exact ⟨hvalue, trivial⟩
  | longBody _ hbody => exact hbody
  | literal | name => trivial
  | group _ _ _ hvalue => exact hvalue
  | list _ _ _ helements => exact wellFormedAll_iff.mpr helements
  | record _ _ hdistinct _ hfields => exact ⟨hdistinct, wellFormedFields_iff.mpr hfields⟩
  | field _ _ _ hvalue => exact hvalue
  | call _ _ _ _ hcallee harguments => exact ⟨hcallee, wellFormedAll_iff.mpr harguments⟩
  | getField _ _ _ hobject => exact ⟨hobject, trivial⟩
  | getIndex _ _ _ _ hobject hindex => exact ⟨hobject, hindex⟩
  | unary _ _ hoperand => exact hoperand
  | binary _ _ _ _ hleft hright => exact ⟨hleft, hright⟩
  | ternary _ _ _ _ _ hcondition hconsequent halternative =>
    exact ⟨hcondition, hconsequent, halternative⟩
  | functionLiteral _ _ _ hnames hbody => exact ⟨hnames, hbody⟩
  | block _ _ _ _ hbody | innerBlock _ _ _ hbody => exact wellFormedBody_iff.mpr hbody
  | expression _ _ hvalue | callStatement _ _ _ _ hvalue => exact hvalue.statement _
  | assignment _ _ _ _ hassigned _ htarget hvalue =>
    exact wellFormed_of_assignment? hassigned htarget hvalue _
  | declare _ _ _ _ _ _ _ hvalue => exact hvalue
  | function _ _ _ _ _ hnames hbody => exact ⟨hnames, hbody⟩
  | answerNothing => trivial
  | answer _ _ _ hvalue => exact hvalue
  | leave => rfl
  | loop _ _ _ hcondition hbody => exact ⟨hcondition, hbody⟩
  | conditional _ _ _ _ hcondition hbody hrest => exact ⟨hcondition, hbody, hrest⟩
  | otherwiseNothing => trivial
  | otherwiseBody _ _ hbody => exact hbody
  | otherwiseBranch _ _ _ _ hcondition hbody hrest => exact ⟨hcondition, hbody, hrest⟩

theorem DerivesProgram.wellFormed {before after program} (h : DerivesProgram before program after) :
    ∀ st ∈ program, st.WellFormed false := by
  induction h with
  | none => exact List.forall_mem_nil _
  | further _ hst ih =>
    exact List.forall_mem_append.mpr ⟨ih, List.forall_mem_singleton.mpr hst.wellFormed⟩
  | newline _ _ ih | dedent _ _ ih => exact ih

/-- **A program that is accepted keeps to the rules**: it leaves a loop only in the loop's own body,
parameters of a function and keys of a record differ by name, and an assignment is the whole of an
expression statement. -/
theorem wellFormed_of_program? {tokens : List Token} {program : List Stmt}
    (h : (Parsed.ofTokens tokens).program? = some program) : WellFormedBody false program := by
  obtain ⟨words, -, -, hderives⟩ := exists_derivesProgram h
  exact wellFormedBody_iff.mpr hderives.wellFormed

/-- A loop in a function that is left from a branch, behind it a function with a loop of its own,
and assignments to a name and to a field. -/
def loopingSource : String :=
  "fn f (a, b)\n  while a\n    if b\n      break\n    let a : \x7bx: 1, y: fn (a): b\x7d\n" ++
    "  let a.x : fn (b, a)\n    while b\n      break\n  return a\n"

theorem wellFormed_loopingSource : ∃ program,
    (Parsed.ofTokens (Token.scan loopingSource.toList).tokens).program? = some program ∧
      WellFormedBody false program := by
  have hparses : (Parsed.ofTokens (Token.scan loopingSource.toList).tokens).program?.isSome := by
    decide +kernel
  obtain ⟨program, hprogram⟩ := Option.isSome_iff_exists.mp hparses
  have hwellFormed := wellFormed_of_program? hprogram
  exact ⟨program, hprogram, hwellFormed⟩

end Offside
