import Offside.Proofs.Reading

/-!
# Proofs/Layout — what a program holds, in the order of its words

The layout of a tree is what it holds, in order: its names and literals, where its statements begin,
and its blocks with what they hold.  It is found a second time without the tree: marks are read off
the words one by one, and the tokens that open and close blocks are matched (`nest`).  Both ways
lead to the same layout (`Derives.nest`), so every name, statement and block of the words is in the
tree once and in its place (`nest_of_derivesProgram`, `leaves_of_derivesProgram`).
-/

namespace Offside

open List

/-! ## Layouts -/

/-- A part of what a tree holds. -/
inductive Layout where
  /-- A name or a literal. -/
  | leaf (token : Token)
  /-- A statement begins. -/
  | statement
  | block (inside : List Layout)

/-- Whether the body of a function is an expression behind a colon. -/
def isShortBody : List Stmt → Bool
  | [.answer keyword _] => keyword.kind = .colon
  | _ => false

/-- The body of a function is a block, unless it is an expression. -/
def bodyLayout (body : List Stmt) (inside : List Layout) : List Layout :=
  if isShortBody body then inside else [.block inside]

namespace TypeExpr

mutual

/-- The names in a type. -/
def layout : TypeExpr → List Layout
  | .named name arguments => .leaf name :: layoutAll arguments
  | .list _ element => element.layout
  | .record _ fields => layoutFields fields
  | .function _ parameters result => layoutAll parameters ++ result.layout
  | .maybe inner => inner.layout

/-- The names in types. -/
def layoutAll : List TypeExpr → List Layout
  | [] => []
  | first :: later => first.layout ++ layoutAll later

/-- The names in the fields of a record type. -/
def layoutFields : List (Token × TypeExpr) → List Layout
  | [] => []
  | (key, type) :: later => .leaf key :: (type.layout ++ layoutFields later)

end

end TypeExpr

mutual

/-- What an expression holds. -/
def Expr.layout : Expr → List Layout
  | .ternary _ condition consequent alternative =>
    condition.layout ++ consequent.layout ++ alternative.layout
  | .binary _ _ left right => left.layout ++ right.layout
  | .group inner => inner.layout
  | .literal token _ => [.leaf token]
  | .unary _ _ operand => operand.layout
  | .name token => [.leaf token]
  | .assign target value => .leaf target :: value.layout
  | .call _ callee arguments => callee.layout ++ layoutAll arguments
  | .get object member => object.layout ++ member.layout
  | .set object member value => object.layout ++ member.layout ++ value.layout
  | .list _ elements => layoutAll elements
  | .record _ fields => layoutFields fields
  | .function _ parameters body => parameters.map .leaf ++ bodyLayout body (layoutBody body)

/-- What a member access holds. -/
def Member.layout : Member → List Layout
  | .field name => [.leaf name]
  | .index _ index => index.layout

/-- What expressions hold. -/
def layoutAll : List Expr → List Layout
  | [] => []
  | first :: later => first.layout ++ layoutAll later

/-- What the fields of a record hold. -/
def layoutFields : List Field → List Layout
  | [] => []
  | .mk key value :: later => .leaf key :: (value.layout ++ layoutFields later)

/-- What a statement holds. -/
def Stmt.layout : Stmt → List Layout
  | .expression value => .statement :: value.layout
  | .block body => [.statement, .block (layoutBody body)]
  | .branch _ condition body rest =>
    .statement :: (condition.layout ++ .block (layoutBody body) :: rest.layout)
  | .loop _ condition body => .statement :: (condition.layout ++ [.block (layoutBody body)])
  | .leave _ => [.statement]
  | .function name _ parameters body =>
    .statement :: .leaf name :: (parameters.map .leaf ++ bodyLayout body (layoutBody body))
  | .answer _ none => [.statement]
  | .answer _ (some value) => .statement :: value.layout
  | .declare _ name none value => .statement :: .leaf name :: value.layout
  | .declare _ name (some type) value =>
    .statement :: .leaf name :: (type.layout ++ value.layout)

/-- What a conditional statement holds behind its first branch. -/
def Otherwise.layout : Otherwise → List Layout
  | .nothing => []
  | .body body => [.block (layoutBody body)]
  | .branch _ condition body rest =>
    condition.layout ++ .block (layoutBody body) :: rest.layout

/-- What statements hold. -/
def layoutBody : List Stmt → List Layout
  | [] => []
  | first :: later => first.layout ++ layoutBody later

end

@[simp] theorem layoutBody_eq_flatMap (body : List Stmt) :
    layoutBody body = body.flatMap Stmt.layout := by
  induction body with
  | nil => rfl
  | cons st body ih => exact congrArg (st.layout ++ ·) ih

/-! ## Marks -/

/-- What a word adds to a layout. -/
inductive Mark where
  | leaf (token : Token)
  | statement
  | opening
  | closing

/-- Whether a token of this kind is a name or a literal. -/
def Mark.isLeaf : Token.Kind → Bool
  | .identifier | .number | .text | .true | .false | .null => true
  | _ => false

theorem Mark.isLeaf_literal : ∀ k ∈ [.number, .text, .true, .false, .null], isLeaf k = true := by
  decide

/-- A token without a question mark at its end. -/
def Token.unquestioned (t : Token) : Token :=
  if t.lexeme.toList.getLast? = some '?' then
    { t with lexeme := String.ofList t.lexeme.toList.dropLast }
  else t

/-- The name or literal that a word is; the question mark of an optional type is not part of its
name. -/
def Word.leaf? (w : Word) : Option Token :=
  if Mark.isLeaf w.token.kind then
    some (if w.role = .typeName then w.token.unquestioned else w.token)
  else none

/-- What is marked where a word plays this part. -/
def Role.marks : Role → List Mark
  | .statement => [.statement]
  | .branch | .typeName | .inner => []

/-- What a word marks, in order. -/
def Word.marks (w : Word) : List Mark :=
  w.role.marks ++
    match w.token.kind with
    | .indent => [.opening]
    | .dedent => [.closing]
    | _ => w.leaf?.toList.map .leaf

/-- The layout that marks lead to, inside of what is open: what was found in each open block, the
innermost first.  Blocks that are never closed end with the marks, and a mark that closes nothing is
passed over. -/
def nest (outer : List (List Layout)) (inside : List Layout) : List Mark → List Layout
  | [] => outer.foldl (fun inside found => found ++ [.block inside]) inside
  | .leaf token :: marks => nest outer (inside ++ [.leaf token]) marks
  | .statement :: marks => nest outer (inside ++ [.statement]) marks
  | .opening :: marks => nest (inside :: outer) [] marks
  | .closing :: marks =>
    match outer with
    | [] => nest [] inside marks
    | found :: outer => nest outer (found ++ [.block inside]) marks

/-- The marks of words, nested. -/
def nestWords (outer : List (List Layout)) (inside : List Layout) (words : List Word) :
    List Layout :=
  nest outer inside (words.flatMap Word.marks)

variable {k : Token.Kind} {after before : List Word} {program : List Stmt}

section

variable {outer : List (List Layout)} {inside : List Layout} {words : List Word} {t : Token}
  {role : Role}

/-- What a part in a statement adds. -/
def Role.layout : Role → List Layout
  | .statement => [.statement]
  | .branch | .typeName | .inner => []

theorem nest_role (role : Role) (marks : List Mark) :
    nest outer inside (role.marks ++ marks) = nest outer (inside ++ role.layout) marks := by
  cases role with
  | statement => rfl
  | branch | typeName | inner => exact congrArg (nest outer · marks) (append_nil _).symm

/-- Whether a token of this kind is neither held nor opens or closes a block. -/
def Mark.isMere (k : Token.Kind) : Bool := !isLeaf k && k ≠ .indent && k ≠ .dedent

/-- Any other word adds only what its part does. -/
theorem nestWords_mere (ht : t.kind = k)
    (hk : Mark.isMere k = true) : nestWords outer inside (⟨t, role⟩ :: words)
      = nestWords outer (inside ++ role.layout) words := by
  subst ht
  obtain ⟨⟨hleaf, hindent⟩, hdedent⟩ :
      (Mark.isLeaf t.kind = false ∧ t.kind ≠ .indent) ∧ t.kind ≠ .dedent := by
    simpa [Mark.isMere] using hk
  have hmarks : (⟨t, role⟩ : Word).marks = role.marks ++ [] := by
    unfold Word.marks Word.leaf?
    dsimp only
    split
    · next h => exact absurd h hindent
    · next h => exact absurd h hdedent
    · rw [hleaf]
      rfl
  rw [nestWords, flatMap_cons, hmarks, append_nil, nest_role]
  rfl

theorem nestWords_inner (ht : t.kind = k) (hk : Mark.isMere k = true) :
    nestWords outer inside (⟨t, .inner⟩ :: words) = nestWords outer inside words := by
  rw [nestWords_mere ht hk, Role.layout, append_nil]

theorem nestWords_leaf (ht : t.kind = k)
    (hk : Mark.isLeaf k = true) : nestWords outer inside (⟨t, role⟩ :: words)
      = nestWords outer (inside ++ (role.layout ++
        [.leaf (if role = .typeName then t.unquestioned else t)])) words := by
  subst ht
  have hmarks : (⟨t, role⟩ : Word).marks
      = role.marks ++ [.leaf (if role = .typeName then t.unquestioned else t)] := by
    unfold Word.marks Word.leaf?
    dsimp only
    split
    · next h => rw [h] at hk; cases hk
    · next h => rw [h] at hk; cases hk
    · rw [if_pos hk]
      rfl
  rw [nestWords, flatMap_cons, hmarks, append_assoc, nest_role, ← append_assoc]
  rfl

/-- A block opens inside of what was found so far. -/
theorem nestWords_indent (ht : t.kind = .indent) : nestWords outer inside (⟨t, role⟩ :: words)
      = nestWords ((inside ++ role.layout) :: outer) [] words := by
  have hmarks : (⟨t, role⟩ : Word).marks = role.marks ++ [.opening] := by
    unfold Word.marks
    rw [ht]
  rw [nestWords, flatMap_cons, hmarks, append_assoc, nest_role]
  rfl

theorem Word.marks_dedent (ht : t.kind = .dedent) : (⟨t, .inner⟩ : Word).marks = [.closing] := by
  unfold marks
  rw [ht]
  rfl

/-- The innermost block ends, at the latest where the words do. -/
theorem nestWords_closing {found last} (h : Closing last after) :
    nestWords (found :: outer) inside last = nestWords outer (found ++ [.block inside]) after := by
  cases h with
  | dedent ht =>
    rw [nestWords, flatMap_cons, Word.marks_dedent ht]
    rfl
  | final => rfl

/-- A block that never began is not closed. -/
theorem nestWords_dedent (ht : t.kind = .dedent) :
    nestWords [] inside (⟨t, .inner⟩ :: words) = nestWords [] inside words := by
  rw [nestWords, flatMap_cons, Word.marks_dedent ht]
  rfl

theorem nestWords_end {mid} (h : mid = after ∨ Ending mid after) :
    nestWords outer inside mid = nestWords outer inside after := by
  rcases h with rfl | ⟨ht⟩ | _ | _
  · rfl
  · exact nestWords_inner ht rfl
  · rfl
  · rfl

/-- Words that are nested to parts of a layout. -/
def NestsTo (before : List Word) (parts : List Layout) (after : List Word) : Prop :=
  ∀ outer inside, nestWords outer inside before = nestWords outer (inside ++ parts) after

namespace NestsTo

variable {parts more : List Layout} {mid : List Word}

theorem nothing : NestsTo words [] words := fun outer inside => by rw [append_nil]

theorem append (h : NestsTo before parts mid) (h' : NestsTo mid more after) :
    NestsTo before (parts ++ more) after := fun outer inside => by
  rw [h, h', append_assoc]

theorem further {rest} (h : NestsTo before (parts ++ more) mid) (h' : NestsTo mid rest after) :
    NestsTo before (parts ++ (more ++ rest)) after :=
  append_assoc .. ▸ h.append h'

theorem skip (h : NestsTo before parts (⟨t, .inner⟩ :: after)) (ht : t.kind = k)
    (hk : Mark.isMere k = true) : NestsTo before parts after := fun outer inside => by
  rw [h, nestWords_inner ht hk]

theorem word (hrole : role ≠ .typeName) (ht : t.kind = k) (hk : Mark.isLeaf k = true) :
    NestsTo (⟨t, role⟩ :: after) (role.layout ++ [.leaf t]) after := fun outer inside => by
  rw [nestWords_leaf ht hk, if_neg hrole]

section

variable (h : NestsTo before parts after)

include h

theorem mere (ht : t.kind = k) (hk : Mark.isMere k = true) :
    NestsTo (⟨t, role⟩ :: before) (role.layout ++ parts) after := fun outer inside => by
  rw [nestWords_mere ht hk, h, append_assoc]

theorem inner (ht : t.kind = k) (hk : Mark.isMere k = true) :
    NestsTo (⟨t, .inner⟩ :: before) parts after := h.mere ht hk

theorem leaf (ht : t.kind = .identifier) :
    NestsTo (⟨t, .inner⟩ :: before) (.leaf t :: parts) after :=
  (word Role.noConfusion ht rfl).append h

theorem typeName {name} (ht : t.kind = .identifier) (hname : t.unquestioned = name) :
    NestsTo (⟨t, .typeName⟩ :: before) (.leaf name :: parts) after := fun outer inside => by
  rw [nestWords_leaf ht rfl, h, if_pos rfl, hname, append_assoc]
  rfl

theorem ends (hend : after = mid ∨ Ending after mid) : NestsTo before parts mid :=
  fun outer inside => by rw [h, nestWords_end hend]

theorem block (ht : t.kind = .indent) (hclosing : Closing after mid) :
    NestsTo (⟨t, role⟩ :: before) (role.layout ++ [.block parts]) mid := fun outer inside => by
  rw [nestWords_indent ht, h, nestWords_closing hclosing, nil_append, append_assoc]

end

end NestsTo

end

/-! ## Layouts of trees -/

namespace Category

/-- What the trees of a category hold.  The first word of an expression may begin a statement. -/
def layout : (c : Category) → c.Tree → List Layout
  | type, tree => tree.layout
  | typeField, (key, tree) => .leaf key :: tree.layout
  | declaredType, none => []
  | declaredType, some tree => tree.layout
  | parameter, token => [.leaf token]
  | parameters, names => names.map .leaf
  | expression role, e => role.layout ++ e.layout
  | field, .mk key value => .leaf key :: value.layout
  | functionBody, body => bodyLayout body (layoutBody body)
  | block _, body => [.block (layoutBody body)]
  | statement _, st => st.layout
  | otherwise _, rest => rest.layout
  | series item, trees => trees.flatMap item.layout

@[simp] theorem layout_types (types : List TypeExpr) :
    layout (.series .type) types = TypeExpr.layoutAll types := by
  induction types with
  | nil => rfl
  | cons t types ih => exact congrArg (t.layout ++ ·) ih

@[simp] theorem layout_typeFields (fields : List (Token × TypeExpr)) :
    layout (.series .typeField) fields = TypeExpr.layoutFields fields := by
  induction fields with
  | nil => rfl
  | cons f fields ih => exact congrArg (.leaf f.1 :: f.2.layout ++ ·) ih

@[simp] theorem layout_parameters (names : List Token) :
    layout (.series .parameter) names = names.map .leaf := flatMap_pure_eq_map ..

@[simp] theorem layout_expressions (es : List Expr) :
    layout (.series (.expression .inner)) es = layoutAll es := by
  induction es with
  | nil => rfl
  | cons e es ih => exact congrArg (e.layout ++ ·) ih

@[simp] theorem layout_fields (fields : List Field) :
    layout (.series .field) fields = layoutFields fields := by
  induction fields with
  | nil => rfl
  | cons f fields ih =>
    cases f with
    | mk key value => exact congrArg (.leaf key :: value.layout ++ ·) ih

@[simp] theorem layout_statements (inLoop : Bool) (body : List Stmt) :
    layout (.series (.statement inLoop)) body = layoutBody body := (layoutBody_eq_flatMap body).symm

end Category

/-- An assignment holds its target before its value. -/
theorem layout_of_assignment? {target value assigned}
    (h : Nested.assignment? target value = some assigned) :
    assigned.layout = target.layout ++ value.layout := by
  rcases Nested.assignment?_cases h with ⟨name, rfl, rfl⟩ | ⟨object, member, rfl, rfl⟩
  · rfl
  · rw [Expr.layout, Expr.layout]

/-- Separators are not held. -/
@[simp] theorem Category.isMere_separator (item : Category) :
    Mark.isMere item.separator = true := by
  cases item <;> rfl

/-- The items of a series are derived each. -/
def Category.Each : (c : Category) → c.Tree → Prop
  | .series item, trees => ∀ tree ∈ trees, ∃ before after, Derives item before tree after
  | _, _ => True

theorem Derives.each {c tree} (h : Derives c before tree after) : c.Each tree := by
  induction h with
  | none => exact forall_mem_nil _
  | further _ htree htrees =>
    exact forall_mem_append.mpr ⟨htrees, forall_mem_singleton.mpr ⟨_, _, htree⟩⟩
  | separator _ _ htrees => exact htrees
  | _ => trivial

/-- A block is no expression: its answers begin with a keyword. -/
theorem Derives.not_isShortBody {inLoop : Bool} {body : List Stmt}
    (h : Derives (.block inLoop) before body after) : isShortBody body = false := by
  cases h with
  | block _ _ hbody _ =>
    unfold isShortBody
    split
    · next keyword value =>
      obtain ⟨_, _, hanswer⟩ := hbody.each _ mem_cons_self
      cases hanswer with
      | answerNothing hkeyword | answer hkeyword => rw [hkeyword]; rfl
    · rfl

theorem Mark.isMere_of_unaryOp? {op} (h : Nested.unaryOp? k = some op) : isMere k = true := by
  rcases Nested.unaryOp?_cases h with rfl | rfl <;> rfl

theorem Mark.isMere_of_mem_ladder :
    ∀ rung ∈ Nested.ladder, ∀ entry ∈ rung, isMere entry.1 = true := by
  decide

/-- **The layout of a tree is what its words are nested to.** -/
theorem Derives.nest {c tree} (h : Derives c before tree after) :
    NestsTo before (c.layout tree) after := by
  induction h with
  | none | untyped | otherwiseNothing => exact .nothing
  | further _ _ ih ih' => simpa [Category.layout] using ih.append ih'
  | @separator item _ _ _ _ _ ht ih => exact ih.skip ht item.isMere_separator
  | named ht hname => exact NestsTo.nothing.typeName ht (if_neg hname)
  | applied ht hname hopener _ hcloser ih =>
    rw [Category.layout_types] at ih
    exact ((ih.skip hcloser rfl).inner hopener rfl).typeName ht (if_neg hname)
  | optional ht hname => exact NestsTo.nothing.typeName ht (if_pos hname)
  | maybe _ hquestion ih => exact ih.skip hquestion rfl
  | listType hopener _ hcloser ih | typed hopener _ hcloser ih =>
    exact (ih.skip hcloser rfl).inner hopener rfl
  | recordType hbrace _ hcloser ih =>
    rw [Category.layout_typeFields] at ih
    exact (ih.skip hcloser rfl).inner hbrace rfl
  | functionType hparen _ hcloser harrow _ ih ih' =>
    rw [Category.layout_types] at ih
    exact (((ih.skip hcloser rfl).skip harrow rfl).append ih').inner hparen rfl
  | groupedType hparen _ hcloser ih =>
    -- Its words are those of a series with one item.
    rw [Category.layout_types, TypeExpr.layoutAll, TypeExpr.layoutAll, append_nil] at ih
    exact (ih.skip hcloser rfl).inner hparen rfl
  | typeField hkey hcolon _ ih | field hkey hcolon _ ih => exact (ih.inner hcolon rfl).leaf hkey
  | parameter ht => exact NestsTo.nothing.leaf ht
  | parameters hopener _ _ hcloser ih =>
    rw [Category.layout_parameters] at ih
    exact (ih.skip hcloser rfl).inner hopener rfl
  | shortBody hcolon _ ih =>
    -- The colon is kept as the keyword of an answer, which is a statement of its own.
    have hparts : NestsTo (⟨_, .statement⟩ :: _) _ _ := ih.mere hcolon rfl
    simpa [Category.layout, bodyLayout, isShortBody, hcolon, layoutBody, Stmt.layout, Role.layout]
      using hparts
  | longBody hbody ih =>
    rw [Category.layout, bodyLayout, hbody.not_isShortBody]
    exact ih
  | literal hrole ht => exact .word hrole rfl (Mark.isLeaf_literal _ ht)
  | name hrole ht => exact .word hrole ht rfl
  | group hopener _ hcloser ih => exact (ih.skip hcloser rfl).mere hopener rfl
  | list hbracket _ hcloser ih =>
    rw [Category.layout_expressions] at ih
    exact (ih.skip hcloser rfl).mere hbracket rfl
  | record hbrace _ _ hcloser ih =>
    rw [Category.layout_fields] at ih
    exact (ih.skip hcloser rfl).mere hbrace rfl
  | call _ hparen _ hcloser ih ih' =>
    rw [Category.layout_expressions] at ih'
    exact (ih.skip hparen rfl).further (ih'.skip hcloser rfl)
  | getField _ hdot hname ih => exact (ih.skip hdot rfl).further (NestsTo.nothing.leaf hname)
  | getIndex _ hbracket _ hcloser ih ih' =>
    exact (ih.skip hbracket rfl).further (ih'.skip hcloser rfl)
  | unary hop _ ih => exact ih.mere rfl (Mark.isMere_of_unaryOp? hop)
  | binary hrung hop _ _ ih ih' =>
    have hmere := Mark.isMere_of_mem_ladder _ hrung _ (Nested.mem_of_lookup hop)
    exact (ih.skip rfl hmere).further ih'
  | ternary _ hquestion _ hbang _ ih ih' ih'' =>
    exact ((ih.skip hquestion rfl).further (ih'.skip hbang rfl)).further ih''
  | functionLiteral hkeyword _ _ ih ih' => exact (ih.append ih').mere hkeyword rfl
  | block hnewline hindent _ hclosing ih =>
    rw [Category.layout_statements] at ih
    exact (ih.block hindent hclosing).inner hnewline rfl
  | innerBlock hindent _ hclosing ih =>
    rw [Category.layout_statements] at ih
    exact ih.block hindent hclosing
  | expression _ hend ih => exact ih.ends hend
  | callStatement hkeyword _ _ hend ih | answer hkeyword _ hend ih =>
    exact (ih.mere hkeyword rfl).ends hend
  | assignment hkeyword _ hcolon _ hassigned hend ih ih' =>
    rw [Category.layout, Stmt.layout, layout_of_assignment? hassigned]
    exact (((ih.skip hcolon rfl).append ih').mere hkeyword rfl).ends hend
  | @declare _ _ _ _ _ type _ _ _ _ _ hkeyword hname _ hcolon _ hend ih ih' =>
    have hparts := ((ih.skip hcolon rfl).append ih').leaf hname
    cases type <;> exact (hparts.mere hkeyword rfl).ends hend
  | function hkeyword hname _ _ hend ih ih' =>
    exact (((ih.append ih').leaf hname).mere hkeyword rfl).ends hend
  | answerNothing hkeyword hend | leave hkeyword hend =>
    exact (NestsTo.nothing.mere hkeyword rfl).ends (.inr hend)
  | loop hkeyword _ _ ih ih' => exact (ih.append ih').mere hkeyword rfl
  | conditional hkeyword _ _ _ ih ih' ih'' | otherwiseBranch hkeyword _ _ _ ih ih' ih'' =>
    exact (ih.append (ih'.append ih'')).mere hkeyword rfl
  | otherwiseBody hkeyword _ ih => exact ih.mere hkeyword rfl

/-- At the top level nothing is open, so a mark that closes a block is passed over. -/
theorem DerivesProgram.nest (h : DerivesProgram before program after) (inside : List Layout) :
    nestWords [] inside before = nestWords [] (inside ++ layoutBody program) after := by
  induction h generalizing inside with
  | none =>
    rw [layoutBody, append_nil]
  | further _ hstatement ih =>
    rw [ih, hstatement.nest, append_assoc, layoutBody_eq_flatMap, layoutBody_eq_flatMap,
      flatMap_append, flatMap_singleton, Category.layout]
  | newline _ ht ih =>
    rw [ih, nestWords_inner ht rfl]
  | dedent _ ht ih =>
    rw [ih, nestWords_dedent ht]

/-- **The layout of a program is what its words are nested to.** -/
theorem nest_of_derivesProgram {words} (h : DerivesProgram words program []) :
    nestWords [] [] words = layoutBody program :=
  h.nest []

/-! ## Leaves -/

mutual

/-- The names and literals in a part of a layout. -/
def Layout.leaves : Layout → List Token
  | .leaf token => [token]
  | .statement => []
  | .block inside => leavesOf inside

/-- The names and literals in a layout. -/
def leavesOf : List Layout → List Token
  | [] => []
  | first :: later => first.leaves ++ leavesOf later

end

theorem leavesOf_append (later : List Layout) : ∀ first : List Layout,
    leavesOf (first ++ later) = leavesOf first ++ leavesOf later
  | [] => rfl
  | part :: first => by
    rw [cons_append, leavesOf, leavesOf, leavesOf_append later first, append_assoc]

@[simp] theorem leavesOf_concat (inside : List Layout) (part : Layout) :
    leavesOf (inside ++ [part]) = leavesOf inside ++ part.leaves := by
  rw [leavesOf_append, leavesOf, leavesOf, append_nil]

/-- The name or literal that is marked. -/
def Mark.leaf? : Mark → Option Token
  | leaf token => some token
  | _ => none

/-- Nesting keeps the names and literals, in their order. -/
theorem leavesOf_nest (outer : List (List Layout)) (inside : List Layout) (marks : List Mark) :
    leavesOf (nest outer inside marks)
      = outer.reverse.flatMap leavesOf ++ leavesOf inside ++ marks.filterMap Mark.leaf? := by
  fun_induction nest outer inside marks with
  | case1 outer inside =>
    induction outer generalizing inside with
    | nil => simp
    | cons found outer ih =>
      rw [foldl_cons, ih, leavesOf_concat]
      simp [Layout.leaves]
  | case2 outer inside token marks ih => simp [ih, Layout.leaves, Mark.leaf?]
  | case3 outer inside marks ih =>
    simp [ih, Layout.leaves, filterMap_cons, Mark.leaf?]
  | case4 outer inside marks ih => simp [ih, leavesOf, filterMap_cons, Mark.leaf?]
  | case5 inside marks ih => simp [ih, filterMap_cons, Mark.leaf?]
  | case6 inside marks found outer ih =>
    simp [ih, Layout.leaves, filterMap_cons, Mark.leaf?]

theorem Word.leaf?_of_not_isLeaf {w : Word} (h : Mark.isLeaf w.token.kind = false) :
    w.leaf? = none := by
  rw [leaf?, h]
  rfl

@[simp] theorem Word.filterMap_marks (w : Word) :
    w.marks.filterMap Mark.leaf? = w.leaf?.toList := by
  have hrole : w.role.marks.filterMap Mark.leaf? = [] := by
    cases w.role <;> rfl
  rw [marks, filterMap_append, hrole, nil_append]
  split
  · next hkind =>
    rw [leaf?_of_not_isLeaf (by rw [hkind]; rfl)]
    rfl
  · next hkind =>
    rw [leaf?_of_not_isLeaf (by rw [hkind]; rfl)]
    rfl
  · cases w.leaf? <;> rfl

/-- **The names and literals in the words of a program are those in its tree**, in their order. -/
theorem leaves_of_derivesProgram {words} (h : DerivesProgram (withoutSoft words) program []) :
    leavesOf (layoutBody program) = words.filterMap Word.leaf? := by
  have hsoft : ∀ w : Word, w.token.kind = .softNewline → w.leaf? = none := fun w hw =>
    Word.leaf?_of_not_isLeaf (by rw [hw]; rfl)
  calc leavesOf (layoutBody program)
    _ = ((withoutSoft words).flatMap Word.marks).filterMap Mark.leaf? := by
      rw [← nest_of_derivesProgram h, nestWords, leavesOf_nest]
      rfl
    _ = (withoutSoft words).filterMap Word.leaf? := by
      rw [filterMap_flatMap, filterMap_eq_flatMap_toList]
      exact congrArg (withoutSoft words).flatMap (funext Word.filterMap_marks)
    _ = words.filterMap Word.leaf? := by
      rw [withoutSoft, filterMap_filter]
      refine congrArg words.filterMap (funext fun w => ?_)
      by_cases hw : w.token.kind = .softNewline
      · rw [hsoft w hw, ite_self]
      · exact if_pos (by simpa using hw)

end Offside
