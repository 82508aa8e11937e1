import Mathlib.Data.List.Basic
import Offside.Proofs.Trees
import Offside.Script.Generate

/-!
# Proofs/Occurrences — where a program uses a name, and what its code makes of that

An occurrence is a place where a program uses or assigns a name, with the scopes around it: the
names that each has declared so far, and all names that it declares.  The first decide what the name
means in the program (`Occurrence.meant`); in JavaScript a declaration holds in the whole of its
block, so there the second decide (`Occurrence.emitted`).

The names in the generated module are, in order, what the occurrences of the program become
(`uses_program`).  `targets_program` reads them by the scoping of JavaScript.
-/

namespace Offside

open Script

/-- What a name leads to. -/
inductive Target where
  | builtin (name : String)
  /-- What is declared under this name in a scope with so many scopes of the program around it. -/
  | declared (depth : Nat) (name : String)
deriving DecidableEq, Repr

/-! ## Scoping in JavaScript -/

namespace Script

/-- The names that statements declare in the block they stand in. -/
def declaredIn (body : List Line) : List String :=
  body.filterMap fun
    | .declare _ name _ => some name
    | _ => none

/-- What a spelling leads to: the innermost of these blocks that declares a name spelled so. -/
def find (spelling : String) : List (List String) → Option Target
  | [] => none
  | block :: outer =>
    match block.find? (bindingName · = spelling) with
    | some name => some (.declared outer.length name)
    | none => find spelling outer

mutual

/-- What the names in an expression lead to, in order. A declaration holds in the whole of its
block, so the names that a block declares are all there from its beginning. -/
def Code.targets (blocks : List (List String)) : Code → List (Option Target)
  | .number _ | .text _ | .boolean _ | .null => []
  | .name name => [find (bindingName name) blocks]
  | .builtin name => [some (.builtin name)]
  | .primitive _ arguments => targetsAll blocks arguments
  | .call callee arguments => callee.targets blocks ++ targetsAll blocks arguments
  | .array elements => targetsAll blocks elements
  | .object properties => targetsProperties blocks properties
  | .arrow parameters body => targetsIn ((parameters ++ declaredIn body) :: blocks) body
  | .group inner => inner.targets blocks
  | .not operand => operand.targets blocks
  | .connective _ left right => left.targets blocks ++ right.targets blocks
  | .conditional test consequent alternative =>
    test.targets blocks ++ (consequent.targets blocks ++ alternative.targets blocks)
  | .assign name value => find (bindingName name) blocks :: value.targets blocks
  | .assignField object _ value => object.targets blocks ++ value.targets blocks

/-- What the names in expressions lead to. -/
def targetsAll (blocks : List (List String)) : List Code → List (Option Target)
  | [] => []
  | first :: later => first.targets blocks ++ targetsAll blocks later

/-- What the names in the properties of an object lead to. -/
def targetsProperties (blocks : List (List String)) : List Property → List (Option Target)
  | [] => []
  | .mk _ value :: later => value.targets blocks ++ targetsProperties blocks later

/-- What the names in a statement lead to. -/
def Line.targets (blocks : List (List String)) : Line → List (Option Target)
  | .expression code => code.targets blocks
  | .block body => targetsIn (declaredIn body :: blocks) body
  | .branch test body rest =>
    test.targets blocks ++ (targetsIn (declaredIn body :: blocks) body ++ rest.targets blocks)
  | .loop test body => test.targets blocks ++ targetsIn (declaredIn body :: blocks) body
  | .leave => []
  | .answer code => code.targets blocks
  | .declare _ _ code => code.targets blocks

/-- What the names in the rest of a conditional statement lead to. -/
def Alternative.targets (blocks : List (List String)) : Alternative → List (Option Target)
  | .nothing => []
  | .body body => targetsIn (declaredIn body :: blocks) body
  | .branch test body rest =>
    test.targets blocks ++ (targetsIn (declaredIn body :: blocks) body ++ rest.targets blocks)

/-- What the names in the statements of a block lead to. -/
def targetsIn (blocks : List (List String)) : List Line → List (Option Target)
  | [] => []
  | first :: later => first.targets blocks ++ targetsIn blocks later

end

end Script

/-- What the names in a module lead to, in order. -/
def Script.targets (script : Script) : List (Option Target) :=
  targetsIn [declaredIn script.body] script.body

/-! ## Names in code -/

namespace Script

/-- A place where code uses a name. -/
structure Use where
  name : String
  /-- Whether it is the name of a builtin function, which the code takes from the runtime. -/
  builtin : Bool
  /-- The names that the blocks around declare, innermost first. -/
  blocks : List (List String)
deriving DecidableEq, Repr

/-- What the name leads to. -/
def Use.target (use : Use) : Option Target :=
  if use.builtin then some (.builtin use.name) else find (bindingName use.name) use.blocks

mutual

/-- The names in an expression, in order. -/
def Code.uses (blocks : List (List String)) : Code → List Use
  | .number _ | .text _ | .boolean _ | .null => []
  | .name name => [⟨name, false, blocks⟩]
  | .builtin name => [⟨name, true, blocks⟩]
  | .primitive _ arguments => usesAll blocks arguments
  | .call callee arguments => callee.uses blocks ++ usesAll blocks arguments
  | .array elements => usesAll blocks elements
  | .object properties => usesProperties blocks properties
  | .arrow parameters body => usesIn ((parameters ++ declaredIn body) :: blocks) body
  | .group inner => inner.uses blocks
  | .not operand => operand.uses blocks
  | .connective _ left right => left.uses blocks ++ right.uses blocks
  | .conditional test consequent alternative =>
    test.uses blocks ++ (consequent.uses blocks ++ alternative.uses blocks)
  | .assign name value => ⟨name, false, blocks⟩ :: value.uses blocks
  | .assignField object _ value => object.uses blocks ++ value.uses blocks

/-- The names in expressions. -/
def usesAll (blocks : List (List String)) : List Code → List Use
  | [] => []
  | first :: later => first.uses blocks ++ usesAll blocks later

/-- The names in the properties of an object. -/
def usesProperties (blocks : List (List String)) : List Property → List Use
  | [] => []
  | .mk _ value :: later => value.uses blocks ++ usesProperties blocks later

/-- The names in a statement. -/
def Line.uses (blocks : List (List String)) : Line → List Use
  | .expression code => code.uses blocks
  | .block body => usesIn (declaredIn body :: blocks) body
  | .branch test body rest =>
    test.uses blocks ++ (usesIn (declaredIn body :: blocks) body ++ rest.uses blocks)
  | .loop test body => test.uses blocks ++ usesIn (declaredIn body :: blocks) body
  | .leave => []
  | .answer code => code.uses blocks
  | .declare _ _ code => code.uses blocks

/-- The names in the rest of a conditional statement. -/
def Alternative.uses (blocks : List (List String)) : Alternative → List Use
  | .nothing => []
  | .body body => usesIn (declaredIn body :: blocks) body
  | .branch test body rest =>
    test.uses blocks ++ (usesIn (declaredIn body :: blocks) body ++ rest.uses blocks)

/-- The names in the statements of a block. -/
def usesIn (blocks : List (List String)) : List Line → List Use
  | [] => []
  | first :: later => first.uses blocks ++ usesIn blocks later

end

end Script

/-- The names in a module, in order. -/
def Script.uses (script : Script) : List Use := usesIn [declaredIn script.body] script.body

/-! ## Scoping in a program -/

/-- A scope around a place in a program. -/
structure Block where
  /-- The names that it has declared so far, newest first. -/
  before : List String
  /-- All names that it declares. -/
  all : List String
deriving Repr

/-- The names that statements declare in the scope they stand in. -/
def declaredNames (body : List Stmt) : List String :=
  body.filterMap fun statement => statement.declared?.map (·.1.lexeme)

namespace Block

/-- The scope of a body, before its first statement. -/
def entering (parameters : List Token) (body : List Stmt) : Block :=
  ⟨parameters.map (·.lexeme), parameters.map (·.lexeme) ++ declaredNames body⟩

/-- The scopes once the innermost one has declared a name. -/
def declare (name : String) : List Block → List Block
  | [] => []
  | block :: outer => { block with before := name :: block.before } :: outer

/-- The scopes behind a statement. -/
def behind (statement : Stmt) (blocks : List Block) : List Block :=
  match statement.declared? with
  | some (name, _) => declare name.lexeme blocks
  | none => blocks

/-- The names declared so far. -/
def visible (blocks : List Block) : List String := blocks.flatMap before

end Block

/-- A place where a program uses a name. -/
structure Occurrence where
  name : String
  /-- Whether the name is assigned to. -/
  assigned : Bool
  /-- The scopes around, innermost first. -/
  blocks : List Block
deriving Repr

open Block (entering declare behind) in
mutual

/-- The occurrences of names in an expression, in order. -/
def Expr.occurrences (blocks : List Block) : Expr → List Occurrence
  | .ternary _ test consequent alternative =>
    test.occurrences blocks ++ (consequent.occurrences blocks ++ alternative.occurrences blocks)
  | .binary _ _ left right => left.occurrences blocks ++ right.occurrences blocks
  | .group inner => inner.occurrences blocks
  | .literal _ _ => []
  | .unary _ _ operand => operand.occurrences blocks
  | .name token => [⟨token.lexeme, false, blocks⟩]
  | .assign target value => ⟨target.lexeme, true, blocks⟩ :: value.occurrences blocks
  | .call _ callee arguments => callee.occurrences blocks ++ occurrencesAll blocks arguments
  | .get object member => object.occurrences blocks ++ member.occurrences blocks
  | .set object member value =>
    object.occurrences blocks ++ (member.occurrences blocks ++ value.occurrences blocks)
  | .list _ elements => occurrencesAll blocks elements
  | .record _ fields => occurrencesFields blocks fields
  | .function _ parameters body => occurrencesIn (entering parameters body :: blocks) body

/-- The occurrences of names in a member access. -/
def Member.occurrences (blocks : List Block) : Member → List Occurrence
  | .field _ => []
  | .index _ index => index.occurrences blocks

/-- The occurrences of names in expressions. -/
def occurrencesAll (blocks : List Block) : List Expr → List Occurrence
  | [] => []
  | first :: later => first.occurrences blocks ++ occurrencesAll blocks later

/-- The occurrences of names in the fields of a record. -/
def occurrencesFields (blocks : List Block) : List Field → List Occurrence
  | [] => []
  | .mk _ value :: later => value.occurrences blocks ++ occurrencesFields blocks later

/-- The occurrences of names in a statement. -/
def Stmt.occurrences (blocks : List Block) : Stmt → List Occurrence
  | .expression value => value.occurrences blocks
  | .block body => occurrencesIn (entering [] body :: blocks) body
  | .branch _ test body rest =>
    test.occurrences blocks ++
      (occurrencesIn (entering [] body :: blocks) body ++ rest.occurrences blocks)
  | .loop _ test body =>
    test.occurrences blocks ++ occurrencesIn (entering [] body :: blocks) body
  | .leave _ => []
  | .function name _ parameters body =>
    occurrencesIn (entering parameters body :: declare name.lexeme blocks) body
  | .answer _ none => []
  | .answer _ (some value) => value.occurrences blocks
  | .declare _ _ _ value => value.occurrences blocks

/-- The occurrences of names in what a conditional statement does where its condition fails. -/
def Otherwise.occurrences (blocks : List Block) : Otherwise → List Occurrence
  | .nothing => []
  | .body body => occurrencesIn (entering [] body :: blocks) body
  | .branch _ test body rest =>
    test.occurrences blocks ++
      (occurrencesIn (entering [] body :: blocks) body ++ rest.occurrences blocks)

/-- The occurrences of names in the statements of a scope. -/
def occurrencesIn (blocks : List Block) : List Stmt → List Occurrence
  | [] => []
  | first :: later => first.occurrences blocks ++ occurrencesIn (behind first blocks) later

end

/-- The occurrences of names in a program. -/
def occurrences (program : List Stmt) : List Occurrence :=
  occurrencesIn [.entering [] program] program

namespace Occurrence

/-- What a name leads to among scopes of which these names are declared, with the builtin functions
around all of them. -/
def among (name : String) : List (List String) → Option Target
  | [] => if (Builtin.find? name).isSome then some (.builtin name) else none
  | names :: outer => if name ∈ names then some (.declared outer.length name) else among name outer

/-- What the program means by the name: the innermost scope that has declared it so far. -/
def meant (o : Occurrence) : Option Target := among o.name (o.blocks.map (·.before))

/-- What the name becomes in the code of the program. -/
def use (o : Occurrence) : Use :=
  ⟨o.name, !o.assigned && isBuiltin (Block.visible o.blocks) o.name, o.blocks.map (·.all)⟩

/-- What the code of the program makes of the name. -/
def emitted (o : Occurrence) : Option Target :=
  if !o.assigned && isBuiltin (Block.visible o.blocks) o.name then some (.builtin o.name)
  else find (bindingName o.name) (o.blocks.map (·.all))

end Occurrence

namespace Block

/-- Behind a statement the names that it declares are visible. -/
theorem visible_behind (statement : Stmt) (block : Block) (outer : List Block) :
    visible (behind statement (block :: outer))
      = declaring statement (visible (block :: outer)) := by
  unfold behind declaring
  cases statement.declared? <;> rfl

theorem behind_cons (statement : Stmt) (block : Block) (outer : List Block) :
    ∃ block', behind statement (block :: outer) = block' :: outer := by
  unfold behind
  split <;> exact ⟨_, rfl⟩

@[simp] theorem map_all_declare (name : String) : ∀ blocks : List Block,
    (declare name blocks).map (·.all) = blocks.map (·.all)
  | [] => rfl
  | _ :: _ => rfl

@[simp] theorem map_all_behind (statement : Stmt) (blocks : List Block) :
    (behind statement blocks).map (·.all) = blocks.map (·.all) := by
  unfold behind
  split
  · exact map_all_declare _ blocks
  · rfl

end Block

/-! ## The names of the code -/

namespace Script

open Occurrence (use)

/-- A list comes of another, item by item. -/
def ComesOf {α β : Type} (f : α → β) (bs : List β) (as : List α) : Prop := bs = as.map f

theorem ComesOf.append {α β : Type} {f : α → β} {bs bs' : List β} {as as' : List α}
    (h : ComesOf f bs as) (h' : ComesOf f bs' as') : ComesOf f (bs ++ bs') (as ++ as') := by
  rw [ComesOf, List.map_append, ← h, ← h']

variable {names : List String} {blocks : List Block} {found : List Occurrence}

theorem uses_tested {code outer} (e : Expr) (h : ComesOf use (code.uses outer) found) :
    ComesOf use ((tested names e code).uses outer) found := by
  unfold tested
  split
  · exact h
  · rwa [Code.uses, usesAll, usesAll, List.append_nil]

theorem uses_reference (name : String) : ComesOf use
    ((reference (Block.visible blocks) name).uses (blocks.map (·.all)))
      [⟨name, false, blocks⟩] := by
  rw [ComesOf, List.map_singleton, use]
  unfold reference
  split
  · next h => rw [Code.uses, h]; rfl
  · next h => rw [Code.uses, Bool.eq_false_iff.mpr h]; rfl

/-- The code of a body declares the names that the body declares. -/
@[simp] theorem declaredIn_generateBody (body : List Stmt) (names : List String) :
    declaredIn (generateBody names body) = declaredNames body := by
  induction body generalizing names with
  | nil => rfl
  | cons first later ih =>
    have hlater := ih (declaring first names)
    rw [generateBody, declaredNames, declaredIn] at *
    cases first with
    | answer keyword value => cases value <;> simpa [Stmt.generate, Stmt.declared?] using hlater
    | _ => simpa [Stmt.generate, Stmt.declared?] using hlater

section

variable {parameters : List Token} {body : List Stmt}

/-- A block declares what the statements in it declare. -/
theorem uses_block (h : ComesOf use (usesIn ((Block.entering [] body :: blocks).map (·.all))
      (generateBody names body)) found) :
    ComesOf use (usesIn (declaredIn (generateBody names body) :: blocks.map (·.all))
      (generateBody names body)) found := by
  rwa [declaredIn_generateBody]

theorem uses_function (h : ComesOf use (usesIn
      ((Block.entering parameters body :: blocks).map (·.all)) (generateBody names body)) found) :
    ComesOf use ((function parameters (generateBody names body)).uses (blocks.map (·.all)))
      found := by
  rwa [function, Code.uses, usesAll, usesAll, List.append_nil, Code.uses, declaredIn_generateBody]

end

/-- **The names in the code of a tree are those that its occurrences become.** -/
theorem uses_generate : Claim.Passes ⟨
    fun e => ∀ blocks, ComesOf use ((e.generate (Block.visible blocks)).uses (blocks.map (·.all)))
      (e.occurrences blocks),
    Claim.OfIndex fun e => ∀ blocks, ComesOf use ((e.generate (Block.visible blocks)).uses
      (blocks.map (·.all))) (e.occurrences blocks),
    fun es => ∀ blocks, ComesOf use (usesAll (blocks.map (·.all))
      (generateAll (Block.visible blocks) es)) (occurrencesAll blocks es),
    fun fields => ∀ blocks, ComesOf use (usesProperties (blocks.map (·.all))
      (generateFields (Block.visible blocks) fields)) (occurrencesFields blocks fields),
    fun st => ∀ block outer, ComesOf use ((st.generate (Block.visible (block :: outer))).uses
      ((block :: outer).map (·.all))) (st.occurrences (block :: outer)),
    fun rest => ∀ blocks, ComesOf use ((rest.generate (Block.visible blocks)).uses
      (blocks.map (·.all))) (rest.occurrences blocks),
    fun body => ∀ block outer, ComesOf use (usesIn ((block :: outer).map (·.all))
      (generateBody (Block.visible (block :: outer)) body))
        (occurrencesIn (block :: outer) body)⟩ where
  ternary {_ test _ _} htest hconsequent halternative _ :=
    .append (uses_tested test (htest _)) (.append (hconsequent _) (halternative _))
  binary {op _ left right} hleft hright blocks := by
    rw [Expr.generate]
    cases connective? op with
    | some _ => exact .append (uses_tested left (hleft _)) (uses_tested right (hright _))
    | none => exact .append (hleft _) ((List.append_nil _).trans (hright _))
  literal {_ value} _ := by cases value <;> rfl
  unary {op _ operand} hoperand blocks := by
    cases op with
    | negate => exact (List.append_nil _).trans (hoperand _)
    | not => exact uses_tested operand (hoperand _)
  name {token} _ := uses_reference token.lexeme
  assign hvalue _ := congrArg (_ :: ·) (hvalue _)
  call hcallee hgiven _ := .append (hcallee _) (hgiven _)
  get {_ member} hobject hmember blocks := by
    cases member with
    | field _ => exact .append (hobject _) rfl
    | index _ _ => exact .append (hobject _) ((List.append_nil _).trans (hmember _))
  set {_ member _} hobject hmember hvalue blocks := by
    cases member with
    | field _ => exact .append (hobject _) (hvalue _)
    | index _ _ =>
      exact .append (hobject _) (.append (hmember _) ((List.append_nil _).trans (hvalue _)))
  lambda hbody _ := uses_function (hbody _ _)
  nilExprs _ := rfl
  consExprs hfirst hlater _ := .append (hfirst _) (hlater _)
  nilFields _ := rfl
  consFields hvalue hlater _ := .append (hvalue _) (hlater _)
  expression hvalue _ _ := hvalue _
  block hbody _ _ := uses_block (hbody _ _)
  branch {_ test _ _} htest hbody hrest _ _ :=
    .append (uses_tested test (htest _)) (.append (uses_block (hbody _ _)) (hrest _))
  loop {_ test _} htest hbody _ _ := .append (uses_tested test (htest _)) (uses_block (hbody _ _))
  leave _ _ := rfl
  function {name _ _ _} hbody block outer :=
    uses_function (hbody _ (Block.declare name.lexeme (block :: outer)))
  bareAnswer _ _ := rfl
  answer hvalue _ _ := hvalue _
  declare hvalue _ _ := hvalue _
  nothing _ := rfl
  otherwise hbody _ := uses_block (hbody _ _)
  elseIf {_ test _ _} htest hbody hrest _ :=
    .append (uses_tested test (htest _)) (.append (uses_block (hbody _ _)) (hrest _))
  nilBody _ _ := rfl
  consBody {first _} hfirst hlater block outer := by
    obtain ⟨block', hbehind⟩ := Block.behind_cons first block outer
    have hlater := hlater block' outer
    rw [← hbehind, Block.visible_behind, Block.map_all_behind] at hlater
    exact .append (hfirst _ _) hlater

mutual

/-- What the names in code lead to is what its uses lead to. -/
theorem targets_code : ∀ (code : Code) (blocks : List (List String)),
    ComesOf Use.target (code.targets blocks) (code.uses blocks)
  | .number _, _ | .text _, _ | .boolean _, _ | .null, _ | .name _, _ | .builtin _, _ => rfl
  | .primitive _ codes, _ | .array codes, _ => targets_codes codes _
  | .call callee arguments, _ => .append (targets_code callee _) (targets_codes arguments _)
  | .object properties, _ => targets_properties properties _
  | .arrow _ body, _ => targets_lines body _
  | .group inner, _ | .not inner, _ => targets_code inner _
  | .connective _ left right, _ | .assignField left _ right, _ =>
    .append (targets_code left _) (targets_code right _)
  | .conditional test consequent alternative, _ =>
    .append (targets_code test _) (.append (targets_code consequent _) (targets_code alternative _))
  | .assign _ value, _ => congrArg (_ :: ·) (targets_code value _)

theorem targets_codes : ∀ (codes : List Code) (blocks : List (List String)),
    ComesOf Use.target (targetsAll blocks codes) (usesAll blocks codes)
  | [], _ => rfl
  | first :: later, _ => .append (targets_code first _) (targets_codes later _)

theorem targets_properties : ∀ (properties : List Property) (blocks : List (List String)),
    ComesOf Use.target (targetsProperties blocks properties) (usesProperties blocks properties)
  | [], _ => rfl
  | .mk _ value :: later, _ => .append (targets_code value _) (targets_properties later _)

theorem targets_line : ∀ (line : Line) (blocks : List (List String)),
    ComesOf Use.target (line.targets blocks) (line.uses blocks)
  | .expression code, _ | .answer code, _ | .declare _ _ code, _ => targets_code code _
  | .block body, _ => targets_lines body _
  | .branch test body rest, _ =>
    .append (targets_code test _) (.append (targets_lines body _) (targets_alternative rest _))
  | .loop test body, _ => .append (targets_code test _) (targets_lines body _)
  | .leave, _ => rfl

theorem targets_alternative : ∀ (rest : Alternative) (blocks : List (List String)),
    ComesOf Use.target (rest.targets blocks) (rest.uses blocks)
  | .nothing, _ => rfl
  | .body body, _ => targets_lines body _
  | .branch test body rest, _ =>
    .append (targets_code test _) (.append (targets_lines body _) (targets_alternative rest _))

theorem targets_lines : ∀ (body : List Line) (blocks : List (List String)),
    ComesOf Use.target (targetsIn blocks body) (usesIn blocks body)
  | [], _ => rfl
  | first :: later, _ => .append (targets_line first _) (targets_lines later _)

end

end Script

/-- **The names in a generated module are those that the occurrences of the program become.** -/
theorem uses_program (runtime : String) (program : List Stmt) :
    (ofProgram runtime program).uses = (occurrences program).map Occurrence.use := by
  rw [uses, ofProgram, declaredIn_generateBody, occurrences, ← uses_generate.body program]
  rfl

/-- **The names of a generated module lead to what the occurrences of the program emit.** -/
theorem targets_program (runtime : String) (program : List Stmt) :
    (ofProgram runtime program).targets = (occurrences program).map Occurrence.emitted := by
  rw [targets, targets_lines, ← uses, uses_program, List.map_map]
  rfl

end Offside
