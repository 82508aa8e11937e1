import Offside.Proofs.Names
import Offside.Proofs.Spelling
import Offside.Proofs.Trees
import Offside.Script.Generate
import Offside.Script.Render

/-!
# Proofs/Numbers — the numbers of a program, from its text to its code

The numbers of a tree are those in its layout (`numbered`), and generating keeps them in
the code (`numbers_generate`): each of them once, and in their order.  For a program that is
read from a text they are its tokens for numbers (`numbers_of_program?`).
-/

namespace Offside

open List Token

/-- The digits of a literal, if it is a number. -/
def Token.Literal.digits? : Literal → Option String
  | .number digits => some digits
  | _ => none

/-! ## The numbers in a tree -/

mutual

/-- The numbers in an expression, in order. -/
def Expr.numbers : Expr → List String
  | .ternary _ condition consequent alternative =>
    condition.numbers ++ consequent.numbers ++ alternative.numbers
  | .binary _ _ left right => left.numbers ++ right.numbers
  | .group inner => inner.numbers
  | .literal _ value => value.digits?.toList
  | .unary _ _ operand => operand.numbers
  | .name _ => []
  | .assign _ value => value.numbers
  | .call _ callee arguments => callee.numbers ++ numbersAll arguments
  | .get object member => object.numbers ++ member.numbers
  | .set object member value => object.numbers ++ member.numbers ++ value.numbers
  | .list _ elements => numbersAll elements
  | .record _ fields => numbersFields fields
  | .function _ _ body => numbersBody body

/-- The numbers in a member access. -/
def Member.numbers : Member → List String
  | .field _ => []
  | .index _ index => index.numbers

/-- The numbers in expressions. -/
def numbersAll : List Expr → List String
  | [] => []
  | first :: later => first.numbers ++ numbersAll later

/-- The numbers in the fields of a record. -/
def numbersFields : List Field → List String
  | [] => []
  | .mk _ value :: later => value.numbers ++ numbersFields later

/-- The numbers in a statement. -/
def Stmt.numbers : Stmt → List String
  | .expression value => value.numbers
  | .block body => numbersBody body
  | .branch _ condition body rest => condition.numbers ++ numbersBody body ++ rest.numbers
  | .loop _ condition body => condition.numbers ++ numbersBody body
  | .leave _ => []
  | .function _ _ _ body => numbersBody body
  | .answer _ none => []
  | .answer _ (some value) => value.numbers
  | .declare _ _ _ value => value.numbers

/-- The numbers in what a conditional statement does where its condition fails. -/
def Otherwise.numbers : Otherwise → List String
  | .nothing => []
  | .body body => numbersBody body
  | .branch _ condition body rest => condition.numbers ++ numbersBody body ++ rest.numbers

/-- The numbers in statements. -/
def numbersBody : List Stmt → List String
  | [] => []
  | first :: later => first.numbers ++ numbersBody later

end

/-! ## The numbers in code -/

section

open Script

variable {code other : Code} {numbers more : List String}

theorem numbers_append {first later} (h : first = numbers) (h' : later = more) :
    first ++ later = numbers ++ more := congrArg₂ (· ++ ·) h h'

theorem numbers_only (h : code.numbers = numbers) : numbersOfAll [code] = numbers :=
  (append_nil _).trans h

theorem numbers_pair (h : code.numbers = numbers) (h' : other.numbers = more) :
    numbersOfAll [code, other] = numbers ++ more := numbers_append h (numbers_only h')

theorem numbers_tested {names e} (h : code.numbers = numbers) :
    (tested names e code).numbers = numbers := by
  unfold tested
  split
  · exact h
  · exact numbers_only h

theorem numbers_function {parameters body} (h : numbersOfBody body = numbers) :
    (function parameters body).numbers = numbers :=
  (append_nil _).trans h

@[simp] theorem numbers_reference (names : List String) (name : String) :
    (reference names name).numbers = [] := by
  unfold reference
  split <;> rfl

/-- **Code has the numbers of the tree that it is generated from**, in their order. -/
theorem numbers_generate : Claim.Passes ⟨fun e => ∀ names, (e.generate names).numbers = e.numbers,
    Claim.OfIndex fun e => ∀ names, (e.generate names).numbers = e.numbers,
    fun es => ∀ names, numbersOfAll (generateAll names es) = numbersAll es,
    fun fields => ∀ names, numbersOfProperties (generateFields names fields) = numbersFields fields,
    fun st => ∀ names, (st.generate names).numbers = st.numbers,
    fun rest => ∀ names, (rest.generate names).numbers = rest.numbers,
    fun body => ∀ names, numbersOfBody (generateBody names body) = numbersBody body⟩ where
  ternary htest hconsequent halternative names :=
    numbers_append (numbers_append (numbers_tested (htest names)) (hconsequent names))
      (halternative names)
  binary {op _ _ _} hleft hright names := by
    rw [Expr.generate]
    cases connective? op with
    | some connective =>
      exact numbers_append (numbers_tested (hleft names)) (numbers_tested (hright names))
    | none => exact numbers_pair (hleft names) (hright names)
  literal {_ value} _ := by cases value <;> rfl
  unary {op _ _} hoperand names := by
    cases op with
    | negate => exact numbers_only (hoperand names)
    | not => exact numbers_tested (hoperand names)
  name {token} names := numbers_reference names token.lexeme
  call hcallee hgiven names := numbers_append (hcallee names) (hgiven names)
  get {_ member} hobject hmember names := by
    cases member with
    | field _ => exact numbers_pair (hobject names) rfl
    | index _ _ => exact numbers_pair (hobject names) (hmember names)
  set {_ member _} hobject hmember hvalue names := by
    cases member with
    | field _ =>
      exact numbers_append ((hobject names).trans (append_nil _).symm) (hvalue names)
    | index _ _ =>
      have hpair := numbers_pair (hmember names) (hvalue names)
      exact (numbers_append (hobject names) hpair).trans (append_assoc ..).symm
  lambda hbody _ := numbers_function (hbody _)
  nilExprs _ := rfl
  consExprs hfirst hlater names := numbers_append (hfirst names) (hlater names)
  nilFields _ := rfl
  consFields hvalue hlater names := numbers_append (hvalue names) (hlater names)
  branch htest hbody hrest names :=
    numbers_append (numbers_append (numbers_tested (htest names)) (hbody names)) (hrest names)
  loop htest hbody names := numbers_append (numbers_tested (htest names)) (hbody names)
  leave _ := rfl
  function hbody _ := numbers_function (hbody _)
  bareAnswer _ := rfl
  declare hvalue := hvalue
  nothing _ := rfl
  elseIf htest hbody hrest names :=
    numbers_append (numbers_append (numbers_tested (htest names)) (hbody names)) (hrest names)
  nilBody _ := rfl
  consBody hfirst hlater names := numbers_append (hfirst names) (hlater _)

end

/-! ## The numbers among words -/

/-- The digits of a token, if it is read as a number. -/
def Token.digits? (t : Token) : Option String :=
  if t.kind ∈ literalKinds then (t.literal.getD .null).digits? else none

theorem Token.digits?_of_kind {t : Token} {k : Kind} (ht : t.kind = k)
    (hk : k ∉ literalKinds) : t.digits? = none := if_neg (ht ▸ hk)

/-- A layout with these numbers in it, in order. -/
def Numbered (layout : List Layout) (numbers : List String) : Prop :=
  (leavesOf layout).filterMap digits? = numbers

namespace Numbered

variable {layout first inside later : List Layout} {numbers more rest : List String}

theorem nothing : Numbered [] [] := rfl

theorem leaf (t : Token) : Numbered [.leaf t] t.digits?.toList := by
  rw [Numbered, leavesOf, Layout.leaves, leavesOf, append_nil]
  cases h : t.digits? <;> simp [h]

theorem append (h : Numbered first numbers) (h' : Numbered later more) :
    Numbered (first ++ later) (numbers ++ more) := by
  rw [Numbered, leavesOf_append, filterMap_append]
  exact congrArg₂ (· ++ ·) h h'

/-- A name in front. -/
theorem name {t} (h : Numbered layout numbers) (ht : t.digits? = none) :
    Numbered (.leaf t :: layout) numbers := by
  have hleaf := (leaf t).append h
  rwa [ht] at hleaf

/-- Behind a block there is the same as behind what it holds. -/
theorem block (h : Numbered first numbers) (hinside : Numbered inside more)
    (hlater : Numbered later rest) :
    Numbered (first ++ .block inside :: later) (numbers ++ more ++ rest) := by
  rw [append_assoc]
  refine h.append ?_
  rw [Numbered, leavesOf, Layout.leaves, filterMap_append]
  exact congrArg₂ (· ++ ·) hinside hlater

theorem lastBlock (h : Numbered first numbers) (hinside : Numbered inside more) :
    Numbered (first ++ [.block inside]) (numbers ++ more) :=
  append_nil (numbers ++ more) ▸ h.block hinside .nothing

theorem body (h : Numbered inside numbers) (body : List Stmt) :
    Numbered (bodyLayout body inside) numbers := by
  unfold bodyLayout
  split
  · exact h
  · exact nothing.lastBlock h

end Numbered

/-- Literals are those of their tokens, and no name is a number. -/
def copied : Asked where
  name t := t.digits? = none
  literal t value := t.digits? = value.digits?
  typeName t := t.digits? = none

theorem holds_parameters {parameters : List Token} (h : ∀ t ∈ parameters, t.digits? = none) :
    Numbered (parameters.map .leaf) [] := by
  induction parameters with
  | nil => rfl
  | cons t later ih =>
    obtain ⟨ht, hlater⟩ := forall_mem_cons.mp h
    exact (ih hlater).name ht

mutual

theorem TypeExpr.holds : ∀ type : TypeExpr, type.Names copied → Numbered type.layout []
  | .named _ arguments, h => (holds_types arguments h.2).name h.1
  | .list _ element, h => element.holds h
  | .record _ fields, h => holds_typeFields fields h
  | .function _ parameters result, h => (holds_types parameters h.1).append (result.holds h.2)
  | .maybe inner, h => inner.holds h

theorem holds_types : ∀ types : List TypeExpr, NamesTypes copied types →
    Numbered (TypeExpr.layoutAll types) []
  | [], _ => rfl
  | first :: later, h => (first.holds h.1).append (holds_types later h.2)

theorem holds_typeFields : ∀ fields : List (Token × TypeExpr), NamesTypeFields copied fields →
    Numbered (TypeExpr.layoutFields fields) []
  | [], _ => rfl
  | (_, type) :: later, h => ((type.holds h.1.2).append (holds_typeFields later h.2)).name h.1.1

end

/-- **The numbers in a tree are those in its layout.** -/
theorem numbered : Claim.Passes ⟨fun e => e.Names copied → Numbered e.layout e.numbers,
    fun m => m.Names copied → Numbered m.layout m.numbers,
    fun es => NamesAll copied es → Numbered (layoutAll es) (numbersAll es),
    fun fields => NamesFields copied fields → Numbered (layoutFields fields) (numbersFields fields),
    fun st => st.Names copied → Numbered st.layout st.numbers,
    fun rest => rest.Names copied → Numbered rest.layout rest.numbers,
    fun body => NamesBody copied body → Numbered (layoutBody body) (numbersBody body)⟩ where
  ternary htest hconsequent halternative h :=
    ((htest h.1).append (hconsequent h.2.1)).append (halternative h.2.2)
  binary hleft hright h := (hleft h.1).append (hright h.2)
  literal {t _} h := by
    have hleaf := Numbered.leaf t
    rwa [show t.digits? = _ from h] at hleaf
  name h := Numbered.nothing.name h
  assign hvalue h := (hvalue h.2).name h.1
  call hcallee hgiven h := (hcallee h.1).append (hgiven h.2)
  get hobject hmember h := (hobject h.1).append (hmember h.2)
  set hobject hmember hvalue h := ((hobject h.1).append (hmember h.2.1)).append (hvalue h.2.2)
  lambda {_ _ body} hbody h := (holds_parameters h.1).append ((hbody h.2).body body)
  field h := Numbered.nothing.name h
  nilExprs _ := rfl
  consExprs hfirst hlater h := (hfirst h.1).append (hlater h.2)
  nilFields _ := rfl
  consFields hvalue hlater h := ((hvalue h.1.2).append (hlater h.2)).name h.1.1
  block hbody h := Numbered.nothing.lastBlock (hbody h)
  branch htest hbody hrest h := (htest h.1).block (hbody h.2.1) (hrest h.2.2)
  loop htest hbody h := (htest h.1).lastBlock (hbody h.2)
  leave _ := rfl
  function {_ _ _ body} hbody h :=
    ((holds_parameters h.2.1).append ((hbody h.2.2).body body)).name h.1
  bareAnswer _ := rfl
  declare {_ _ type _} hvalue h := by
    cases type with
    | none => exact (hvalue h.2.2).name h.1
    | some type => exact ((type.holds (h.2.1 type rfl)).append (hvalue h.2.2)).name h.1
  nothing _ := rfl
  otherwise hbody h := Numbered.nothing.lastBlock (hbody h)
  elseIf htest hbody hrest h := (htest h.1).block (hbody h.2.1) (hrest h.2.2)
  nilBody _ := rfl
  consBody hfirst hlater h := (hfirst h.1).append (hlater h.2)

/-! ## The numbers of a text -/

/-- A word is a number as its token is. -/
theorem Word.digits?_of_leaf? (w : Word) : w.leaf?.bind digits? = w.token.digits? := by
  have hdigits : w.token.unquestioned.digits? = w.token.digits? := by
    unfold unquestioned
    split <;> rfl
  unfold leaf?
  split
  · rw [Option.bind_some]
    split
    · exact hdigits
    · rfl
  · next hleaf =>
    have hkind : w.token.kind ∉ literalKinds := fun hk => hleaf (Mark.isLeaf_literal _ hk)
    exact (if_neg hkind).symm

/-- A name that is spelled anew is no number, before or after. -/
theorem Respelled.numbers_eq {tokens words} (h : Respelled tokens words) :
    words.filterMap (·.token.digits?) = tokens.filterMap digits? := by
  have hkeyword (k lexeme literal position) :
      digits? ⟨.keyword k, lexeme, literal, position⟩ = none :=
    digits?_of_kind rfl (by simp [literalKinds])
  have hname (lexeme literal position) : digits? ⟨.identifier, lexeme, literal, position⟩ = none :=
    digits?_of_kind (k := .identifier) rfl (by decide)
  induction h with
  | nil => rfl
  | same _ ih => rw [filterMap_cons, filterMap_cons, ih]
  | keyword _ ht _ _ ih =>
    have hsplit := digits?_of_kind ht (by decide)
    simp only [filterMap_cons, hsplit, hkeyword, ih]
  | split _ _ ht _ _ _ ih =>
    have hsplit := digits?_of_kind ht (by decide)
    simp only [filterMap_cons, hsplit, hkeyword, hname, ih]

namespace Token

theorem symbol?_ne_number (c : Char) : Cut.symbol? c ≠ some .number := by
  unfold Cut.symbol?
  split <;> simp

theorem pair?_ne_number (c d : Char) : Cut.pair? c d ≠ some .number := by
  unfold Cut.pair?
  split <;> simp

theorem reserved?_cases {word kind literal} (h : reserved? word = some (kind, literal)) :
    kind ≠ .number ∧ (literal.getD .null).digits? = none := by
  unfold reserved? at h
  repeat' split at h
  all_goals cases h <;> simp [Literal.digits?]

theorem digits?_of_yields {kind lexeme literal} (h : Cut.Yields kind lexeme literal)
    (position : Position) :
    digits? ⟨kind, String.ofList lexeme, literal, position⟩
      = if kind = .number then some (String.ofList lexeme) else none := by
  cases h with
  | text | number => rfl
  | symbol hsymbol =>
    rw [if_neg fun hk => symbol?_ne_number _ (hk ▸ hsymbol)]
    exact ite_self _
  | pair hpair =>
    rw [if_neg fun hk => pair?_ne_number _ _ (hk ▸ hpair)]
    exact ite_self _
  | reserved hreserved =>
    obtain ⟨hkind, hliteral⟩ := reserved?_cases hreserved
    rw [if_neg hkind, digits?, hliteral]
    exact ite_self _
  | name => rfl

/-- The numbers among the tokens of a text are told by their kind, and their digits are their
text. -/
theorem digits?_of_mem_scan (text : List Char) : ∀ t ∈ (scan text).tokens,
    t.digits? = if t.kind = .number then some t.lexeme else none := by
  refine forall_mem_scan ?_ ?_ text
  · intro kind hkind lexeme position
    have hnumber : kind ≠ .number := by
      rintro rfl
      exact absurd hkind (by decide)
    rw [if_neg hnumber]
    exact ite_self _
  · intro c text kind lexeme literal position hpiece
    exact digits?_of_yields (yields_of_cut hpiece) position

/-- A text of digits, points, exponents and signs. -/
def IsNumber (digits : String) : Prop := ∀ c ∈ digits.toList, Cut.isNumberChar c = true

theorem isNumber_of_mem_scan (text : List Char) : ∀ t ∈ (scan text).tokens,
    t.kind = .number → IsNumber t.lexeme := by
  refine forall_lexeme_of_mem_scan (P := fun lexeme => ∀ c ∈ lexeme, Cut.isNumberChar c = true)
    (by decide) (fun hpiece => ?_) text
  cases yields_of_cut hpiece with
  | number hchars => exact hchars
  | symbol hsymbol => exact absurd hsymbol (symbol?_ne_number _)
  | pair hpair => exact absurd hpair (pair?_ne_number _ _)
  | reserved hreserved => exact absurd rfl (reserved?_cases hreserved).1

/-- The digits of the numbers among tokens, in order. -/
def numbersAmong (tokens : List Token) : List String :=
  (tokens.filter (·.kind = .number)).map (·.lexeme)

theorem isNumber_of_mem_numbersAmong (text : List Char) :
    ∀ digits ∈ numbersAmong (scan text).tokens, IsNumber digits := by
  intro digits hdigits
  obtain ⟨t, ht, rfl⟩ := mem_map.mp hdigits
  obtain ⟨hmem, hkind⟩ := mem_filter.mp ht
  exact isNumber_of_mem_scan text t hmem (of_decide_eq_true hkind)

theorem filterMap_digits?_eq {tokens}
    (h : ∀ t ∈ tokens, t.digits? = if t.kind = .number then some t.lexeme else none) :
    tokens.filterMap digits? = numbersAmong tokens := by
  rw [numbersAmong, ← filterMap_eq_map, filterMap_filter]
  refine filterMap_congr fun t ht => (h t ht).trans ?_
  simp

end Token

/-- What words are copied to is copied. -/
theorem grants_copied : Grants (fun _ => True) copied where
  name _ _ ht := digits?_of_kind ht (by decide)
  literal _ _ ht := if_pos ht
  typeName w _ ht := by
    unfold unquestioned
    split <;> exact digits?_of_kind ht (by decide)

/-- **The numbers of a program are the tokens for numbers in its text**, in their order. -/
theorem numbers_of_program? {text program}
    (h : (Parsed.ofTokens (scan text).tokens).program? = some program) :
    numbersBody program = numbersAmong (scan text).tokens := by
  obtain ⟨body, final, words, hscan, hfinal, hrespelled, hderives, -⟩ := exists_words_of_program? h
  have hcopied : NamesBody copied program :=
    namesBody_iff.mpr (hderives.names grants_copied fun _ _ => trivial).1
  have hlast : final.digits? = none := digits?_of_kind hfinal (by decide)
  calc numbersBody program
    _ = (words.filterMap Word.leaf?).filterMap digits? := by
      rw [← leaves_of_derivesProgram hderives]
      exact (numbered.body program hcopied).symm
    _ = body.filterMap digits? := by
      rw [filterMap_filterMap, funext Word.digits?_of_leaf?, hrespelled.numbers_eq]
    _ = (scan text).tokens.filterMap digits? := by
      rw [hscan, filterMap_append, filterMap_cons_none hlast]
      exact (append_nil _).symm
    _ = numbersAmong (scan text).tokens := filterMap_digits?_eq (digits?_of_mem_scan text)

/-- Names are spelled as names are, and numbers as numbers. -/
def spelled : Asked where
  name t := Spelled t.lexeme.toList
  literal _ value := ∀ digits ∈ value.digits?, IsNumber digits
  typeName _ := True

/-- **The names in a program that is read from a text are spelled as names are**, and its numbers as
numbers. -/
theorem wellSpelled_of_program? {text program}
    (h : (Parsed.ofTokens (scan text).tokens).program? = some program) :
    NamesBody spelled program := by
  refine names_of_program? h (spelled_of_mem_scan text)
    (fun first _ _ _ hspelled => (hspelled.of_append first).tail)
    ⟨fun w hw => hw.1, fun w hw hkind digits hdigits => ?_, fun _ _ _ => trivial⟩
  have hmem := hw.2 hkind
  have htoken := digits?_of_mem_scan text w.token hmem
  rw [digits?, if_pos hkind, show _ = some digits from hdigits] at htoken
  split at htoken
  · next hnumber =>
    cases htoken
    exact isNumber_of_mem_scan text w.token hmem hnumber
  · cases htoken

end Offside
