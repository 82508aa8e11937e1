import Offside.Proofs.Trees
import Offside.Script.Generate

/-!
# Proofs/Tests — the values that code tests

JavaScript takes any value for a truth value; generated code tests Booleans only.  Where it tests
an expression (`Code.tests`), that is of a form that gives a Boolean whenever it gives a value
(`Code.Boolean`), as far as the functions of the runtime that compare, answer or assert do
(`Runtime`).
-/

namespace Offside

namespace Script

/-! ## Evaluation -/

/-- The operators that compare two values. -/
def comparisons : List BinaryOp := [.equal, .notEqual, .less, .lessEqual, .greater, .greaterEqual]

/-- **What generated code runs on.**  What an operation does is a relation: it may give several
values, or, if it throws or does not end, none. -/
structure Runtime where
  Value : Type
  /-- Variables, objects and whatever else can change. -/
  State : Type
  boolean : Bool → Value
  /-- Whether JavaScript takes a value for true. -/
  truthy : Value → Bool
  number : String → Value
  text : String → Value
  null : Value
  builtin : String → Value
  read : String → State → Value → Prop
  write : String → Value → State → State → Prop
  writeField : Value → String → Value → State → State → Prop
  array : List Value → State → Value → State → Prop
  object : List (String × Value) → State → Value → State → Prop
  function : List String → List Line → State → Value → State → Prop
  primitive : Primitive → List Value → State → Value → State → Prop
  apply : Value → List Value → State → Value → State → Prop
  /-- Comparisons give Booleans. -/
  comparison_boolean : ∀ {op arguments s v s'}, op ∈ comparisons →
    primitive (.operator op) arguments s v s' → ∃ b, v = boolean b
  /-- Predicates give Booleans. -/
  predicate_boolean : ∀ {name arguments s v s'}, (Builtin.find? name).any (·.isPredicate) = true →
    apply (builtin name) arguments s v s' → ∃ b, v = boolean b
  /-- An assertion gives a Boolean back, and nothing for any other value. -/
  assertBoolean_iff : ∀ {u s v s'},
    primitive .assertBoolean [u] s v s' ↔ (∃ b, u = boolean b) ∧ v = u ∧ s' = s

/-- The truth value of a left operand that decides on its own. -/
def Connective.decisive : Connective → Bool
  | .and => false
  | .or => true

mutual

/-- **Evaluation of an expression**, from a state to a value and a state. -/
inductive Evaluates (R : Runtime) : R.State → Code → R.Value → R.State → Prop
  | number {s} (digits : String) : Evaluates R s (.number digits) (R.number digits) s
  | text {s} (value : String) : Evaluates R s (.text value) (R.text value) s
  | boolean {s} (value : Bool) : Evaluates R s (.boolean value) (R.boolean value) s
  | null {s} : Evaluates R s .null R.null s
  | name {s v name} (h : R.read name s v) : Evaluates R s (.name name) v s
  | builtin {s} (name : String) : Evaluates R s (.builtin name) (R.builtin name) s
  | primitive {s s₁ s₂ vs v op arguments} (harguments : EvaluatesAll R s arguments vs s₁)
    (h : R.primitive op vs s₁ v s₂) : Evaluates R s (.primitive op arguments) v s₂
  | call {s s₁ s₂ s₃ f v vs callee arguments} (hcallee : Evaluates R s callee f s₁)
    (harguments : EvaluatesAll R s₁ arguments vs s₂) (h : R.apply f vs s₂ v s₃) :
    Evaluates R s (.call callee arguments) v s₃
  | array {s s₁ s₂ vs v elements} (helements : EvaluatesAll R s elements vs s₁)
    (h : R.array vs s₁ v s₂) : Evaluates R s (.array elements) v s₂
  | object {s s₁ s₂ vs v properties} (hproperties : EvaluatesProperties R s properties vs s₁)
    (h : R.object vs s₁ v s₂) : Evaluates R s (.object properties) v s₂
  | arrow {s s₁ v parameters body} (h : R.function parameters body s v s₁) :
    Evaluates R s (.arrow parameters body) v s₁
  | group {s s₁ v inner} (h : Evaluates R s inner v s₁) : Evaluates R s (.group inner) v s₁
  | not {s s₁ v operand} (h : Evaluates R s operand v s₁) :
    Evaluates R s (.not operand) (R.boolean (!R.truthy v)) s₁
  /-- The left operand decides. -/
  | decided {s s₁ v op left right} (hleft : Evaluates R s left v s₁) (h : R.truthy v = op.decisive)
    :
    Evaluates R s (.connective op left right) v s₁
  /-- The left operand leaves it to the right one. -/
  | undecided {s s₁ s₂ u v op left right} (hleft : Evaluates R s left u s₁)
    (h : R.truthy u = !op.decisive) (hright : Evaluates R s₁ right v s₂) :
    Evaluates R s (.connective op left right) v s₂
  | conditional {s s₁ s₂ u v test consequent alternative} (htest : Evaluates R s test u s₁)
    (h : Evaluates R s₁ (if R.truthy u then consequent else alternative) v s₂) :
    Evaluates R s (.conditional test consequent alternative) v s₂
  | assign {s s₁ s₂ v name value} (hvalue : Evaluates R s value v s₁) (h : R.write name v s₁ s₂) :
    Evaluates R s (.assign name value) v s₂
  | assignField {s s₁ s₂ s₃ u v field object value} (hobject : Evaluates R s object u s₁)
    (hvalue : Evaluates R s₁ value v s₂) (h : R.writeField u field v s₂ s₃) :
    Evaluates R s (.assignField object field value) v s₃

/-- Evaluation of expressions from left to right. -/
inductive EvaluatesAll (R : Runtime) : R.State → List Code → List R.Value → R.State → Prop
  | nil {s} : EvaluatesAll R s [] [] s
  | cons {s s₁ s₂ v vs first later} (hfirst : Evaluates R s first v s₁)
    (hlater : EvaluatesAll R s₁ later vs s₂) : EvaluatesAll R s (first :: later) (v :: vs) s₂

/-- Evaluation of the properties of an object. -/
inductive EvaluatesProperties (R : Runtime) :
    R.State → List Property → List (String × R.Value) → R.State → Prop
  | nil {s} : EvaluatesProperties R s [] [] s
  | cons {s s₁ s₂ v vs name value later} (hfirst : Evaluates R s value v s₁)
    (hlater : EvaluatesProperties R s₁ later vs s₂) :
    EvaluatesProperties R s (.mk name value :: later) ((name, v) :: vs) s₂

end

/-! ## Code that gives Booleans -/

/-- Code that gives a Boolean if it gives a value. -/
inductive Code.Boolean : Code → Prop
  | boolean (value : Bool) : Boolean (.boolean value)
  | comparison {op} (h : op ∈ comparisons) (arguments : List Code) :
    Boolean (.primitive (.operator op) arguments)
  | predicate {name} (h : (Builtin.find? name).any (·.isPredicate) = true) (arguments : List Code) :
    Boolean (.call (.builtin name) arguments)
  | asserted (code : Code) : Boolean (.primitive .assertBoolean [code])
  | group {inner} (h : Boolean inner) : Boolean (.group inner)
  | not (operand : Code) : Boolean (.not operand)
  | connective {left right} (op : Connective) (hleft : Boolean left) (hright : Boolean right) :
    Boolean (.connective op left right)

/-- **Such code evaluates to Booleans only.** -/
theorem Code.Boolean.evaluates {R code} (h : code.Boolean) :
    ∀ {s s' v}, Evaluates R s code v s' → ∃ b, v = R.boolean b := by
  induction h with
  | boolean value =>
    intro s s' v hcode
    cases hcode
    exact ⟨value, rfl⟩
  | comparison hop arguments =>
    intro s s' v hcode
    cases hcode with
    | primitive _ hprimitive => exact R.comparison_boolean hop hprimitive
  | predicate hname arguments =>
    intro s s' v hcode
    cases hcode with
    | call hcallee _ happly =>
      cases hcallee
      exact R.predicate_boolean hname happly
  | asserted code =>
    intro s s' v hcode
    cases hcode with
    | primitive hcode hassert =>
      cases hcode with
      | cons _ hnil =>
        cases hnil
        obtain ⟨hboolean, rfl, -⟩ := R.assertBoolean_iff.mp hassert
        exact hboolean
  | group _ ih =>
    intro s s' v hcode
    cases hcode with
    | group hinner => exact ih hinner
  | not operand =>
    intro s s' v hcode
    cases hcode with
    | not _ => exact ⟨_, rfl⟩
  | connective op _ _ ihleft ihright =>
    intro s s' v hcode
    cases hcode with
    | decided hleft _ => exact ihleft hleft
    | undecided _ _ hright => exact ihright hright

/-! ## Tests -/

mutual

/-- The operands within an expression that JavaScript takes for truth values. -/
def Code.tests : Code → List Code
  | .number _ | .text _ | .boolean _ | .null | .name _ | .builtin _ => []
  | .primitive _ arguments => testsAll arguments
  | .call callee arguments => callee.tests ++ testsAll arguments
  | .array elements => testsAll elements
  | .object properties => testsProperties properties
  | .arrow _ body => testsOfBody body
  | .group inner => inner.tests
  | .not operand => operand :: operand.tests
  | .connective _ left right => left :: right :: (left.tests ++ right.tests)
  | .conditional test consequent alternative =>
    test :: (test.tests ++ (consequent.tests ++ alternative.tests))
  | .assign _ value => value.tests
  | .assignField object _ value => object.tests ++ value.tests

/-- The tests in expressions. -/
def testsAll : List Code → List Code
  | [] => []
  | first :: later => first.tests ++ testsAll later

/-- The tests in the properties of an object. -/
def testsProperties : List Property → List Code
  | [] => []
  | .mk _ value :: later => value.tests ++ testsProperties later

/-- The tests in a statement: its own, and those in its expressions. -/
def Line.tests : Line → List Code
  | .expression code => code.tests
  | .block body => testsOfBody body
  | .branch test body rest => test :: (test.tests ++ (testsOfBody body ++ rest.tests))
  | .loop test body => test :: (test.tests ++ testsOfBody body)
  | .leave => []
  | .answer code => code.tests
  | .declare _ _ code => code.tests

/-- The tests in the rest of a conditional statement. -/
def Alternative.tests : Alternative → List Code
  | .nothing => []
  | .body body => testsOfBody body
  | .branch test body rest => test :: (test.tests ++ (testsOfBody body ++ rest.tests))

/-- The tests in statements. -/
def testsOfBody : List Line → List Code
  | [] => []
  | first :: later => first.tests ++ testsOfBody later

end

theorem mem_comparisons {op} (h : isTest op = true) (hop : connective? op = none) :
    op ∈ comparisons := by
  cases op with
  | and | or => cases hop
  | add | subtract | multiply | divide | remainder => cases h
  | equal | notEqual | less | lessEqual | greater | greaterEqual => decide

/-- A name that means a predicate is that of a builtin function. -/
theorem reference_of_isPredicate {names name} (h : isPredicate names name = true) :
    reference names name = .builtin name ∧ (Builtin.find? name).any (·.isPredicate) = true := by
  obtain ⟨hfree, hpredicate⟩ := Bool.and_eq_true_iff.mp h
  obtain ⟨found, hfound, -⟩ := (Option.any_eq_true _ _).mp hpredicate
  have hbuiltin : isBuiltin names name = true := by
    rw [isBuiltin, hfree, hfound]
    rfl
  exact ⟨if_pos hbuiltin, hpredicate⟩

/-- An expression that can only give a Boolean becomes code that does, if its own tests do. -/
theorem boolean_of_givesBoolean {names e} (h : givesBoolean names e = true)
    (htests : ∀ test ∈ (e.generate names).tests, test.Boolean) : (e.generate names).Boolean := by
  fun_induction givesBoolean names e with
  | case1 op token left right =>
    rw [Expr.generate] at htests ⊢
    cases hop : connective? op with
    | some connective =>
      simp only [hop, Code.tests, List.forall_mem_cons] at htests
      exact .connective connective htests.1 htests.2.1
    | none => exact .comparison (mem_comparisons h hop) _
  | case2 op token operand =>
    obtain rfl := of_decide_eq_true h
    exact .not _
  | case3 token value =>
    exact .boolean value
  | case4 inner ih =>
    rw [Expr.generate] at htests ⊢
    exact .group (ih h htests)
  | case5 token name arguments =>
    obtain ⟨hreference, hpredicate⟩ := reference_of_isPredicate h
    rw [Expr.generate, Expr.generate, hreference]
    exact .predicate hpredicate _
  | case6 => cases h

/-- Code that gives Booleans only. -/
def AllBoolean (tests : List Code) : Prop := ∀ test ∈ tests, test.Boolean

section

variable {names : List String} {e : Expr}

/-- A tested expression is asserted to be a Boolean, or can only give one. -/
theorem boolean_tested (h : AllBoolean (e.generate names).tests) :
    (tested names e (e.generate names)).Boolean := by
  unfold tested
  split
  · next hboolean => exact boolean_of_givesBoolean hboolean h
  · exact .asserted _

@[simp] theorem tests_tested (names : List String) (e : Expr) (code : Code) :
    (tested names e code).tests = code.tests := by
  unfold tested
  split
  · rfl
  · rw [Code.tests, testsAll, testsAll, List.append_nil]

namespace AllBoolean

variable {tests more : List Code}

theorem none : AllBoolean [] := List.forall_mem_nil _

theorem append (h : AllBoolean tests) (hmore : AllBoolean more) : AllBoolean (tests ++ more) :=
  List.forall_mem_append.mpr ⟨h, hmore⟩

theorem last (h : AllBoolean tests) : AllBoolean (tests ++ []) := h.append none

/-- A test and what else is tested. -/
theorem tested (h : AllBoolean (e.generate names).tests) (hmore : AllBoolean more) :
    AllBoolean (tested names e (e.generate names) ::
      ((Script.tested names e (e.generate names)).tests ++ more)) := by
  rw [tests_tested]
  exact List.forall_mem_cons.mpr ⟨boolean_tested h, h.append hmore⟩

end AllBoolean

end

end Script

open Script

/-- **The tests in the code of a tree can only give Booleans**, whatever names are declared. -/
theorem booleans : Claim.Passes ⟨fun e => ∀ names, AllBoolean (e.generate names).tests,
    Claim.OfIndex fun e => ∀ names, AllBoolean (e.generate names).tests,
    fun es => ∀ names, AllBoolean (testsAll (generateAll names es)),
    fun fields => ∀ names, AllBoolean (testsProperties (generateFields names fields)),
    fun st => ∀ names, AllBoolean (st.generate names).tests,
    fun rest => ∀ names, AllBoolean (rest.generate names).tests,
    fun body => ∀ names, AllBoolean (testsOfBody (generateBody names body))⟩ where
  ternary htest hconsequent halternative names :=
    (htest names).tested ((hconsequent names).append (halternative names))
  binary {op _ _ _} hleft hright names := by
    have hboth := (hleft names).append (hright names)
    rw [Expr.generate]
    cases connective? op with
    | some connective =>
      simp [Code.tests]
      exact List.forall_mem_cons.mpr ⟨boolean_tested (hleft names),
        List.forall_mem_cons.mpr ⟨boolean_tested (hright names), hboth⟩⟩
    | none => exact (hleft names).append (hright names).last
  literal {_ value} _ := by cases value <;> exact .none
  unary {op _ _} hoperand names := by
    cases op with
    | negate => exact (hoperand names).last
    | not =>
      have htested := (hoperand names).tested .none
      rwa [List.append_nil] at htested
  name names := by
    rw [Expr.generate, reference]
    split <;> exact .none
  call hcallee hgiven names := (hcallee names).append (hgiven names)
  get {_ member} hobject hmember names := by
    cases member with
    | field _ => exact (hobject names).append .none
    | index _ _ => exact (hobject names).append (hmember names).last
  set {_ member _} hobject hmember hvalue names := by
    cases member with
    | field _ => exact (hobject names).append (hvalue names)
    | index _ _ => exact (hobject names).append ((hmember names).append (hvalue names).last)
  lambda hbody _ := (hbody _).last
  nilExprs _ := .none
  consExprs hfirst hlater names := (hfirst names).append (hlater names)
  nilFields _ := .none
  consFields hvalue hlater names := (hvalue names).append (hlater names)
  branch htest hbody hrest names := (htest names).tested ((hbody names).append (hrest names))
  loop htest hbody names := (htest names).tested (hbody names)
  leave _ := .none
  function hbody _ := (hbody _).last
  bareAnswer _ := .none
  declare hvalue := hvalue
  nothing _ := .none
  elseIf htest hbody hrest names := (htest names).tested ((hbody names).append (hrest names))
  nilBody _ := .none
  consBody hfirst hlater names := (hfirst names).append (hlater _)

namespace Script

/-- **Whatever generated code tests is a Boolean**: in every state, on every runtime whose
comparisons, predicates and assertions give Booleans only, and whatever builtin functions the
program hides. -/
theorem tests_give_booleans (names : List String) (body : List Stmt) :
    ∀ test ∈ testsOfBody (generateBody names body), test.Boolean ∧
      ∀ (R : Runtime) (s s' : R.State) (v : R.Value),
        Evaluates R s test v s' → ∃ b, v = R.boolean b := by
  intro test htest
  have hboolean := booleans.body body names test htest
  exact ⟨hboolean, fun _ _ _ _ => hboolean.evaluates⟩

/-- The values of `Runtime.liberal`. -/
inductive Datum where
  | boolean (b : Bool)
  | builtin (name : String)
  | other

/-- A runtime on which anything may give anything, except for comparisons, predicates and
assertions. -/
def Runtime.liberal : Runtime where
  Value := Datum
  State := Unit
  boolean := .boolean
  truthy
    | .boolean b => b
    | _ => true
  number _ := .other
  text _ := .other
  null := .other
  builtin := .builtin
  read _ _ _ := True
  write _ _ _ _ := True
  writeField _ _ _ _ _ := True
  array _ _ _ _ := True
  object _ _ _ _ := True
  function _ _ _ _ _ := True
  primitive
    | .operator op, _, _, v, _ => op ∈ comparisons → ∃ b, v = .boolean b
    | .assertBoolean, arguments, _, v, _ => ∃ b, arguments = [.boolean b] ∧ v = .boolean b
    | _, _, _, _, _ => True
  apply f _ _ v _ := ∀ name, f = .builtin name →
    (Builtin.find? name).any (·.isPredicate) = true → ∃ b, v = .boolean b
  comparison_boolean hop h := h hop
  predicate_boolean hname h := h _ rfl hname
  assertBoolean_iff := by
    intro u s v s'
    constructor
    · rintro ⟨b, hu, rfl⟩
      cases hu
      exact ⟨⟨b, rfl⟩, rfl, rfl⟩
    · rintro ⟨⟨b, rfl⟩, rfl, -⟩
      exact ⟨b, rfl, rfl⟩

/-- A branch on a comparison and a call of `even?`. -/
def comparingBranch : List Stmt :=
  let name (lexeme : String) : Token := ⟨.identifier, lexeme, none, ⟨1, 1⟩⟩
  [.branch (name "if") (.binary .and (name "and")
    (.binary .equal (name "=") (.name (name "x")) (.name (name "y")))
    (.call (name "(") (.name (name "even?")) [.name (name "z")])) [] .nothing]

/-- Where the program has its own `even?`, that may give anything, and is asserted to give a
Boolean. -/
theorem comparingBranch_gives_boolean :
    ∃ test ∈ testsOfBody (generateBody ["even?"] comparingBranch), ∃ s v s',
      Evaluates Runtime.liberal s test v s' ∧ ∃ b, v = Runtime.liberal.boolean b := by
  let equal : Code := .primitive (.operator .equal) [.name "x", .name "y"]
  let asserted : Code := .primitive .assertBoolean [.call (.name "even?") [.name "z"]]
  have htests : testsOfBody (generateBody ["even?"] comparingBranch)
      = [.connective .and equal asserted, equal, asserted] := rfl
  have hmem : .connective .and equal asserted ∈
      testsOfBody (generateBody ["even?"] comparingBranch) := htests ▸ List.mem_cons_self
  have hread : ∀ name, Evaluates Runtime.liberal () (.name name) Datum.other () :=
    fun _ => .name trivial
  have hequal : Evaluates Runtime.liberal () equal (.boolean true) () :=
    .primitive (.cons (hread "x") (.cons (hread "y") .nil)) fun _ => ⟨true, rfl⟩
  have hcall : Evaluates Runtime.liberal () (.call (.name "even?") [.name "z"])
      (.boolean false) () :=
    .call (hread "even?") (.cons (hread "z") .nil) fun _ _ _ => ⟨false, rfl⟩
  have hasserted : Evaluates Runtime.liberal () asserted (.boolean false) () :=
    .primitive (.cons hcall .nil) ⟨false, rfl, rfl⟩
  have htest : Evaluates Runtime.liberal () (.connective .and equal asserted) (.boolean false) () :=
    .undecided hequal rfl hasserted
  exact ⟨_, hmem, (), .boolean false, (), htest,
    (tests_give_booleans ["even?"] comparingBranch _ hmem).2 _ _ _ _ htest⟩

end Script

end Offside
