import Offside.Proofs.Agreement
import Offside.Proofs.Trees
import Offside.Proofs.Walk
import Offside.Proofs.WellFormed

/-!
# Proofs/RecordTypes — a record that is declared and the record that is found

Two record types agree if they have as many fields and each name of the first is found in the
second.  That compares the names as sets only where they differ on both sides.  In a record literal
they do, since a name that is repeated there is reported; in a written type it is not.

So a declaration that is accepted has a value with the declared fields exactly if no name is
repeated in its type (`agreesByName_iff_nodup`).  `repeatedName_accepted` is a declaration that is
accepted with other fields than it declares.
-/

namespace Offside

/-! ## The statements of a program -/

mutual

/-- The statements inside an expression. -/
def Expr.statements : Expr → List Stmt
  | .ternary _ test consequent alternative =>
    test.statements ++ (consequent.statements ++ alternative.statements)
  | .binary _ _ left right => left.statements ++ right.statements
  | .group inner => inner.statements
  | .literal _ _ => []
  | .unary _ _ operand => operand.statements
  | .name _ => []
  | .assign _ value => value.statements
  | .call _ callee given => callee.statements ++ statementsAll given
  | .get object member => object.statements ++ member.statements
  | .set object member value => object.statements ++ (member.statements ++ value.statements)
  | .list _ elements => statementsAll elements
  | .record _ fields => statementsFields fields
  | .function _ _ body => statementsIn body

/-- The statements inside a member access. -/
def Member.statements : Member → List Stmt
  | .field _ => []
  | .index _ index => index.statements

/-- The statements inside expressions. -/
def statementsAll : List Expr → List Stmt
  | [] => []
  | first :: later => first.statements ++ statementsAll later

/-- The statements inside the fields of a record. -/
def statementsFields : List Field → List Stmt
  | [] => []
  | .mk _ value :: later => value.statements ++ statementsFields later

/-- A statement and the statements inside it. -/
def Stmt.statements : Stmt → List Stmt
  | .expression value => .expression value :: value.statements
  | .block body => .block body :: statementsIn body
  | .branch keyword test body rest =>
    .branch keyword test body rest :: (test.statements ++ (statementsIn body ++ rest.statements))
  | .loop keyword test body => .loop keyword test body :: (test.statements ++ statementsIn body)
  | .leave keyword => [.leave keyword]
  | .function name keyword names body => .function name keyword names body :: statementsIn body
  | .answer keyword none => [.answer keyword none]
  | .answer keyword (some value) => .answer keyword (some value) :: value.statements
  | .declare mutable name type value => .declare mutable name type value :: value.statements

/-- The statements inside what a conditional statement does where its condition fails. -/
def Otherwise.statements : Otherwise → List Stmt
  | .nothing => []
  | .body body => statementsIn body
  | .branch _ test body rest => test.statements ++ (statementsIn body ++ rest.statements)

/-- **The statements of a program**, wherever they stand in it. -/
def statementsIn : List Stmt → List Stmt
  | [] => []
  | first :: later => first.statements ++ statementsIn later

end

/-- Statements that keep to the rules, each in a loop or not. -/
def KeptToRules (statements : List Stmt) : Prop :=
  ∀ st ∈ statements, ∃ inLoop, st.WellFormed inLoop

theorem keptToRules_nil : KeptToRules [] := List.forall_mem_nil _

theorem KeptToRules.append {a b} (ha : KeptToRules a) (hb : KeptToRules b) :
    KeptToRules (a ++ b) := List.forall_mem_append.mpr ⟨ha, hb⟩

theorem KeptToRules.cons {st a} (inLoop : Bool) (h : st.WellFormed inLoop) (ha : KeptToRules a) :
    KeptToRules (st :: a) := List.forall_mem_cons.mpr ⟨⟨inLoop, h⟩, ha⟩

/-- An expression that keeps to the rules inside another one is a statement that keeps to them. -/
theorem Stmt.WellFormed.of_expr {e} (h : e.WellFormed) : (Stmt.expression e).WellFormed false := by
  cases e with
  | assign _ _ | set _ _ _ => exact h.elim
  | _ => exact h

/-- **Every statement of a tree that keeps to the rules keeps to them.**  Assignments keep to them
as statements only. -/
theorem keptToRules : Claim.Passes ⟨
    fun e => (Stmt.expression e).WellFormed false → KeptToRules e.statements,
    fun m => m.WellFormed → KeptToRules m.statements,
    fun es => WellFormedAll es → KeptToRules (statementsAll es),
    fun fields => WellFormedFields fields → KeptToRules (statementsFields fields),
    fun st => ∀ inLoop, st.WellFormed inLoop → KeptToRules st.statements,
    fun rest => ∀ inLoop, rest.WellFormed inLoop → KeptToRules rest.statements,
    fun body => ∀ inLoop, WellFormedBody inLoop body → KeptToRules (statementsIn body)⟩ where
  ternary htest hconsequent halternative h := (htest (.of_expr h.1)).append
    ((hconsequent (.of_expr h.2.1)).append (halternative (.of_expr h.2.2)))
  binary hleft hright h := (hleft (.of_expr h.1)).append (hright (.of_expr h.2))
  group hinner h := hinner (.of_expr h)
  literal _ := keptToRules_nil
  unary hoperand h := hoperand (.of_expr h)
  name _ := keptToRules_nil
  assign hvalue h := hvalue (.of_expr h)
  call hcallee hgiven h := (hcallee (.of_expr h.1)).append (hgiven h.2)
  get hobject hmember h := (hobject (.of_expr h.1)).append (hmember h.2)
  set hobject hmember hvalue h := (hobject (.of_expr h.1)).append
    ((hmember h.2.1).append (hvalue (.of_expr h.2.2)))
  record hfields h := hfields h.2
  lambda hbody h := hbody false h.2
  field _ := keptToRules_nil
  index hvalue h := hvalue (.of_expr h)
  nilExprs _ := keptToRules_nil
  consExprs hfirst hlater h := (hfirst (.of_expr h.1)).append (hlater h.2)
  nilFields _ := keptToRules_nil
  consFields hvalue hlater h := (hvalue (.of_expr h.1)).append (hlater h.2)
  expression {value} hvalue inLoop h := .cons inLoop h (hvalue (by cases value <;> exact h))
  block hbody inLoop h := .cons inLoop h (hbody inLoop h)
  branch htest hbody hrest inLoop h := .cons inLoop h ((htest (.of_expr h.1)).append
    ((hbody inLoop h.2.1).append (hrest inLoop h.2.2)))
  loop htest hbody inLoop h := .cons inLoop h ((htest (.of_expr h.1)).append (hbody true h.2))
  leave inLoop h := .cons inLoop h keptToRules_nil
  function hbody inLoop h := .cons inLoop h (hbody false h.2)
  bareAnswer inLoop h := .cons inLoop h keptToRules_nil
  answer hvalue inLoop h := .cons inLoop h (hvalue (.of_expr h))
  declare hvalue inLoop h := .cons inLoop h (hvalue (.of_expr h))
  nothing _ _ := keptToRules_nil
  elseIf htest hbody hrest inLoop h := (htest (.of_expr h.1)).append
    ((hbody inLoop h.2.1).append (hrest inLoop h.2.2))
  nilBody _ _ := keptToRules_nil
  consBody hfirst hlater inLoop h := (hfirst inLoop h.1).append (hlater inLoop h.2)

/-! ## Fields -/

namespace Ty

/-- **Two lists of fields with the same names**, and types that agree under every name. -/
structure AgreesByName (declared found : List (String × Ty)) : Prop where
  names : ∀ name, name ∈ declared.map Prod.fst ↔ name ∈ found.map Prod.fst
  types : ∀ name type other, (name, type) ∈ declared → (name, other) ∈ found →
    type.compatible other = true

/-- **Record types that are compatible have the same fields exactly if no name is repeated**, where
none is in the second. -/
theorem agreesByName_iff {declared found}
    (hcompatible : (record declared).compatible (record found) = true)
    (hfound : (found.map Prod.fst).Nodup) :
    AgreesByName declared found ↔ (declared.map Prod.fst).Nodup := by
  have hfinds := compatible_record_iff.mp hcompatible
  rw [← same_names_iff (by simpa using hfinds.length) hfinds.subset hfound]
  refine ⟨AgreesByName.names, fun hnames => ⟨hnames, fun name type other hdeclared hother => ?_⟩⟩
  obtain ⟨other', hlookup, hagree⟩ := hfinds.found _ hdeclared
  rw [lookup_of_mem hfound hother] at hlookup
  rwa [Option.some.inj hlookup]

end Ty

/-! ## Declarations -/

@[simp] theorem TypeExpr.names_resolveFields (fields : List (Token × TypeExpr)) :
    (resolveFields fields).map Prod.fst = fields.map (·.1.lexeme) := by
  induction fields with
  | nil => rfl
  | cons f later ih => rw [resolveFields, List.map_cons, List.map_cons, ih]

variable {name : Token}

namespace Check

variable {s' s : State}

/-- The fields that are found are those of the literal, in order. -/
theorem names_of_checkFields {compare} : ∀ {fields found s s'},
    checkFieldsBy compare fields s = .ok found s' → found.map Prod.fst = fields.map (·.key.lexeme)
  | [], _, _, _, h => by
    cases h
    rfl
  | .mk key value :: later, found, s, s', h => by
    obtain ⟨type, s₁, -, h⟩ := ok_of_bind h
    obtain ⟨types, s₂, htypes, h⟩ := ok_of_bind h
    cases h
    rw [List.map_cons, List.map_cons, names_of_checkFields htypes]
    rfl

/-- **The type of a record literal is a record of its keys.** -/
theorem names_of_checkRecord {brace fields type}
    (h : (Expr.record brace fields).check s = .ok type s') :
    ∃ found, type = .record found ∧ found.map Prod.fst = fields.map (·.key.lexeme) := by
  obtain ⟨found, s₁, hfound, h⟩ := ok_of_bind h
  cases h
  exact ⟨found, rfl, names_of_checkFields hfound⟩

theorem state_of_ensureNew {u} (h : ensureNew name s = .ok u s') : s' = s := by
  obtain ⟨scope, s₁, hscope, h⟩ := ok_of_bind h
  cases hscope
  split at h
  · cases h
  · cases h
    rfl

/-- **A declaration that is accepted has a value of a type that the written one takes.** -/
theorem accepts_of_checkDeclare {mutable} {written : TypeExpr} {value}
    (h : (Stmt.declare mutable name (some written) value).check s = .ok () s') :
    ∃ type s₁, value.check s = .ok type s₁ ∧ written.resolve.accepts type = true := by
  obtain ⟨_, s₀, hnew, hrest⟩ := ok_of_bind h
  rw [state_of_ensureNew hnew] at hrest
  obtain ⟨type, s₁, hvalue, hrest⟩ := ok_of_bind hrest
  obtain ⟨_, _, hdeclared, -⟩ := ok_of_bind hrest
  obtain ⟨_, _, hrequire, -⟩ := ok_of_bind hdeclared
  exact ⟨type, s₁, hvalue, require_ok hrequire⟩

end Check

/-- The keys of a record literal in a program that is accepted differ, wherever it is declared. -/
theorem nodup_of_mem_statementsIn {tokens program}
    (hprogram : (Parsed.ofTokens tokens).program? = some program) {mutable curly written entries}
    (hmem : .declare mutable name written (.record curly entries) ∈ statementsIn program) :
    (entries.map (·.key.lexeme)).Nodup := by
  obtain ⟨words, -, -, hderives⟩ := exists_derivesProgram hprogram
  obtain ⟨inLoop, hrules⟩ :=
    keptToRules.body program false (wellFormedBody_iff.mpr hderives.wellFormed) _ hmem
  exact hrules.1

/-- **A record that is accepted for a written type has the fields of that type exactly if the type
repeats no name.** -/
theorem agreesByName_iff_nodup {tokens : List Token} {program : List Stmt}
    (hprogram : (Parsed.ofTokens tokens).program? = some program) {mutable : Bool}
    {name brace curly : Token} {fields : List (Token × TypeExpr)} {entries : List Field}
    (hmem : .declare mutable name (some (.record brace fields)) (.record curly entries) ∈
      statementsIn program) {s s' : Check.State}
    (haccepted : (Stmt.declare mutable name (some (.record brace fields))
      (.record curly entries)).check s = .ok () s') :
    ∃ found s₁, (Expr.record curly entries).check s = .ok (.record found) s₁ ∧
      (Ty.AgreesByName (TypeExpr.resolveFields fields) found ↔
        (fields.map (·.1.lexeme)).Nodup) := by
  obtain ⟨type, s₁, hvalue, haccepts⟩ := Check.accepts_of_checkDeclare haccepted
  obtain ⟨found, rfl, hnames⟩ := Check.names_of_checkRecord hvalue
  have hfound : (found.map Prod.fst).Nodup := hnames ▸ nodup_of_mem_statementsIn hprogram hmem
  rw [TypeExpr.resolve, Ty.accepts] at haccepts
  · refine ⟨found, s₁, hvalue, ?_⟩
    rw [← TypeExpr.names_resolveFields]
    exact Ty.agreesByName_iff haccepts hfound
  · simp

/-- The names of the written type and of the literal, where a statement declares a record by
both. -/
def Stmt.recordNames? : Stmt → Option (List String × List String)
  | .declare _ _ (some (.record _ fields)) (.record _ entries) =>
    some (fields.map (·.1.lexeme), entries.map (·.key.lexeme))
  | _ => none

/-- To run a source with a declaration of a record that is accepted. -/
theorem exists_recordDeclaration (source : String) (declared keys : List String)
    (h : (Parsed.ofTokens (Token.scan source.toList).tokens).program?.any fun program =>
      (statementsIn program).any fun st => st.recordNames? = some (declared, keys) &&
        (Checker.start.checkStatement st).any (·.2.refusal.isNone)) :
    ∃ program mutable name brace fields curly entries s',
      (Parsed.ofTokens (Token.scan source.toList).tokens).program? = some program ∧
      .declare mutable name (some (.record brace fields)) (.record curly entries) ∈
        statementsIn program ∧
      (Stmt.declare mutable name (some (.record brace fields)) (.record curly entries)).check
        ⟨Checker.start, []⟩ = .ok () s' ∧
      fields.map (·.1.lexeme) = declared ∧ entries.map (·.key.lexeme) = keys := by
  obtain ⟨program, hprogram, hany⟩ := (Option.any_eq_true _ _).mp h
  obtain ⟨st, hmem, hst⟩ := List.any_eq_true.mp hany
  obtain ⟨hnames, hcheck⟩ := Bool.and_eq_true_iff.mp hst
  obtain ⟨⟨c, verdict⟩, hchecked, hnone⟩ := (Option.any_eq_true _ _).mp hcheck
  obtain ⟨s', hok, -⟩ := Checker.ok_of_checkStatement hchecked (Option.isNone_iff_eq_none.mp hnone)
  have hnames := of_decide_eq_true hnames
  unfold Stmt.recordNames? at hnames
  split at hnames
  · obtain ⟨hdeclared, hkeys⟩ := Prod.mk.inj (Option.some.inj hnames)
    exact ⟨program, _, _, _, _, _, _, s', hprogram, hmem, hok, hdeclared, hkeys⟩
  · cases hnames

/-- A record in a function, with its fields in another order than its type has them. -/
def reorderedRecord : String :=
  "fn f ()\n  var r (\x7bb: Number, a: Text\x7d) : \x7ba: 'x', b: 1\x7d\n  return r\n"

theorem reorderedRecord_agrees : ∃ program mutable name brace fields curly entries s' found s₁,
    (Parsed.ofTokens (Token.scan reorderedRecord.toList).tokens).program? = some program ∧
      .declare mutable name (some (.record brace fields)) (.record curly entries) ∈
        statementsIn program ∧
      (Stmt.declare mutable name (some (.record brace fields)) (.record curly entries)).check
        ⟨Checker.start, []⟩ = .ok () s' ∧
      (Expr.record curly entries).check ⟨Checker.start, []⟩ = .ok (.record found) s₁ ∧
      Ty.AgreesByName (TypeExpr.resolveFields fields) found := by
  obtain ⟨program, mutable, name, brace, fields, curly, entries, s', hprogram, hmem, hok, hdeclared,
    -⟩ := exists_recordDeclaration reorderedRecord ["b", "a"] ["a", "b"] (by decide +kernel)
  obtain ⟨found, s₁, hvalue, hagrees⟩ := agreesByName_iff_nodup hprogram hmem hok
  exact ⟨program, mutable, name, brace, fields, curly, entries, s', found, s₁, hprogram, hmem, hok,
    hvalue, hagrees.mpr (hdeclared ▸ by decide)⟩

/-- A type that repeats a name, and a value that has another one in its place. -/
def repeatedName : String := "var r (\x7ba: Number, a: Number\x7d) : \x7ba: 1, b: 2\x7d\n"

/-- The declaration is accepted, and the value has a field that is not declared. -/
theorem repeatedName_accepted : ∃ program mutable name brace fields curly entries s' found s₁,
    (Parsed.ofTokens (Token.scan repeatedName.toList).tokens).program? = some program ∧
      .declare mutable name (some (.record brace fields)) (.record curly entries) ∈
        statementsIn program ∧
      (Stmt.declare mutable name (some (.record brace fields)) (.record curly entries)).check
        ⟨Checker.start, []⟩ = .ok () s' ∧
      (Expr.record curly entries).check ⟨Checker.start, []⟩ = .ok (.record found) s₁ ∧
      "b" ∈ found.map Prod.fst ∧ "b" ∉ (TypeExpr.resolveFields fields).map Prod.fst := by
  obtain ⟨program, mutable, name, brace, fields, curly, entries, s', hprogram, hmem, hok, hdeclared,
    hkeys⟩ := exists_recordDeclaration repeatedName ["a", "a"] ["a", "b"] (by decide +kernel)
  obtain ⟨type, s₁, hvalue, -⟩ := Check.accepts_of_checkDeclare hok
  obtain ⟨found, rfl, hnames⟩ := Check.names_of_checkRecord hvalue
  refine ⟨program, mutable, name, brace, fields, curly, entries, s', found, s₁, hprogram, hmem, hok,
    hvalue, ?_, ?_⟩
  · rw [hnames, hkeys]
    decide
  · rw [TypeExpr.names_resolveFields, hdeclared]
    decide

end Offside
