import Offside.Proofs.Pinning
import Offside.Proofs.Trees
import Offside.Proofs.Walk
import Offside.Syntax.Program
import Offside.Token.Scan

/-!
# Proofs/Ending — when type checking has an end

The walk over a program is by recursion on the program, so only its comparisons of arguments with
parameters can keep it from ending.  Taken with `Ty.pinWithin n` in their place, the walk gives up
where a comparison is more than `n` calls deep; `tends` says that the walks for growing
`n` come to the walk with `Ty.fit`, and that this one halts for want of an end only at a circle.

`check_ends_iff` is the result for programs: some depth is enough unless a statement that the check
reaches halts at a type that leads back to itself.  `endless_program` is a program that does.
-/

namespace Offside

namespace Check

open Subst (Circular)

variable {α β : Type} {w : Check α}

/-! ## Walks that come to a walk -/

/-- The walk was halted for want of an end. -/
def GaveUp : EStateM.Result Halt State α → Prop
  | .error (.endless _ _) _ => True
  | _ => False

/-- A walk that is never halted for want of an end. -/
def Steady (walk : Check α) : Prop := ∀ s, ¬ GaveUp (walk s)

/-- **Bounded walks come to a walk**, and that one gives up at circles only. -/
structure Tends (tries : Nat → Check α) (final : Check α) : Prop where
  limit : ∀ s, Limit GaveUp (fun n => tries n s) (final s)
  circular : ∀ {s t b s'}, final s = .error (.endless t b) s' → Circular b t

theorem GaveUp.bind {s} (h : GaveUp (w s)) (f : α → Check β) : GaveUp ((w >>= f) s) := by
  cases hw : w s with
  | ok a s' => rw [hw] at h; exact h.elim
  | error e s' =>
    rw [hw] at h
    rw [bind_error hw]
    cases e with
    | refused r => exact h.elim
    | endless t b => trivial

namespace Steady

theorem bind {f : α → Check β} (hw : Steady w) (hf : ∀ a, Steady (f a)) : Steady (w >>= f) := by
  intro s h
  cases hr : w s with
  | ok a s' => rw [bind_ok hr] at h; exact hf a s' h
  | error e s' =>
    rw [bind_error hr] at h
    have hs := hw s
    rw [hr] at hs
    cases e with
    | refused r => exact h
    | endless t b => exact hs trivial

theorem quiet (h : Quiet w) : Steady w := by
  induction h with
  | bind _ _ ihw ihf => exact ihw.bind ihf
  | lookup name =>
    intro s h
    rcases lookup_cases name s with ⟨_, _, e⟩ | ⟨_, e⟩ <;> rw [e] at h <;> exact h
  | _ => exact fun _ h => h

theorem declare (name : Token) (binding : Binding) : Steady (Check.declare name binding) :=
  .bind (.quiet (.ensureNew name)) fun _ _ h => h

theorem declareParameters (names : List Token) (parameters : List Ty) :
    Steady (Check.declareParameters names parameters) := by
  unfold Check.declareParameters
  induction names.zip parameters with
  | nil => exact .quiet .pure
  | cons first later ih => exact .bind (.declare _ _) fun _ => ih

theorem announce (name : Token) (names : List Token) : Steady (Check.announce name names) :=
  .bind (.quiet (.ensureNew name)) fun _ => .bind (.quiet (.freshFor names)) fun _ =>
  .bind (.quiet .fresh) fun _ => .bind (fun _ h => h) fun _ => .quiet .pure

end Steady

theorem gaveUp_leave (r : EStateM.Result Halt State α) : GaveUp (leave r) ↔ GaveUp r := by
  cases r with
  | ok a s => rfl
  | error halt s => cases halt <;> rfl

namespace Tends

variable {tries : Nat → Check α} {final : Check α}

theorem steady (h : Steady w) : Tends (fun _ => w) w :=
  ⟨fun _ => .const, fun {s} _ _ _ e => absurd (by rw [e]; trivial) (h s)⟩

theorem quiet (h : Quiet w) : Tends (fun _ => w) w := .steady (.quiet h)

theorem bind {f : Nat → α → Check β} {g : α → Check β} (hw : Tends tries final)
    (hf : ∀ a, Tends (fun n => f n a) (g a)) :
    Tends (fun n => tries n >>= f n) (final >>= g) := by
  refine ⟨fun s => ?_, fun {s t b s'} h => ?_⟩
  · refine (hw.limit s).seq (f := fun n r => ((fun _ => r : Check α) >>= f n) s)
      (g := fun r => ((fun _ => r : Check α) >>= g) s) ?_ (·.bind g) fun h => ?_
    · exact fun n _ h => h.bind (f n)
    · cases hv : final s with
      | ok a s' => exact (hf a).limit s'
      | error halt s' => exact .const
  · cases hv : final s with
    | ok a s'' =>
      rw [bind_ok hv] at h
      exact (hf a).circular h
    | error halt s'' =>
      rw [bind_error hv] at h
      cases h
      exact hw.circular hv

theorem inScope (kind : Scope.Kind) (hw : Tends tries final) :
    Tends (fun n => Check.inScope kind (tries n)) (Check.inScope kind final) := by
  refine ⟨fun s => ?_, fun {s t b s'} h => ?_⟩
  · simp only [inScope_eq]
    exact (hw.limit _).map leave gaveUp_leave
  · rw [inScope_eq] at h
    cases hv : final { s with scopes := .empty kind :: s.scopes } with
    | ok a s'' => rw [hv] at h; cases h
    | error halt s'' =>
      rw [hv] at h
      cases h
      exact hw.circular hv

end Tends

/-! ## The walk -/

open Ty (pinWithin)

/-- Goes on with the outcome of a comparison. -/
def follow (outcome : Fit) (fits clashes : Subst → Check α) : Check α :=
  match outcome with
  | .fits s => fits s
  | .clashes s => clashes s
  | .endless t s => throw (.endless t s)

theorem arguments_cons (compare : Ty → Ty.Comparison) (number : Nat) (parameter : Ty)
    (parameters : List Ty) (anchor : Token) (argument : Ty) (later : List (Token × Ty))
    (s : Subst) :
    arguments compare number (parameter :: parameters) ((anchor, argument) :: later) s
      = follow (compare argument parameter s) (arguments compare (number + 1) parameters later)
          fun s' => refuse anchor (.badArgument number (s'.apply parameter) argument) := by
  rw [arguments]
  cases compare argument parameter s <;> rfl

theorem gaveUp_follow {clashes} (f : Subst → Check α) {outcome s} (h : outcome.IsEndless) :
    GaveUp (follow outcome f clashes s) := by
  cases outcome with
  | endless t b => trivial
  | _ => exact h.elim

theorem tends_follow {p : Nat → Fit} {r : Fit} {f : Nat → Subst → Check α}
    {g clashes : Subst → Check α} (hp : Limit Fit.IsEndless p r)
    (hc : ∀ {t s}, r = .endless t s → Circular s t)
    (hf : ∀ s, Tends (fun n => f n s) (g s)) (hclash : ∀ s, Steady (clashes s)) :
    Tends (fun n => follow (p n) (f n) clashes) (follow r g clashes) := by
  refine ⟨fun s => ?_, fun {s t b s'} h => ?_⟩
  · refine hp.seq (f := fun n a => follow a (f n) clashes s) (g := fun a => follow a g clashes s)
      (fun n _ => gaveUp_follow (f n)) (gaveUp_follow g) fun h => ?_
    cases r with
    | fits b => exact (hf b).limit s
    | clashes b => exact .const
    | endless t b => exact absurd trivial h
  · cases r with
    | fits b => exact (hf b).circular h
    | clashes b => exact (Tends.steady (hclash b)).circular h
    | endless t b =>
      cases h
      exact hc rfl

theorem tends_arguments : ∀ (parameters : List Ty) (given : List (Token × Ty)) (number : Nat)
    (s : Subst), Tends (fun n => arguments (pinWithin n) number parameters given s)
      (arguments Ty.fit number parameters given s)
  | [], _, _, _ => by
    simp only [arguments]
    exact .quiet .pure
  | _ :: _, [], _, _ => by
    simp only [arguments]
    exact .quiet .pure
  | parameter :: parameters, (anchor, argument) :: later, number, s => by
    simp only [arguments_cons]
    exact tends_follow (Ty.limit_pinWithin argument parameter s)
      (Ty.circular_of_fit argument parameter s)
      (tends_arguments parameters later (number + 1)) fun _ => .quiet .refuse

theorem tends_call (paren : Token) (callee : Ty) (given : List (Token × Ty)) :
    Tends (fun n => call (pinWithin n) paren callee given) (call Ty.fit paren callee given) := by
  unfold call
  cases callee.signature? with
  | none => exact .quiet (.ite .fresh .refuse)
  | some signature =>
    exact .bind (.quiet .require) fun _ =>
      .bind (tends_arguments _ _ _ _) fun _ => .quiet .pure

theorem tends_index (object : Ty) (bracket : Token) {tries final} (h : Tends tries final) :
    Tends (fun n => index object bracket (tries n)) (index object bracket final) := by
  unfold index
  cases object with
  | var id => exact h.bind fun _ => .quiet .fresh
  | list element =>
    exact h.bind fun _ => .bind (.quiet .require) fun _ => .quiet .pure
  | _ => exact .quiet .refuse

theorem tends_function (names : List Token) (parameters : List Ty) {tries final}
    (h : Tends tries final) :
    Tends (fun n => function names parameters (tries n)) (function names parameters final) := by
  unfold function
  refine .bind (.inScope _ (.bind (.steady (.declareParameters _ _)) fun _ => h.bind fun _ => ?_))
    fun _ => .quiet .pure
  exact .quiet (.bind .see fun _ => .pure)

theorem tends_functionDeclaration (name : Token) (names : List Token) {tries final}
    (h : Tends tries final) :
    Tends (fun n => functionDeclaration name names (tries n))
      (functionDeclaration name names final) := by
  unfold functionDeclaration
  exact .bind (.steady (.announce name names)) fun parameters =>
    .bind (tends_function names parameters h) fun _ =>
    .bind (.steady fun _ h => h) fun _ => .steady fun _ h => h

end Check

open Check
open Ty (pinWithin)

/-- **Bounded walks over a tree come to the walk over it.** -/
theorem tends : Claim.Passes ⟨fun e => Tends (fun n => e.checkBy (pinWithin n)) (e.checkBy Ty.fit),
    fun m => ∀ object, Tends (fun n => m.checkBy (pinWithin n) object) (m.checkBy Ty.fit object),
    fun es => Tends (fun n => checkArgumentsBy (pinWithin n) es) (checkArgumentsBy Ty.fit es) ∧
      ∀ earlier, Tends (fun n => checkElementsBy (pinWithin n) earlier es)
        (checkElementsBy Ty.fit earlier es),
    fun fields => Tends (fun n => checkFieldsBy (pinWithin n) fields) (checkFieldsBy Ty.fit fields),
    fun st => Tends (fun n => st.checkBy (pinWithin n)) (st.checkBy Ty.fit),
    fun rest => Tends (fun n => rest.checkBy (pinWithin n)) (rest.checkBy Ty.fit),
    fun body => Tends (fun n => checkStatementsBy (pinWithin n) body)
      (checkStatementsBy Ty.fit body)⟩ where
  ternary htest hconsequent halternative :=
    .bind htest fun _ => .bind (.quiet .require) fun _ => .bind hconsequent fun _ =>
      .bind halternative fun _ => .quiet (.ternary _ _ _)
  binary hleft hright := .bind hleft fun _ => .bind hright fun _ => .quiet (.binary _ _ _ _)
  literal := .quiet .pure
  unary hoperand := .bind hoperand fun _ => .quiet (.unary _ _ _)
  name := .quiet (.bind (.lookup _) fun _ => .pure)
  assign hvalue := .bind (.quiet (.lookupMutable _)) fun _ => .bind hvalue fun _ =>
    .quiet (.bind .require fun _ => .pure)
  call hcallee hgiven := .bind hcallee fun _ => .bind hgiven.1 fun _ => tends_call _ _ _
  get hobject hmember := .bind hobject hmember
  set hobject hmember hvalue :=
    .bind (.quiet (.ensureAssignable _)) fun _ => .bind hobject fun type =>
      .bind (hmember type) fun _ => .bind hvalue fun _ => .quiet (.bind .require fun _ => .pure)
  list helements := by
    refine .bind (helements.2 none) fun found => .quiet ?_
    cases found with
    | none => exact .bind .fresh fun _ => .pure
    | some type => exact .pure
  record hfields := .bind hfields fun _ => .quiet .pure
  lambda {_ names _} hbody := .bind (.quiet (.freshFor names)) fun parameters =>
    tends_function names parameters hbody
  field {name} object := .quiet (.field object name)
  index {bracket _} hvalue object := tends_index object bracket hvalue
  nilExprs := ⟨.quiet .pure, fun _ => .quiet .pure⟩
  consExprs hfirst hlater :=
    ⟨.bind hfirst fun _ => .bind hlater.1 fun _ => .quiet .pure,
      fun _ => .bind hfirst fun _ => .bind (.quiet (.element _ _ _)) fun _ => hlater.2 _⟩
  nilFields := .quiet .pure
  consFields hvalue hlater := .bind hvalue fun _ => .bind hlater fun _ => .quiet .pure
  expression hvalue := .bind hvalue fun _ => .quiet .pure
  block hbody := .inScope _ hbody
  branch htest hbody hrest := .bind htest fun _ => .bind (.quiet .require) fun _ =>
    .bind (.inScope _ hbody) fun _ => hrest
  loop htest hbody := .bind htest fun _ => .bind (.quiet .require) fun _ => .inScope _ hbody
  leave := .quiet .pure
  function {name _ names _} hbody := tends_functionDeclaration name names hbody
  bareAnswer := .quiet (.bind (.ensureInFunction _) fun _ => .answer _ _)
  answer hvalue :=
    .bind (.quiet (.ensureInFunction _)) fun _ => .bind hvalue fun _ => .quiet (.answer _ _)
  declare {_ name _ _} hvalue :=
    .bind (.quiet (.ensureNew name)) fun _ => .bind hvalue fun _ =>
      .bind (.quiet (.declaredType name _ _)) fun _ =>
      .bind (.steady (.declare name _)) fun _ => .steady fun _ h => h
  nothing := .quiet .pure
  otherwise hbody := .inScope _ hbody
  elseIf htest hbody hrest := .bind htest fun _ => .bind (.quiet .require) fun _ =>
    .bind (.inScope _ hbody) fun _ => hrest
  nilBody := .quiet .pure
  consBody hfirst hlater := .bind hfirst fun _ => hlater

/-! ## Programs -/

namespace Checker

open Subst (Circular)

variable (c : Checker)

/-- What a walk over a statement makes of a checker. -/
def conclude (statement : Stmt) :
    EStateM.Result Check.Halt Check.State Unit → Option (Checker × Verdict)
  | .ok () s => some (s.toChecker, ⟨none, s.recorded.reverse⟩)
  | .error (.refused refusal) s =>
    some (s.toChecker.declareRefused statement, ⟨some refusal, s.recorded.reverse⟩)
  | .error (.endless ..) _ => none

theorem checkStatementBy_eq (compare : Ty → Ty.Comparison) (c : Checker) (statement : Stmt) :
    c.checkStatementBy compare statement
      = conclude statement (statement.checkBy compare ⟨c, []⟩) := by
  unfold checkStatementBy conclude
  rfl

theorem conclude_eq_none_iff (statement : Stmt) (r : EStateM.Result Check.Halt Check.State Unit) :
    conclude statement r = none ↔ GaveUp r := by
  rcases r with ⟨⟨⟩, s⟩ | ⟨halt, s⟩
  · exact ⟨fun h => (Option.some_ne_none _ h).elim, False.elim⟩
  · cases halt with
    | refused r => exact ⟨fun h => (Option.some_ne_none _ h).elim, False.elim⟩
    | endless t b => exact ⟨fun _ => trivial, fun _ => rfl⟩

theorem limit_checkStatement (statement : Stmt) :
    Limit (· = none) (fun n => c.checkStatementBy (pinWithin n) statement)
      (c.checkStatement statement) := by
  unfold checkStatement
  simp only [checkStatementBy_eq]
  exact ((tends.stmt statement).limit ⟨c, []⟩).map _ (conclude_eq_none_iff statement)

/-- **Bounded checks of a program come to its check.** -/
theorem limit_check : ∀ (program : List Stmt) (c : Checker),
    Limit (· = none) (fun n => c.checkBy (pinWithin n) program) (c.check program)
  | [], _ => .const
  | first :: later, c =>
    .bind (limit_checkStatement c first) fun (c', _) =>
      .bind (limit_check later c') fun _ => .const

/-- The check of a program reaches a statement that halts at a type that leads back to itself. -/
def MeetsCircle (c : Checker) (program : List Stmt) : Prop :=
  ∃ before statement after reached verdicts type s halted,
    program = before ++ statement :: after ∧ c.check before = some (reached, verdicts) ∧
      statement.check ⟨reached, []⟩ = .error (.endless type s) halted ∧ Circular s type

theorem checkStatement_eq_none_iff (statement : Stmt) : c.checkStatement statement = none ↔
      ∃ type s halted, statement.check ⟨c, []⟩ = .error (.endless type s) halted ∧
        Circular s type := by
  unfold checkStatement Stmt.check
  rw [checkStatementBy_eq, conclude_eq_none_iff]
  refine ⟨fun h => ?_, fun ⟨type, s, halted, h, _⟩ => by rw [h]; trivial⟩
  cases hw : statement.checkBy Ty.fit ⟨c, []⟩ with
  | ok a s => rw [hw] at h; exact h.elim
  | error halt halted =>
    rw [hw] at h
    cases halt with
    | refused r => exact h.elim
    | endless type s => exact ⟨type, s, halted, rfl, (tends.stmt statement).circular hw⟩

theorem meetsCircle_cons (first : Stmt) (later : List Stmt) :
    c.MeetsCircle (first :: later) ↔ c.checkStatement first = none ∨
      ∃ c' verdict, c.checkStatement first = some (c', verdict) ∧ c'.MeetsCircle later := by
  constructor
  · rintro ⟨before, statement, after, reached, verdicts, type, s, halted, hsplit, hreach, hhalt⟩
    cases before with
    | nil =>
      cases hsplit
      cases hreach
      exact .inl ((checkStatement_eq_none_iff c first).mpr ⟨type, s, halted, hhalt⟩)
    | cons earlier before =>
      cases hsplit
      obtain ⟨c', verdict, verdicts', hfirst, hbefore, rfl⟩ := check_cons_eq_some hreach
      exact .inr ⟨c', verdict, hfirst, before, statement, after, _, verdicts', type, s,
        halted, rfl, hbefore, hhalt⟩
  · rintro (hnone | ⟨c', verdict, hfirst, before, statement, after, reached, verdicts, type, s,
      halted, rfl, hbefore, hhalt⟩)
    · obtain ⟨type, s, halted, hhalt⟩ := (checkStatement_eq_none_iff c first).mp hnone
      exact ⟨[], first, later, c, [], type, s, halted, rfl, rfl, hhalt⟩
    · refine ⟨first :: before, statement, after, reached, verdict :: verdicts, type, s, halted,
        rfl, ?_, hhalt⟩
      rw [check_cons, hfirst, Option.bind_some, hbefore, Option.bind_some]

/-- **The check of a program has no end exactly where it meets a circle.** -/
theorem check_eq_none_iff : ∀ (program : List Stmt) (c : Checker),
    c.check program = none ↔ c.MeetsCircle program
  | [], c => by
    refine ⟨fun h => (Option.some_ne_none _ h).elim, ?_⟩
    rintro ⟨before, statement, after, _, _, _, _, _, hsplit, _⟩
    exact absurd hsplit.symm (List.append_ne_nil_of_right_ne_nil _ (List.cons_ne_nil _ _))
  | first :: later, c => by
    rw [meetsCircle_cons, check_cons]
    cases hfirst : c.checkStatement first with
    | none => exact ⟨fun _ => .inl rfl, fun _ => rfl⟩
    | some reached =>
      obtain ⟨c', verdict⟩ := reached
      rw [Option.bind_some, Option.bind_eq_none_iff]
      constructor
      · intro h
        refine .inr ⟨c', verdict, rfl, (check_eq_none_iff later c').mp ?_⟩
        cases hl : c'.check later with
        | none => rfl
        | some r => exact absurd (h r hl) (Option.some_ne_none _)
      · rintro (h | ⟨c'', verdict', heq, h⟩) r hr
        · exact absurd h (Option.some_ne_none _)
        · cases heq
          rw [(check_eq_none_iff later c').mpr h] at hr
          cases hr

/-- **Type checking ends, at some depth of comparisons, exactly unless it meets a circle**; and
where it ends it does not matter how deep comparisons might have gone. -/
theorem check_ends_iff (program : List Stmt) :
    ((∃ n result, c.checkBy (pinWithin n) program = some result) ↔ ¬ c.MeetsCircle program) ∧
      ∀ n result, c.checkBy (pinWithin n) program = some result →
        c.check program = some result := by
  have hlimit := limit_check program c
  have hagree : ∀ n result, c.checkBy (pinWithin n) program = some result →
      c.check program = some result := by
    intro n result h
    rcases hlimit.agrees n with e | e
    · exact e.symm.trans h
    · exact absurd (h.symm.trans e) (Option.some_ne_none _)
  refine ⟨?_, hagree⟩
  rw [← check_eq_none_iff, ← hlimit.exists_iff]
  exact exists_congr fun n => Option.ne_none_iff_exists'.symm

/-- Both parameters of `h` have the type of `a`, and the first argument of `h(m, 1)` binds that type
to its own option. -/
def circularSource : String :=
  "fn f (x, y)\n  return f\n" ++
    "fn g (a)\n  var h : f(a, a)\n  var m : true ? a ! null\n  return h(m, 1)\n"

/-- The source reads as a program, the check of which has no end. -/
theorem check_circularSource : (Token.scan circularSource.toList).faults = [] ∧ ∃ program,
    (Parsed.ofTokens (Token.scan circularSource.toList).tokens).program? = some program ∧
      start.check program = none := by
  obtain ⟨hscan, hsome, hnone⟩ : (Token.scan circularSource.toList).faults = [] ∧
      (Parsed.ofTokens (Token.scan circularSource.toList).tokens).program?.isSome ∧
      ((Parsed.ofTokens (Token.scan circularSource.toList).tokens).program?.bind
        start.check).isNone := by
    decide +kernel
  obtain ⟨program, hprogram⟩ := Option.isSome_iff_exists.mp hsome
  rw [hprogram, Option.bind_some] at hnone
  exact ⟨hscan, program, hprogram, Option.isNone_iff_eq_none.mp hnone⟩

/-- The source reads as a program, and its check ends at no depth. -/
theorem endless_program : (Token.scan circularSource.toList).faults = [] ∧ ∃ program,
        (Parsed.ofTokens (Token.scan circularSource.toList).tokens).program? = some program ∧
        ∀ n, start.checkBy (pinWithin n) program = none := by
  obtain ⟨hscan, program, hprogram, hnone⟩ := check_circularSource
  exact ⟨hscan, program, hprogram, (limit_check program start).gaveUp_of_final hnone⟩

end Checker

end Offside
