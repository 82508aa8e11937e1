import Offside.Typing.Program

/-!
# Proofs/Walk — what the rules of type checking do to the scopes

Most rules declare nothing: they look names up, take fresh variables, note the type of an answer or
refuse (`Quiet`).  What such walks have in common is proved once, by induction on how they are put
together.
-/

namespace Offside

open Check

/-- Whether a fault is that a name is not declared. -/
def TypeFault.isUndeclared : TypeFault → Bool
  | .undeclared _ => true
  | _ => false

end Offside

namespace Offside.Check

variable (name : Token) {α β : Type} {fault : TypeFault} {token : Token} {holds : Bool}
  {s s' : State}

/-- A walk in two parts ends well where both do. -/
theorem ok_of_bind {w : Check α} {f : α → Check β} {s'' : State} {b : β}
    (h : (w >>= f) s = .ok b s'') : ∃ a s', w s = .ok a s' ∧ f a s' = .ok b s'' := by
  cases hw : w s with
  | ok a s' =>
    rw [bind_ok hw] at h
    exact ⟨a, s', rfl, h⟩
  | error e s' =>
    rw [bind_error hw] at h
    cases h

/-- Where a walk stands at its end, however it ends. -/
def final : EStateM.Result Halt State α → State
  | .ok _ s => s
  | .error _ s => s

/-- What becomes of a walk inside a scope once the scope is left. -/
def leave : EStateM.Result Halt State α → EStateM.Result Halt State α
  | .ok a s => .ok a { s with scopes := s.scopes.tail }
  | .error halt s => .error halt { s with scopes := s.scopes.tail }

theorem inScope_eq (kind : Scope.Kind) (walk : Check α) (s : State) :
    inScope kind walk s = leave (walk { s with scopes := .empty kind :: s.scopes }) := by
  unfold inScope
  cases walk { s with scopes := .empty kind :: s.scopes } <;> rfl

theorem ok_of_leave {r : EStateM.Result Halt State α} {a : α} (h : leave r = .ok a s) :
    ∃ s', r = .ok a s' ∧ s = { s' with scopes := s'.scopes.tail } := by
  cases r <;> cases h
  exact ⟨_, rfl, rfl⟩

@[simp] theorem final_leave (r : EStateM.Result Halt State α) :
    final (leave r) = { final r with scopes := (final r).scopes.tail } := by
  cases r <;> rfl

/-- Looking a name up changes nothing, whether it is found or not. -/
theorem lookup_cases (s : State) :
    (∃ binding, lookup? s.scopes name.lexeme = some binding ∧ lookup name s = .ok binding s) ∨
      lookup? s.scopes name.lexeme = none ∧
        lookup name s = .error (.refused ⟨name, .undeclared name.lexeme⟩) s := by
  have hget : (get : Check State) s = .ok s s := rfl
  rw [lookup, bind_ok hget]
  cases lookup? s.scopes name.lexeme with
  | none => exact .inr ⟨rfl, rfl⟩
  | some binding => exact .inl ⟨binding, rfl, rfl⟩

theorem lookup_ok {name binding} (h : lookup name s = .ok binding s') :
    lookup? s.scopes name.lexeme = some binding := by
  rcases lookup_cases name s with ⟨found, hfound, e⟩ | ⟨_, e⟩
  · rw [e] at h
    cases h
    exact hfound
  · rw [e] at h
    cases h

theorem require_ok {u} (h : require holds token fault s = .ok u s') : holds = true := by
  cases holds with
  | true => rfl
  | false => cases h

theorem require_state {u} (h : require holds token fault s = .ok u s') : s' = s := by
  cases holds <;> cases h
  rfl

theorem lookupMutable_ok {name binding} (h : lookupMutable name s = .ok binding s') :
    lookup? s.scopes name.lexeme = some binding ∧ binding.mutable = true := by
  obtain ⟨found, s₁, hfound, h⟩ := ok_of_bind h
  obtain ⟨_, s₂, hmutable, h⟩ := ok_of_bind h
  cases h
  exact ⟨lookup_ok hfound, require_ok hmutable⟩

/-- **A walk that declares nothing.** -/
inductive Quiet : {α : Type} → Check α → Prop
  | pure {α : Type} {a : α} : Quiet (Pure.pure a)
  | refuse {α : Type} {token : Token} {fault : TypeFault} : Quiet (refuse token fault : Check α)
  | fresh : Quiet fresh
  | lookup (name : Token) : Quiet (lookup name)
  /-- A look at where the walk stands. -/
  | see {α : Type} {f : State → α} : Quiet fun s => .ok (f s) s
  | setAnswer {type : Ty} : Quiet (setAnswer type)
  | bind {α β : Type} {w : Check α} {f : α → Check β} (hw : Quiet w) (hf : ∀ a, Quiet (f a)) :
      Quiet (w >>= f)

namespace Quiet

theorem ite {c : Prop} [Decidable c] {v w : Check α} (hv : Quiet v) (hw : Quiet w) :
    Quiet (if c then v else w) := by
  split
  · exact hv
  · exact hw

theorem require : Quiet (require holds token fault) := .ite .pure .refuse

theorem ensureNew : Quiet (ensureNew name) := .bind .see fun _ => .ite .refuse .pure

theorem lookupMutable : Quiet (lookupMutable name) :=
  .bind (.lookup name) fun _ => .bind .require fun _ => .pure

theorem ensureAssignable (object : Expr) : Quiet (ensureAssignable object) := by
  unfold Check.ensureAssignable
  split
  · exact .bind (.lookupMutable _) fun _ => .pure
  · exact .pure

theorem freshFor : ∀ names : List Token, Quiet (freshFor names)
  | [] => .pure
  | _ :: later => .bind .fresh fun _ => .bind (freshFor later) fun _ => .pure

theorem ensureInFunction (keyword : Token) : Quiet (ensureInFunction keyword) :=
  .bind .see fun _ => .ite .refuse .pure

theorem answer (anchor : Token) (type : Ty) : Quiet (answer anchor type) := by
  refine .bind .see fun scope => ?_
  split
  · exact .setAnswer
  · exact .bind .require fun _ => .ite .setAnswer .pure

theorem binary (op : BinaryOp) (operator : Token) (left right : Ty) :
    Quiet (binary op operator left right) := by
  have harith : Quiet (arithmetic operator left right) :=
    .bind .require fun _ => .bind .require fun _ => .pure
  cases op with
  | add => exact .ite (.bind .require fun _ => .pure) harith
  | subtract | multiply | divide | remainder => exact harith
  | less | lessEqual | greater | greaterEqual | equal | notEqual =>
    exact .bind .require fun _ => .pure
  | and | or => exact .bind .require fun _ => .bind .require fun _ => .pure

theorem unary (op : UnaryOp) (operator : Token) (operand : Ty) :
    Quiet (unary op operator operand) := by
  cases op <;> exact .bind .require fun _ => .pure

theorem ternary (question : Token) (consequent alternative : Ty) :
    Quiet (ternary question consequent alternative) := by
  unfold Check.ternary
  split
  · exact .pure
  · exact .refuse

theorem element (anchor : Token) (earlier : Option Ty) (later : Ty) :
    Quiet (element anchor earlier later) := by
  unfold Check.element
  split
  · exact .pure
  · exact .ite .pure .refuse

theorem field (object : Ty) (name : Token) : Quiet (field object name) := by
  unfold Check.field
  split
  · exact .fresh
  · split
    · exact .pure
    · exact .refuse
  · exact .refuse
  · exact .refuse

theorem declaredType (written : Option TypeExpr) (inferred : Ty) :
    Quiet (declaredType name written inferred) := by
  unfold Check.declaredType
  split
  · exact .pure
  · exact .bind .require fun _ => .pure

end Quiet

end Offside.Check

namespace Offside.Checker

variable {c' c : Checker}

/-- What becomes of a statement: it is walked over to its end, or refused on the way. -/
theorem checkStatement_cases {statement verdict}
    (h : c.checkStatement statement = some (c', verdict)) :
    (∃ s, statement.check ⟨c, []⟩ = .ok () s ∧ c' = s.toChecker ∧
      verdict = ⟨none, s.recorded.reverse⟩) ∨
    ∃ refusal s, statement.check ⟨c, []⟩ = .error (.refused refusal) s ∧
      c' = s.toChecker.declareRefused statement ∧ verdict = ⟨some refusal, s.recorded.reverse⟩ := by
  unfold checkStatement checkStatementBy at h
  unfold Stmt.check
  split at h
  · next s hok =>
    cases h
    exact .inl ⟨s, hok, rfl, rfl⟩
  · next refusal s herror =>
    cases h
    exact .inr ⟨refusal, s, herror, rfl, rfl⟩
  · cases h

/-- A statement that is not refused is walked over to its end. -/
theorem ok_of_checkStatement {statement verdict}
    (h : c.checkStatement statement = some (c', verdict)) (haccepted : verdict.refusal = none) :
    ∃ s, statement.check ⟨c, []⟩ = .ok () s ∧ c' = s.toChecker ∧
      verdict.declarations = s.recorded.reverse := by
  rcases checkStatement_cases h with ⟨s, hok, hc, rfl⟩ | ⟨refusal, s, -, -, rfl⟩
  · exact ⟨s, hok, hc, rfl⟩
  · cases haccepted

/-- A check that ends has come past the first statement. -/
theorem check_cons_eq_some {first later verdicts}
    (h : c.check (first :: later) = some (c', verdicts)) :
    ∃ c₁ verdict verdicts₁, c.checkStatement first = some (c₁, verdict) ∧
      c₁.check later = some (c', verdicts₁) ∧ verdicts = verdict :: verdicts₁ := by
  rw [check_cons] at h
  obtain ⟨⟨c₁, verdict⟩, hfirst, hrest⟩ := Option.bind_eq_some_iff.mp h
  obtain ⟨⟨c₂, verdicts₂⟩, hlater, hlast⟩ := Option.bind_eq_some_iff.mp hrest
  obtain ⟨rfl, rfl⟩ := Prod.mk.inj (Option.some.inj hlast)
  exact ⟨c₁, verdict, verdicts₂, hfirst, hlater, rfl⟩

/-- Two programs in one are checked one after the other. -/
theorem check_append : ∀ (before after : List Stmt) (c : Checker),
    c.check (before ++ after) = (c.check before).bind fun r =>
      (r.1.check after).map fun r' => (r'.1, r.2 ++ r'.2)
  | [], after, c => by
    change c.check after = (c.check after).map id
    rw [Option.map_id_apply]
  | first :: later, after, c => by
    rw [List.cons_append, check_cons, check_cons]
    cases c.checkStatement first with
    | none => rfl
    | some r =>
      rw [Option.bind_some, Option.bind_some, check_append later after r.1]
      cases r.1.check later with
      | none => rfl
      | some r' =>
        rw [Option.bind_some, Option.bind_some, Option.bind_some]
        cases r'.1.check after <;> rfl

end Offside.Checker
