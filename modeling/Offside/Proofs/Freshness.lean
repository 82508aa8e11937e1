import Offside.Proofs.Globals

/-!
# Proofs/Freshness — variables that no type has yet

What does not depend on the numbers of variables cannot make one up: where those of what it is given
keep their numbers, so does whatever it comes to, and a variable that always keeps its number is one
of them (`mem_of_map_eq`).  So comparing arguments and applying bindings bring in no variable
(`Ty.vars_fit`, `Subst.vars_apply`), and the types of a check have only variables that are taken
(`Setting.Walks.tight`, `below_check`): the next one is new.
-/

namespace Offside

open List
open Check (final plain_statement Shifts)

/-! ## Variables that keep their numbers -/

/-- **A variable that keeps its number wherever some others do is one of them.** -/
theorem mem_of_map_eq {kept vars : List Nat}
    (h : ∀ π : Equiv.Perm Nat, (∀ v ∈ kept, π v = v) → vars.map π = vars) : vars ⊆ kept := by
  intro v hv
  by_contra hkept
  obtain ⟨w, hw⟩ := Infinite.exists_notMem_finset (v :: kept ++ vars).toFinset
  rw [mem_toFinset, mem_append, mem_cons, not_or, not_or] at hw
  have hsame := h (Equiv.swap v w) fun u hu =>
    Equiv.swap_apply_of_ne_of_ne (fun e => hkept (e ▸ hu)) fun e => hw.1.2 (e ▸ hu)
  refine hw.2 ?_
  rw [← hsame]
  exact mem_map.mpr ⟨v, hv, Equiv.swap_apply_left v w⟩

theorem map_eq_self_iff {α : Type} {f : α → α} {l : List α} : l.map f = l ↔ ∀ a ∈ l, f a = a := by
  simpa using map_inj_left (f := f) (g := id) (l := l)

theorem Ty.rename_eq_self {r : Nat → Nat} {t : Ty} (h : ∀ v ∈ t.vars, r v = v) : t.rename r = t :=
  (rename_congr h).trans t.rename_id

theorem Ty.map_vars_eq {r : Nat → Nat} {t : Ty} (h : t.rename r = t) : t.vars.map r = t.vars := by
  rw [← vars_rename, h]

/-! ## Comparing and applying -/

namespace Subst

/-- The variables that are bound, and those in the types they are bound to. -/
def vars (s : Subst) : List Nat := s.bindings.flatMap fun p => p.1 :: p.2.vars

variable {π : Equiv.Perm Nat} {s : Subst}

@[simp] theorem vars_rename : (s.rename π).vars = s.vars.map π := by
  rw [vars, rename, flatMap_map, vars, map_flatMap]
  simp

theorem rename_eq_self (h : ∀ v ∈ s.vars, π v = v) : s.rename π = s := by
  rw [vars, forall_mem_flatMap] at h
  refine congrArg mk (map_eq_self_iff.mpr fun p hp => ?_)
  obtain ⟨hkey, htype⟩ := forall_mem_cons.mp (h p hp)
  rw [hkey, Ty.rename_eq_self htype]

/-- **Applying bindings brings in no variable.** -/
theorem vars_apply (s : Subst) (t : Ty) : (s.apply t).vars ⊆ t.vars ++ s.vars := by
  refine mem_of_map_eq fun π hπ => Ty.map_vars_eq ?_
  obtain ⟨ht, hs⟩ := forall_mem_append.mp hπ
  rw [← apply_rename, Ty.rename_eq_self ht, rename_eq_self hs]

end Subst

/-- The variables in the outcome of a comparison. -/
def Fit.vars : Fit → List Nat
  | .fits s | .clashes s => s.vars
  | .endless type s => type.vars ++ s.vars

/-- **Comparing an argument brings in no variable**, nor does it bind one. -/
theorem Ty.vars_fit (actual expected : Ty) (s : Subst) :
    (actual.fit expected s).vars ⊆ actual.vars ++ expected.vars ++ s.vars := by
  refine mem_of_map_eq fun π hπ => ?_
  obtain ⟨htypes, hs⟩ := forall_mem_append.mp hπ
  obtain ⟨ha, he⟩ := forall_mem_append.mp htypes
  have hsame := actual.fit_rename π expected s
  rw [rename_eq_self ha, rename_eq_self he, Subst.rename_eq_self hs] at hsame
  have hvars (f : Fit) : (f.rename π).vars = f.vars.map π := by
    cases f <;> simp [Fit.rename, Fit.vars]
  rw [← hvars, ← hsame]

/-! ## The numbers of variables -/

namespace Checker

open Check (final Shifts plain_statement)

variable {π : Equiv.Perm Nat} {k : Nat}

theorem nextVar_le_declareRefused (c : Checker) (statement : Stmt) :
    c.nextVar ≤ (c.declareRefused statement).nextVar := by
  unfold declareRefused
  split
  · exact le_rfl
  · split
    · exact le_rfl
    · exact Nat.le_succ _

/-- **Declaring a refused name commutes with renaming** if fresh variables are shifted. -/
theorem declareRefused_rename (c : Checker) (statement : Stmt)
    (h : Shifts π k c.nextVar (c.declareRefused statement).nextVar) :
    (c.rename π k).declareRefused statement = (c.declareRefused statement).rename π k := by
  obtain ⟨scopes, nextVar⟩ := c
  unfold declareRefused at h ⊢
  split at h
  · rfl
  · next name mutable _ =>
    simp only [rename, headD_rename, Scope.declares_rename]
    split at h
    · next hdeclared => rw [if_pos hdeclared, if_pos hdeclared]
    · next hdeclared =>
      have hnext : π nextVar = nextVar + k := h nextVar le_rfl (Nat.lt_succ_self _)
      rw [if_neg hdeclared, if_neg hdeclared, Nat.add_right_comm]
      cases scopes with
      | nil => rfl
      | cons scope outer => simp [Scope.define, Scope.rename, Binding.rename, hnext]

/-- The next number where the check of a statement ends, or where it is found to have no end. -/
def reachOf (c : Checker) (statement : Stmt) : Nat :=
  match statement.checkBy Ty.fit ⟨c, []⟩ with
  | .ok () s => s.nextVar
  | .error (.refused _) s => (s.toChecker.declareRefused statement).nextVar
  | .error (.endless ..) s => s.nextVar

theorem nextVar_le_reachOf (c : Checker) (statement : Stmt) : c.nextVar ≤ c.reachOf statement := by
  have hgrows := (plain_statement 1 0 statement).natural.grows ⟨c, []⟩
  unfold reachOf
  rcases hs : statement.checkBy Ty.fit ⟨c, []⟩ with ⟨u, s⟩ | ⟨refusal | ⟨type, bindings⟩, s⟩ <;>
    rw [hs] at hgrows
  · exact hgrows
  · exact hgrows.trans (nextVar_le_declareRefused s.toChecker statement)
  · exact hgrows

/-- A statement takes up the variables up to its reach. -/
theorem nextVar_eq_reachOf {c c' : Checker} {statement : Stmt} {verdict : Verdict}
    (h : c.checkStatement statement = some (c', verdict)) : c'.nextVar = c.reachOf statement := by
  unfold checkStatement checkStatementBy at h
  unfold reachOf
  rcases hs : statement.checkBy Ty.fit ⟨c, []⟩ with ⟨u, s⟩ | ⟨refusal | ⟨type, bindings⟩, s⟩ <;>
    rw [hs] at h <;> cases h <;> rfl

/-- **The verdict on a statement does not depend on the numbers of variables.** -/
theorem checkStatement_rename (c : Checker) (statement : Stmt)
    (h : Shifts π k c.nextVar (c.reachOf statement)) :
    (c.rename π k).checkStatement statement
      = (c.checkStatement statement).map fun r => (r.1.rename π k, r.2.rename π) := by
  have hwalk := (plain_statement π k statement).natural
  have hgrows := hwalk.grows ⟨c, []⟩
  have hsame := hwalk.same ⟨c, []⟩ []
  change _ → statement.checkBy Ty.fit ⟨c.rename π k, []⟩ = _ at hsame
  unfold reachOf at h
  unfold checkStatement checkStatementBy
  rcases hs : statement.checkBy Ty.fit ⟨c, []⟩ with ⟨u, s⟩ | ⟨refusal | ⟨type, bindings⟩, s⟩ <;>
    rw [hs] at h hgrows hsame
  · rw [hsame h]
    simp [Check.renameResult, Check.State.rename, Verdict.rename]
  · have hrefused := nextVar_le_declareRefused s.toChecker statement
    have hdeclare := declareRefused_rename s.toChecker statement fun i hlo hhi =>
      h i (hgrows.trans hlo) hhi
    rw [hsame fun i hlo hhi => h i hlo (hhi.trans_le hrefused)]
    simp [Check.renameResult, Check.State.rename, Check.Halt.rename, Verdict.rename, hdeclare]
  · rw [hsame h]
    rfl

/-- The next number where the check of a program ends, or where it is found to have no end. -/
def reach (c : Checker) : List Stmt → Nat
  | [] => c.nextVar
  | first :: later =>
    match c.checkStatement first with
    | some (c', _) => c'.reach later
    | none => c.reachOf first

theorem nextVar_le_reach : ∀ (program : List Stmt) (c : Checker), c.nextVar ≤ c.reach program
  | [], _ => le_rfl
  | first :: later, c => by
    have hfirst := c.nextVar_le_reachOf first
    rw [reach]
    split
    · next c' verdict hc =>
      exact (hfirst.trans (nextVar_eq_reachOf hc).ge).trans (nextVar_le_reach later c')
    · exact hfirst

/-- So does a program. -/
theorem nextVar_eq_reach : ∀ {program : List Stmt} {c c' : Checker} {verdicts : List Verdict},
    c.check program = some (c', verdicts) → c'.nextVar = c.reach program
  | [], _, _, _, h => by
    cases h
    rfl
  | first :: later, c, c', verdicts, h => by
    obtain ⟨c₁, verdict, verdicts₁, hfirst, hlater, rfl⟩ := check_cons_eq_some h
    rw [reach, hfirst]
    exact nextVar_eq_reach hlater

/-- **The verdicts on a program do not depend on the numbers of variables.** -/
theorem check_rename : ∀ (program : List Stmt) (c : Checker),
    Shifts π k c.nextVar (c.reach program) → (c.rename π k).check program
        = (c.check program).map fun r => (r.1.rename π k, r.2.map (Verdict.rename π))
  | [], _, _ => rfl
  | first :: later, c, h => by
    rw [reach] at h
    rw [check_cons, check_cons]
    cases hfirst : c.checkStatement first with
    | none =>
      rw [hfirst] at h
      rw [checkStatement_rename c first h, hfirst]
      rfl
    | some r =>
      obtain ⟨c', verdict⟩ := r
      have hreach := nextVar_eq_reachOf hfirst
      have hlo := c.nextVar_le_reachOf first
      have hhi := nextVar_le_reach later c'
      simp only [hfirst] at h
      rw [checkStatement_rename c first fun i hi hi' => h i hi (by omega), hfirst,
        Option.map_some, Option.bind_some, Option.bind_some,
        check_rename later c' fun i hi hi' => h i (by omega) hi']
      cases c'.check later <;> rfl

end Checker

/-! ## The types that a check holds -/

/-- The variables in a scope. -/
def Scope.vars (scope : Scope) : List Nat :=
  scope.bindings.flatMap (·.2.type.vars) ++ scope.answer.toList.flatMap Ty.vars

/-- The variables in a type have numbers below `n`. -/
def Ty.Below (n : Nat) (t : Ty) : Prop := ∀ v ∈ t.vars, v < n

/-- The numbers below `n` are kept. -/
def KeepsBelow (n : Nat) (π : Equiv.Perm Nat) : Prop := ∀ i < n, π i = i

section

variable {n : Nat} {r : Nat → Nat} {π : Equiv.Perm Nat}

/-- A type is below a number exactly if renaming from that number on leaves it alone. -/
theorem Ty.below_iff {t : Ty} : t.Below n ↔ ∀ π, KeepsBelow n π → t.rename π = t := by
  refine ⟨fun h π hπ => rename_eq_self fun v hv => hπ v (h v hv), fun h v hv => ?_⟩
  refine mem_range.mp (mem_of_map_eq (fun π hπ => map_vars_eq (h π fun i hi => ?_)) hv)
  exact hπ i (mem_range.mpr hi)

theorem Binding.rename_eq_self_iff {b : Binding} : b.rename r = b ↔ b.type.rename r = b.type := by
  cases b
  simp [rename]

theorem Declaration.rename_eq_self_iff {d : Declaration} :
    d.rename r = d ↔ d.type.rename r = d.type := by
  cases d
  simp [rename]

theorem TypeRefusal.rename_eq_self_iff {refusal : TypeRefusal} :
    refusal.rename r = refusal ↔ ∀ t ∈ refusal.fault.types, t.rename r = t := by
  obtain ⟨token, fault⟩ := refusal
  cases fault <;> simp [rename, TypeFault.rename, TypeFault.types]

theorem Verdict.rename_eq_self_iff {v : Verdict} :
    v.rename r = v ↔ v.AllTypes fun t => t.rename r = t := by
  obtain ⟨refusal, declarations⟩ := v
  cases refusal <;> simp [rename, AllTypes, map_eq_self_iff, Declaration.rename_eq_self_iff,
    TypeRefusal.rename_eq_self_iff, and_comm]

theorem Scope.rename_eq_self_iff {scope : Scope} :
    scope.rename r = scope ↔ scope.AllTypes fun t => t.rename r = t := by
  obtain ⟨kind, bindings, answer⟩ := scope
  cases answer <;> simp [rename, AllTypes, map_eq_self_iff, Binding.rename_eq_self_iff]

theorem Checker.rename_eq_self_iff {c : Checker} : c.rename π 0 = c ↔ c.AllTypes fun t => t.rename π
    = t := by
  obtain ⟨scopes, nextVar⟩ := c
  simp [rename, AllTypes, map_eq_self_iff, Scope.rename_eq_self_iff]

theorem Check.State.rename_eq_self_iff {s : Check.State} :
    s.rename π 0 [] = s ↔ s.AllTypes fun t => t.rename π = t := by
  obtain ⟨c, recorded⟩ := s
  simp [rename, AllTypes, map_eq_self_iff, Checker.rename_eq_self_iff,
    Declaration.rename_eq_self_iff]

end

section

variable {n : Nat}

theorem Checker.allTypes_below_iff {c : Checker} :
    c.AllTypes (Ty.Below n) ↔ ∀ π, KeepsBelow n π → c.rename π 0 = c := by
  simp only [rename_eq_self_iff, AllTypes, Scope.AllTypes, Ty.below_iff]
  grind

theorem Verdict.allTypes_below_iff {v : Verdict} :
    v.AllTypes (Ty.Below n) ↔ ∀ π, KeepsBelow n π → v.rename π = v := by
  simp only [rename_eq_self_iff, AllTypes, Ty.below_iff]
  grind

theorem Check.State.allTypes_below_iff {s : Check.State} :
    s.AllTypes (Ty.Below n) ↔ ∀ π, KeepsBelow n π → s.rename π 0 [] = s := by
  simp only [rename_eq_self_iff, AllTypes, Checker.AllTypes, Scope.AllTypes, Ty.below_iff]
  grind

end

namespace Check

open Setting

variable {α : Type} {b : Bool} {binds : Names} {ds : List Written}

/-- No number was taken twice, and the types that a walk has come to have only variables that are
taken by then. -/
def Tight (s : State) (found : Nat → α → Prop) (result : EStateM.Result Halt State α) : Prop :=
  s.nextVar ≤ (final result).nextVar ∧
    AllTypes (Ty.Below (final result).nextVar) (found (final result).nextVar) result

/-- **A walk has only variables that are taken**, if it starts from such. -/
theorem Setting.Walks.tight {Q : Equiv.Perm Nat → Finding α} {w : Check α}
    (h : ∀ π, (plain π 0).Walks b binds ds (Q π) w w) {found : Nat → α → Prop}
    (hfound : ∀ n a, (∀ π, KeepsBelow n π → (Q π).rename a = a) → found n a) {s : State}
    (hs : s.AllTypes (Ty.Below s.nextVar)) : Tight s found (w s) := by
  have hgrows := (h 1).natural.grows s
  have hsame (π : Equiv.Perm Nat) (hπ : KeepsBelow (final (w s)).nextVar π) :
      renameResult π 0 (Q π).rename [] (w s) = w s := by
    rw [← (h π).natural.same s [] fun i _ hi => hπ i hi,
      State.allTypes_below_iff.mp hs π fun i hi => hπ i (hi.trans_le hgrows)]
  refine ⟨hgrows, ?_⟩
  cases hw : w s with
  | ok a s' =>
    simp only [hw, renameResult, EStateM.Result.ok.injEq] at hsame
    exact ⟨hfound _ a fun π hπ => (hsame π hπ).1,
      State.allTypes_below_iff.mpr fun π hπ => (hsame π hπ).2⟩
  | error halt s' =>
    simp only [hw, renameResult, EStateM.Result.error.injEq] at hsame
    have hs' := State.allTypes_below_iff.mpr fun π hπ => (hsame π hπ).2
    cases halt with
    | refused refusal =>
      refine ⟨fun t ht => Ty.below_iff.mpr fun π hπ => ?_, hs'⟩
      exact TypeRefusal.rename_eq_self_iff.mp (Halt.refused.inj (hsame π hπ).1) t ht
    | endless type bindings =>
      have hhalt π hπ := Halt.endless.inj (hsame π hπ).1
      refine ⟨Ty.below_iff.mpr fun π hπ => (hhalt π hπ).1, fun p hp => ?_, hs'⟩
      refine Ty.below_iff.mpr fun π hπ => ?_
      have hbindings := Subst.mk.inj (hhalt π hπ).2
      exact congrArg Prod.snd (map_eq_self_iff.mp hbindings p hp)

variable {s : State} (hs : s.AllTypes (Ty.Below s.nextVar))

include hs

/-- The check of an expression comes to a type with variables taken by then. -/
theorem tight_expression (e : Expr) : Tight s Ty.Below (e.check s) :=
  Walks.tight (fun π => plain_expression π 0 e) (fun _ _ => Ty.below_iff.mpr) hs

theorem tight_statement (st : Stmt) : Tight s (fun _ _ => True) (st.check s) :=
  Walks.tight (fun π => plain_statement π 0 st) (fun _ _ _ => trivial) hs

theorem tight_body (body : List Stmt) :
    Tight s (fun _ _ => True) (checkStatementsBy Ty.fit body s) :=
  Walks.tight (fun π => plain_body π 0 body) (fun _ _ _ => trivial) hs

/-- No type has the next variable yet. -/
theorem new_of_below : s.AllTypes fun t => s.nextVar ∉ t.vars := by
  refine ⟨fun scope hscope => ⟨fun b hb hv => ?_, fun t ht hv => ?_⟩, fun d hd hv => ?_⟩
  · exact Nat.lt_irrefl _ ((hs.1 scope hscope).1 b hb _ hv)
  · exact Nat.lt_irrefl _ ((hs.1 scope hscope).2 t ht _ hv)
  · exact Nat.lt_irrefl _ (hs.2 d hd _ hv)

end Check

namespace Checker

open Check (Tight)

variable {c : Checker}

theorem below_start : start.AllTypes (Ty.Below start.nextVar) := by
  unfold AllTypes Scope.AllTypes Ty.Below
  decide

/-- The types in the open scopes have only variables that are taken. -/
def Taken (c : Checker) : Prop := ∀ scope ∈ c.scopes, ∀ v ∈ scope.vars, v < c.nextVar

/-- In other words, the types are below the next variable. -/
theorem taken_iff : c.Taken ↔ c.AllTypes (Ty.Below c.nextVar) := by
  refine forall₂_congr fun scope _ => ?_
  rw [Scope.vars, forall_mem_append, forall_mem_flatMap, forall_mem_flatMap]
  simp only [Option.mem_toList]
  rfl

theorem taken_start : start.Taken := taken_iff.mpr below_start

theorem Taken.rename_scopes {π} (hc : c.Taken) (h : KeepsBelow c.nextVar π) :
    c.scopes.map (Scope.rename π) = c.scopes :=
  congrArg scopes (allTypes_below_iff.mp (taken_iff.mp hc) π h)

/-- **A check has only variables that are taken**, if it starts from such. -/
theorem below_check {c c' : Checker} {program : List Stmt} {verdicts : List Verdict}
    (hc : c.AllTypes (Ty.Below c.nextVar)) (h : c.check program = some (c', verdicts)) :
    c.nextVar ≤ c'.nextVar ∧ c'.AllTypes (Ty.Below c'.nextVar) ∧
      ∀ v ∈ verdicts, v.AllTypes (Ty.Below c'.nextVar) := by
  have hreach := nextVar_eq_reach h
  have hgrows : c.nextVar ≤ c'.nextVar := (nextVar_le_reach program c).trans_eq hreach.symm
  have hsame (π : Equiv.Perm Nat) (hπ : KeepsBelow c'.nextVar π) :
      c' = c'.rename π 0 ∧ verdicts = verdicts.map (Verdict.rename π) := by
    have hsame := check_rename (k := 0) program c fun i _ hi => hπ i (hi.trans_eq hreach.symm)
    rwa [allTypes_below_iff.mp hc π fun i hi => hπ i (hi.trans_le hgrows), h, Option.map_some,
      Option.some.injEq, Prod.mk.injEq] at hsame
  refine ⟨hgrows, allTypes_below_iff.mpr fun π hπ => (hsame π hπ).1.symm, fun v hv => ?_⟩
  exact Verdict.allTypes_below_iff.mpr fun π hπ => map_eq_self_iff.mp (hsame π hπ).2.symm v hv

/-- A checker that has checked any number of programs. -/
inductive Reached : Checker → Prop
  | start : Reached start
  | check {c c' program verdicts} (hc : Reached c) (h : c.check program = some (c', verdicts)) :
    Reached c'

theorem Reached.allTypes (h : Reached c) : c.AllTypes (Ty.Below c.nextVar) := by
  induction h with
  | start => exact below_start
  | check _ h ih => exact (below_check ih h).2.1

/-- **Fresh variables are new.**  Whatever a checker has checked, the types in its scopes and in its
verdicts have only variables that are taken, and no number is taken twice.  The same holds of every
walk, from wherever it starts with such types and however it ends, so that no type has the variable
that is taken next.  Comparing arguments and applying bindings bring in no variables. -/
theorem fresh_variables_are_new : (∀ c, Reached c → c.AllTypes (Ty.Below c.nextVar) ∧
      ∀ program c' verdicts, c.check program = some (c', verdicts) →
        c.nextVar ≤ c'.nextVar ∧ ∀ v ∈ verdicts, v.AllTypes (Ty.Below c'.nextVar)) ∧
    (∀ s : Check.State, s.AllTypes (Ty.Below s.nextVar) →
      (∀ e : Expr, Tight s Ty.Below (e.check s)) ∧
      (∀ st : Stmt, Tight s (fun _ _ => True) (st.check s)) ∧
      (∀ body, Tight s (fun _ _ => True) (checkStatementsBy Ty.fit body s)) ∧
      ∃ v, Check.fresh s = .ok (.var v) { s with nextVar := v + 1 } ∧
        s.AllTypes fun t => v ∉ t.vars) ∧
    (∀ (actual expected : Ty) (s : Subst),
      (actual.fit expected s).vars ⊆ actual.vars ++ expected.vars ++ s.vars) ∧
    ∀ (s : Subst) (t : Ty), (s.apply t).vars ⊆ t.vars ++ s.vars := by
  refine ⟨fun c hc => ⟨hc.allTypes, fun program c' verdicts h => ?_⟩, fun s hs => ?_, Ty.vars_fit,
    Subst.vars_apply⟩
  · obtain ⟨hgrows, -, hverdicts⟩ := below_check hc.allTypes h
    exact ⟨hgrows, hverdicts⟩
  · exact ⟨Check.tight_expression hs, Check.tight_statement hs, Check.tight_body hs, s.nextVar, rfl,
      Check.new_of_below hs⟩

end Checker

end Offside
