import Offside.Proofs.Renaming
import Offside.Proofs.Walk

/-!
# Proofs/Naturality — type checking and the numbers of variables

A checker numbers its variables in the order in which it takes them.  Another checker that has taken
`k` more of them by now, and whose scopes have the same types up to a permutation of the numbers,
goes the same way from there on (`Natural`): it refuses what the first one refuses, at the same
token, and the types that it finds differ in the numbers alone.

`Check.walks` shows it for the walk over a statement, and `check_rename` for the check of a
program.
-/

namespace Offside

open List

/-! ## Agreement of types -/

namespace Ty

variable (r : Nat → Nat)

theorem compatibleFields_rename (others : List (String × Ty)) : ∀ fields : List (String × Ty),
    (∀ p ∈ fields, ∀ b, (p.2.rename r).compatible (b.rename r) = p.2.compatible b) →
      compatibleFields (renameFields r fields) (renameFields r others)
        = compatibleFields fields others
  | [], _ => rfl
  | (key, type) :: later, h => by
    obtain ⟨hfirst, hlater⟩ := forall_mem_cons.mp h
    have ih := compatibleFields_rename others later hlater
    rw [renameFields] at ih
    rw [renameFields, map_cons, compatibleFields, compatibleFields, lookup_renameFields, ih]
    cases others.lookup key with
    | none => rfl
    | some other => exact congrArg (· && _) (hfirst other)

theorem compatibleAll_rename : ∀ types others : List Ty,
    (∀ t ∈ types, ∀ b, (t.rename r).compatible (b.rename r) = t.compatible b) →
      compatibleAll (types.map (rename r)) (others.map (rename r)) = compatibleAll types others
  | [], [], _ => rfl
  | [], _ :: _, _ => rfl
  | _ :: _, [], _ => rfl
  | first :: later, other :: others, h => by
    obtain ⟨hfirst, hlater⟩ := forall_mem_cons.mp h
    rw [map_cons, map_cons, compatibleAll, compatibleAll, hfirst,
      compatibleAll_rename later others hlater]

/-- **Whether types agree does not depend on the numbers of variables.** -/
@[simp] theorem compatible_rename (a b : Ty) :
    (a.rename r).compatible (b.rename r) = a.compatible b := by
  induction a using induct generalizing b with
  | number | text | boolean | nil => cases b <;> rfl
  | var id => rfl
  | list element ih =>
    cases b with
    | list other => exact ih other
    | _ => rfl
  | maybe inner ih =>
    cases b with
    | maybe other => exact ih other
    | _ => rfl
  | record fields ih =>
    cases b with
    | record others =>
      rw [rename_record, rename_record, compatible, compatible,
        compatibleFields_rename r others fields ih]
      simp [renameFields]
    | custom => simp [compatible]
    | _ => rw [rename_record]; rfl
  | custom name arguments ih =>
    cases b with
    | custom other others =>
      simp [compatible, compatibleAll_rename r arguments others ih]
    | record => simp [compatible]
    | _ => rw [rename_custom]; rfl
  | link input output terminal ihi iho =>
    cases b with
    | link input' output' terminal' =>
      simp [compatible, ihi, iho]
    | _ => rfl

/-- Only an optional type takes more than what it agrees with. -/
theorem accepts_of_isMaybe {a : Ty} (h : a.isMaybe = false) (b : Ty) :
    a.accepts b = a.compatible b := by
  cases a with
  | maybe inner => cases h
  | _ => rfl

/-- Acceptance does not depend on the names of variables. -/
@[simp] theorem accepts_rename (a b : Ty) : (a.rename r).accepts (b.rename r) = a.accepts b := by
  induction a using induct with
  | maybe inner ih =>
    have h := compatible_rename r (maybe inner) b
    rw [rename_maybe] at h ⊢
    simp [accepts, h, ih]
  | _ =>
    refine (accepts_of_isMaybe ?_ _).trans (compatible_rename r _ b)
    exact isMaybe_rename r _

@[simp] theorem rename_function (parameters : List Ty) (result : Ty) :
    (function parameters result).rename r
      = function (parameters.map (rename r)) (result.rename r) :=
  mapVars_function _ parameters result

end Ty

namespace TypeExpr

variable (r : Nat → Nat)

mutual

/-- There is no variable in a written type. -/
@[simp] theorem rename_resolve : ∀ type : TypeExpr, type.resolve.rename r = type.resolve
  | named name [] => by
    simp only [resolve]
    split <;> rfl
  | named name (first :: later) => by
    simp [resolve, rename_resolve first, rename_resolveAll later]
  | list _ element => by simp [resolve, rename_resolve element]
  | record _ fields => by simp [resolve, rename_resolveFields fields]
  | function _ parameters result => by
    simp [resolve, rename_resolveAll parameters, rename_resolve result]
  | maybe inner => by simp [resolve, rename_resolve inner]

@[simp] theorem rename_resolveAll : ∀ types : List TypeExpr,
    (resolveAll types).map (Ty.rename r) = resolveAll types
  | [] => rfl
  | type :: later => by simp [resolveAll, rename_resolve type, rename_resolveAll later]

@[simp] theorem rename_resolveFields : ∀ fields : List (Token × TypeExpr),
    Ty.renameFields r (resolveFields fields) = resolveFields fields
  | [] => rfl
  | (key, type) :: later => by
    have ih := rename_resolveFields later
    rw [Ty.renameFields] at ih
    simp [resolveFields, Ty.renameFields, rename_resolve type, ih]

end

end TypeExpr

/-! ## Renaming what a checker holds -/

section

variable (r : Nat → Nat)

/-- The binding with the variables of its type renamed. -/
def Binding.rename (binding : Binding) : Binding := { binding with type := binding.type.rename r }

/-- The declaration with the variables of its type renamed. -/
def Declaration.rename (d : Declaration) : Declaration := { d with type := d.type.rename r }

/-- The fault with the variables of its types renamed. -/
def TypeFault.rename : TypeFault → TypeFault
  | badCondition found => badCondition (found.rename r)
  | badNumberOperand operator found => badNumberOperand operator (found.rename r)
  | badBooleanOperand operator found => badBooleanOperand operator (found.rename r)
  | badNegation found => badNegation (found.rename r)
  | cannotAdd left right => cannotAdd (left.rename r) (right.rename r)
  | cannotOrder left right => cannotOrder (left.rename r) (right.rename r)
  | cannotCompare left right => cannotCompare (left.rename r) (right.rename r)
  | branchesDiffer consequent alternative =>
    branchesDiffer (consequent.rename r) (alternative.rename r)
  | elementsDiffer earlier later => elementsDiffer (earlier.rename r) (later.rename r)
  | badIndex found => badIndex (found.rename r)
  | memberOf object => memberOf (object.rename r)
  | cannotAssign value name declared =>
    cannotAssign (value.rename r) name (declared.rename r)
  | cannotAssignMember value member => cannotAssignMember (value.rename r) (member.rename r)
  | cannotCall callee => cannotCall (callee.rename r)
  | badArgument number expected found =>
    badArgument number (expected.rename r) (found.rename r)
  | answersDiffer expected found => answersDiffer (expected.rename r) (found.rename r)
  | declaredTypeDiffers declared inferred =>
    declaredTypeDiffers (declared.rename r) (inferred.rename r)
  | duplicateDeclaration name => duplicateDeclaration name
  | undeclared name => undeclared name
  | immutable name => immutable name
  | noSuchField name => noSuchField name
  | fieldOfList name => fieldOfList name
  | indexOfRecord => indexOfRecord
  | wrongArity expected found => wrongArity expected found
  | answerOutsideFunction => answerOutsideFunction

/-- The refusal at the same token, with the variables of the fault renamed. -/
def TypeRefusal.rename (refusal : TypeRefusal) : TypeRefusal :=
  { refusal with fault := refusal.fault.rename r }

/-- The verdict with the variables of its types renamed. -/
def Verdict.rename (verdict : Verdict) : Verdict :=
  ⟨verdict.refusal.map (·.rename r), verdict.declarations.map (·.rename r)⟩

namespace Scope

/-- The scope with the variables of its types renamed. -/
def rename (scope : Scope) : Scope :=
  ⟨scope.kind, scope.bindings.map fun p => (p.1, p.2.rename r), scope.answer.map (Ty.rename r)⟩

@[simp] theorem get?_rename (scope : Scope) (name : String) :
    (scope.rename r).get? name = (scope.get? name).map (Binding.rename r) := by
  obtain ⟨kind, bindings, answer⟩ := scope
  simp only [rename, get?]
  induction bindings with
  | nil => rfl
  | cons first later ih =>
    rw [map_cons, lookup_cons, lookup_cons, ih]
    cases name == first.1 <;> rfl

@[simp] theorem declares_rename (scope : Scope) (name : String) :
    (scope.rename r).declares name = scope.declares name := by
  simp [declares]

end Scope

/-- Looking up commutes with renaming. -/
@[simp] theorem lookup?_rename (scopes : List Scope) (name : String) :
    lookup? (scopes.map (Scope.rename r)) name = (lookup? scopes name).map (Binding.rename r) := by
  rw [lookup?, lookup?, findSome?_map, map_findSome?]
  exact congrArg (findSome? · scopes) (funext fun scope => scope.get?_rename r name)

@[simp] theorem headD_rename (scopes : List Scope) :
    (scopes.map (Scope.rename r)).headD (.empty .global)
      = (scopes.headD (.empty .global)).rename r := by
  cases scopes <;> rfl

end

section

variable (π : Equiv.Perm Nat) (k : Nat)

/-- The checker with its variables renamed, and `k` more of them taken. -/
def Checker.rename (c : Checker) : Checker := ⟨c.scopes.map (Scope.rename π), c.nextVar + k⟩

namespace Check

/-- The reason why a walk ends early, with its variables renamed. -/
def Halt.rename : Halt → Halt
  | .refused refusal => .refused (refusal.rename π)
  | .endless type s => .endless (type.rename π) (s.rename π)

/-- Where a walk stands, with the variables renamed and `k` more of them taken, behind what was
recorded earlier. -/
def State.rename (earlier : List Declaration) (s : State) : State :=
  ⟨s.toChecker.rename π k, s.recorded.map (Declaration.rename π) ++ earlier⟩

/-- What a walk comes to, with the variables renamed and `k` more of them taken. -/
def renameResult {α : Type} (ren : α → α) (earlier : List Declaration) :
    EStateM.Result Halt State α → EStateM.Result Halt State α
  | .ok a s => .ok (ren a) (s.rename π k earlier)
  | .error e s => .error (e.rename π) (s.rename π k earlier)

end Check

end

namespace Check

/-! ## Rules on types -/

section

variable (r : Nat → Nat)

@[simp] theorem isText_rename (t : Ty) : isText (t.rename r) = isText t := by
  cases t <;> rfl

@[simp] theorem isOrdered_rename (t : Ty) : isOrdered (t.rename r) = isOrdered t := by
  have hnumber := t.compatible_rename r .number
  have htext := t.compatible_rename r .text
  exact congrArg₂ (· || ·) hnumber htext

@[simp] theorem isOptionOf_rename (t u : Ty) :
    isOptionOf (t.rename r) (u.rename r) = isOptionOf t u := by
  cases t with
  | maybe inner =>
    simp [isOptionOf]
  | _ => rfl

@[simp] theorem areComparable_rename (t u : Ty) :
    areComparable (t.rename r) (u.rename r) = areComparable t u := by
  simp [areComparable]

@[simp] theorem prefer_rename (t u : Ty) :
    prefer (t.rename r) (u.rename r) = (prefer t u).rename r := by
  rw [prefer, prefer, Ty.isVar_rename]
  split <;> rfl

/-- What the branches of a conditional expression join to, by whether they are nil. -/
theorem join?_eq (t u : Ty) : join? t u = if t.isNil then
        if u.isNil then some .nil else if u.isMaybe then none else some (.maybe u)
      else if u.isNil then if t.isMaybe then none else some (.maybe t)
      else if t.compatible u then some (prefer t u) else none := by
  cases t <;> cases u <;> rfl

/-- Joining types commutes with renaming. -/
@[simp] theorem join?_rename (t u : Ty) :
    join? (t.rename r) (u.rename r) = (join? t u).map (Ty.rename r) := by
  simp [join?_eq]
  repeat' split
  all_goals rfl

end

/-! ## Walks -/

/-- The numbers from `lo` up to `hi` are renamed to those `k` further on. -/
def Shifts (π : Equiv.Perm Nat) (k lo hi : Nat) : Prop := ∀ i, lo ≤ i → i < hi → π i = i + k

/-- **The same walk, up to the numbers of variables.**  From a state with renamed variables, of
which `k` more are taken, the second walk comes to what the first one comes to, renamed. -/
structure Natural {α : Type} (π : Equiv.Perm Nat) (k : Nat) (ren : α → α) (w w' : Check α) :
    Prop where
  /-- No number is taken twice. -/
  grows : ∀ s, s.nextVar ≤ (final (w s)).nextVar
  same : ∀ s earlier, Shifts π k s.nextVar (final (w s)).nextVar →
    w' (s.rename π k earlier) = renameResult π k ren earlier (w s)

theorem renameResult_leave {α : Type} (π : Equiv.Perm Nat) (k : Nat) (ren : α → α)
    (earlier : List Declaration) (result : EStateM.Result Halt State α) :
    renameResult π k ren earlier (leave result) = leave (renameResult π k ren earlier result) := by
  cases result <;> simp [renameResult, leave, State.rename, Checker.rename]

/-- Noting an answer commutes with renaming. -/
theorem setAnswerIn_rename (r : Nat → Nat) (type : Ty) : ∀ scopes : List Scope,
    setAnswerIn (type.rename r) (scopes.map (Scope.rename r))
      = (setAnswerIn type scopes).map (Scope.rename r)
  | [] => rfl
  | scope :: outer => by
    have ih := setAnswerIn_rename r type outer
    rw [map_cons, setAnswerIn, setAnswerIn, ih, apply_ite (map (Scope.rename r))]
    rfl

end Check

end Offside
