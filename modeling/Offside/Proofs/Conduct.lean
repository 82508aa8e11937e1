import Offside.Proofs.Effects
import Offside.Proofs.Invariants
import Offside.Proofs.Naturality
import Offside.Proofs.TreeTokens
import Offside.Proofs.Trees

/-!
# Proofs/Conduct — all that the walk over a statement does

`Walks` says it once for every walk, by how the walk is put together: which names it binds and which
declarations it records, where it can be refused, that it keeps what holds of all types, and that it
goes the same way where the variables have other numbers.  `walks` shows it for
all trees; what is said of programs elsewhere is a part of it.
-/

namespace Offside

open List

/-! ## The types in a check -/

/-- The types that a fault names. -/
def TypeFault.types : TypeFault → List Ty
  | badCondition found | badNumberOperand _ found | badBooleanOperand _ found | badNegation found
  | badIndex found | memberOf found | cannotCall found => [found]
  | cannotAdd first second | cannotOrder first second | cannotCompare first second
  | branchesDiffer first second | elementsDiffer first second | cannotAssign first _ second
  | cannotAssignMember first second | badArgument _ first second | answersDiffer first second
  | declaredTypeDiffers first second => [first, second]
  | duplicateDeclaration _ | undeclared _ | immutable _ | noSuchField _ | fieldOfList _
  | indexOfRecord | wrongArity _ _ | answerOutsideFunction => []

section

variable (P : Ty → Prop)

/-- A property holds of all types in a scope. -/
def Scope.AllTypes (scope : Scope) : Prop :=
  (∀ b ∈ scope.bindings, P b.2.type) ∧ ∀ type ∈ scope.answer, P type

/-- A property holds of all types in the open scopes. -/
def Checker.AllTypes (c : Checker) : Prop := ∀ scope ∈ c.scopes, scope.AllTypes P

/-- A property holds of all types in the open scopes and in what was recorded. -/
def Check.State.AllTypes (s : Check.State) : Prop :=
  s.toChecker.AllTypes P ∧ ∀ d ∈ s.recorded, P d.type

end

variable {P : Ty → Prop} {second type : Ty}

namespace Scope

variable {binding : Binding}

theorem AllTypes.get? {name : String} {scope : Scope} (h : scope.AllTypes P)
    (hget : scope.get? name = some binding) : P binding.type := by
  obtain ⟨before, after, hbindings, -⟩ := lookup_eq_some_iff.mp hget
  exact h.1 (name, binding) (by rw [hbindings]; simp)

theorem allTypes_empty (kind : Kind) : (empty kind).AllTypes P :=
  ⟨forall_mem_nil _, fun _ h => by cases h⟩

theorem AllTypes.define {scope : Scope} (h : scope.AllTypes P) (name : String)
    (hb : P binding.type) : (scope.define name binding).AllTypes P :=
  ⟨forall_mem_cons.mpr ⟨hb, h.1⟩, h.2⟩

end Scope

namespace Checker

variable {c : Checker} {binding : Binding}

/-- The type of a name that is found is one of those in scope. -/
theorem AllTypes.lookup? {name} (h : c.AllTypes P) (hfound : lookup? c.scopes name = some binding) :
    P binding.type := by
  obtain ⟨scope, hscope, hget⟩ := exists_of_findSome?_eq_some hfound
  exact (h scope hscope).get? hget

theorem AllTypes.innermost (h : c.AllTypes P) : (c.scopes.headD (.empty .global)).AllTypes P := by
  obtain ⟨scopes, next⟩ := c
  cases scopes with
  | nil => exact Scope.allTypes_empty _
  | cons scope outer => exact h scope mem_cons_self

theorem AllTypes.define (h : c.AllTypes P) (name : String) (hb : P binding.type) (next : Nat) :
    AllTypes P ⟨c.scopes.modifyHead (·.define name binding), next⟩ := by
  obtain ⟨scopes, _⟩ := c
  cases scopes with
  | nil => exact h
  | cons scope outer =>
    obtain ⟨hscope, houter⟩ := forall_mem_cons.mp h
    exact forall_mem_cons.mpr ⟨hscope.define name hb, houter⟩

/-- The answer that is noted is the one type that is new. -/
theorem AllTypes.setAnswerIn (ht : P type) : ∀ {scopes},
    (∀ scope ∈ scopes, scope.AllTypes P) → ∀ scope ∈ Check.setAnswerIn type scopes, scope.AllTypes P
  | [], _ => forall_mem_nil _
  | first :: outer, h => by
    obtain ⟨hfirst, houter⟩ := forall_mem_cons.mp h
    rw [Check.setAnswerIn]
    split
    · exact forall_mem_cons.mpr ⟨⟨hfirst.1, fun _ h => Option.some.inj h ▸ ht⟩, houter⟩
    · exact forall_mem_cons.mpr ⟨hfirst, setAnswerIn ht houter⟩

end Checker

theorem Check.prefer_has {first} (h : P first) (h' : P second) : P (prefer first second) := by
  unfold prefer
  split
  · exact h'
  · exact h

/-- What the branches of a conditional expression join to is one of them, or an option of one. -/
theorem Ty.Lasting.join? (hP : Ty.Lasting P) {first} (h : P first) (h' : P second) :
    ∀ type ∈ Check.join? first second, P type := by
  rw [Check.join?_eq]
  intro type htype
  split at htype
  · split at htype
    · cases htype
      exact hP.atom rfl rfl rfl
    · split at htype <;> cases htype
      exact hP.maybe h'
  · split at htype
    · split at htype <;> cases htype
      exact hP.maybe h
    · split at htype <;> cases htype
      exact Check.prefer_has h h'

namespace Check

variable {α : Type}

theorem State.AllTypes.enter {s : State} (h : s.AllTypes P) (kind : Scope.Kind) :
    State.AllTypes P { s with scopes := .empty kind :: s.scopes } :=
  ⟨forall_mem_cons.mpr ⟨Scope.allTypes_empty kind, h.1⟩, h.2⟩

/-! ## Walks -/

/-- What is fixed throughout a walk: a property of the tokens in the program, one of types that type
checking keeps, and a renaming of the variables, by which `k` more of them are taken. -/
structure Setting where
  token : Token → Prop
  type : Ty → Prop
  lasting : Ty.Lasting type
  π : Equiv.Perm Nat
  k : Nat

/-- What is known of the outcome of a walk, and what it is once variables are renamed. -/
structure Finding (α : Type) where
  holds : α → Prop
  rename : α → α

namespace Setting

variable (S : Setting)

abbrev nothing : Finding Unit := ⟨fun _ => True, id⟩

abbrev found : Finding Ty := ⟨S.type, Ty.rename S.π⟩

abbrev foundAll : Finding (List Ty) := ⟨fun types => ∀ t ∈ types, S.type t, map (Ty.rename S.π)⟩

abbrev found? : Finding (Option Ty) :=
  ⟨fun type => ∀ t ∈ type, S.type t, Option.map (Ty.rename S.π)⟩

abbrev bound : Finding Binding := ⟨fun binding => S.type binding.type, Binding.rename S.π⟩

theorem pair {S : Setting} {first : Ty} (h : S.type first) (h' : S.type second) :
    ∀ t ∈ [first, second], S.type t :=
  forall_mem_cons.mpr ⟨h, forall_mem_singleton.mpr h'⟩

/-- Where a walk may come to that binds such names. -/
structure Leads (b : Bool) (binds : Names) (s s' : State) : Prop where
  kept : Kept b binds s.scopes s'.scopes
  types : s'.AllTypes S.type
  /-- No number is taken twice. -/
  grows : s.nextVar ≤ s'.nextVar

/-- Why a walk may end early. -/
def Halts (s : State) : Halt → Prop
  | .refused refusal => S.token refusal.token ∧ (∀ t ∈ refusal.fault.types, S.type t) ∧
      ∀ name, refusal.fault = .undeclared name → lookup? s.scopes name = none
  | .endless type bindings => S.type type ∧ bindings.AllTypes S.type

/-- How a walk may end that has such declarations recorded where it ends well. -/
def Ends (ds : List Written) (Q : Finding α) (s : State) : EStateM.Result Halt State α → Prop
  | .ok a s' => Q.holds a ∧
      ∃ new, s'.recorded = new.reverse ++ s.recorded ∧ Forall₂ Written.Recorded ds new
  | .error halt s' => S.Halts s' halt

/-- **What a walk does.**  It binds only such names in the innermost scope, notes the type of an
answer only where that is said, and has recorded these declarations where it ends well; and the
second walk comes to the same from a state with renamed variables, of which `k` more are taken. -/
structure Walks (b : Bool) (binds : Names) (ds : List Written) (Q : Finding α) (w w' : Check α) :
    Prop where
  outcome : ∀ s, s.AllTypes S.type → S.Leads b binds s (final (w s)) ∧ S.Ends ds Q s (w s)
  same : ∀ s earlier, s.AllTypes S.type → Shifts S.π S.k s.nextVar (final (w s)).nextVar →
    w' (s.rename S.π S.k earlier) = renameResult S.π S.k Q.rename earlier (w s)

end Setting

open Setting

variable {S : Setting} {b : Bool} {binds : Names} {ds : List Written} {Q : Finding α}
  {w w' : Check α}

namespace Setting.Leads

variable {s : State}

theorem refl (h : s.AllTypes S.type) : S.Leads b binds s s := ⟨.refl _, h, le_rfl⟩

/-- One walk leads on from another. -/
theorem trans {s' s''} (h : S.Leads b binds s s') (h' : S.Leads b binds s' s'') :
    S.Leads b binds s s'' :=
  ⟨h.kept.trans h'.kept, h'.types, h.grows.trans h'.grows⟩

end Setting.Leads

namespace Setting.Walks

variable {β : Type} {R : Finding β} {s : State} {f f' : α → Check β}

/-- A walk that changes nothing. -/
theorem still (hstill : ∀ s, final (w s) = s) (hends : ∀ s, s.AllTypes S.type → S.Ends ds Q s (w s))
    (hsame : ∀ s earlier,
      w' (s.rename S.π S.k earlier) = renameResult S.π S.k Q.rename earlier (w s)) :
    S.Walks b binds ds Q w w' where
  outcome s hs := ⟨by rw [hstill]; exact .refl hs, hends s hs⟩
  same s earlier _ _ := hsame s earlier

theorem pure {a a'} (ha : Q.holds a) (h : a' = Q.rename a) :
    S.Walks b binds [] Q (Pure.pure a) (Pure.pure a') :=
  .still (fun _ => rfl) (fun _ _ => ⟨ha, [], rfl, .nil⟩) fun _ _ => by
    rw [h]
    rfl

/-- Only looking a name up finds that it is not declared; and a walk that never ends well has
recorded whatever one likes. -/
theorem refuse {token} {fault fault' : TypeFault} (ht : S.token token)
    (hdeclared : fault.isUndeclared = false) (hf : ∀ t ∈ fault.types, S.type t)
    (h : fault' = fault.rename S.π) :
    S.Walks b binds ds Q (Check.refuse token fault) (Check.refuse token fault') := by
  refine .still (fun _ => rfl) (fun s _ => ⟨ht, hf, ?_⟩) fun _ _ => by
    rw [h]
    rfl
  rintro name rfl
  cases hdeclared

theorem endless {bindings} (ht : S.type type) (hb : bindings.AllTypes S.type) :
    S.Walks b binds ds Q (throw (.endless type bindings))
      (throw (.endless (type.rename S.π) (bindings.rename S.π))) :=
  .still (fun _ => rfl) (fun _ _ => ⟨ht, hb⟩) fun _ _ => rfl

/-- A look at where the walk stands. -/
theorem see {g : State → α} (hg : ∀ s, s.AllTypes S.type → Q.holds (g s))
    (h : ∀ s earlier, g (s.rename S.π S.k earlier) = Q.rename (g s)) :
    S.Walks b binds [] Q (fun s => .ok (g s) s) fun s => .ok (g s) s :=
  .still (fun _ => rfl) (fun s hs => ⟨hg s hs, [], rfl, .nil⟩) fun s earlier => by
    rw [h]
    rfl

theorem fresh : S.Walks b binds [] S.found Check.fresh Check.fresh where
  outcome _ hs := ⟨⟨.refl _, hs, Nat.le_succ _⟩, S.lasting.fresh _, [], rfl, .nil⟩
  same s _ _ h := by
    have hnext : S.π s.nextVar = s.nextVar + S.k := h s.nextVar le_rfl (Nat.lt_succ_self _)
    simp [Check.fresh, renameResult, hnext, State.rename, Checker.rename]
    rw [Nat.add_right_comm]

/-- To look up a name, bound or not, is a walk. -/
theorem lookup {name} (h : S.token name) :
    S.Walks b binds [] S.bound (Check.lookup name) (Check.lookup name) := by
  refine .still (fun s => ?_) (fun s hs => ?_) fun s earlier => ?_
  · rcases lookup_cases name s with ⟨_, _, e⟩ | ⟨_, e⟩ <;> rw [e] <;> rfl
  · rcases lookup_cases name s with ⟨binding, hfound, e⟩ | ⟨hnone, e⟩ <;> rw [e]
    · exact ⟨hs.1.lookup? hfound, [], rfl, .nil⟩
    · refine ⟨h, forall_mem_nil _, ?_⟩
      rintro _ ⟨⟩
      exact hnone
  · have hmoved : lookup? (s.rename S.π S.k earlier).scopes name.lexeme = _ :=
      lookup?_rename S.π _ _
    rcases lookup_cases name (s.rename S.π S.k earlier) with ⟨_, h', e'⟩ | ⟨h', e'⟩ <;>
      rcases lookup_cases name s with ⟨_, h, e⟩ | ⟨h, e⟩ <;> rw [e, e'] <;> rw [h', h] at hmoved <;>
      cases hmoved <;> rfl

/-- To define a name is a walk that binds it. -/
theorem define {name} (binding : Binding) (hname : binds name binding.mutable)
    (h : S.type binding.type) :
    S.Walks b binds [] nothing (Check.define name binding)
      (Check.define name (binding.rename S.π)) where
  outcome s hs := ⟨⟨.define hname s.scopes, ⟨hs.1.define name h _, hs.2⟩, le_rfl⟩, trivial, [], rfl,
    .nil⟩
  same s _ _ _ := by
    obtain ⟨⟨scopes, nextVar⟩, recorded⟩ := s
    cases scopes <;> rfl

/-- To record a declaration is a walk that leaves it behind. -/
theorem record {name mutable written} (hwritten : ∀ t, written = some t → type = t.resolve)
    (h : S.type type) :
    S.Walks b binds [⟨name, mutable, written⟩] nothing (Check.record name mutable type)
      (Check.record name mutable (type.rename S.π)) where
  outcome _ hs := ⟨⟨.refl _, ⟨hs.1, forall_mem_cons.mpr ⟨h, hs.2⟩⟩, le_rfl⟩, trivial, [_], rfl,
    .cons ⟨rfl, rfl, rfl, hwritten⟩ .nil⟩
  same _ _ _ _ := rfl

/-- To note an answer is a walk that may answer. -/
theorem setAnswer (hb : b = true) (h : S.type type) :
    S.Walks b binds [] nothing (Check.setAnswer type) (Check.setAnswer (type.rename S.π)) where
  outcome s hs := ⟨⟨(Kept.setAnswerIn type s.scopes).mono (fun _ => hb) fun _ _ => False.elim,
    ⟨Checker.AllTypes.setAnswerIn h hs.1, hs.2⟩, le_rfl⟩, trivial, [], rfl, .nil⟩
  same s _ _ _ := by
    simp only [Check.setAnswer, renameResult, State.rename, Checker.rename, setAnswerIn_rename]

/-- **Walks follow on one another**, and what they declare is strung together. -/
theorem bind {ds'} (hw : S.Walks b binds ds Q w w')
    (hf : ∀ a, Q.holds a → S.Walks b binds ds' R (f a) (f' (Q.rename a))) :
    S.Walks b binds (ds ++ ds') R (w >>= f) (w' >>= f') where
  outcome s hs := by
    obtain ⟨hfirst, hends⟩ := hw.outcome s hs
    cases hr : w s with
    | error halt s' =>
      rw [hr] at hfirst hends
      rw [bind_error hr]
      exact ⟨hfirst, hends⟩
    | ok a s' =>
      rw [hr] at hfirst hends
      rw [bind_ok hr]
      obtain ⟨ha, new, hnew, hds⟩ := hends
      obtain ⟨hrest, hends⟩ := (hf a ha).outcome s' hfirst.types
      refine ⟨hfirst.trans hrest, ?_⟩
      cases hlast : f a s' with
      | error halt s'' =>
        rw [hlast] at hends
        exact hends
      | ok c s'' =>
        rw [hlast] at hends
        obtain ⟨hc, new', hnew', hds'⟩ := hends
        refine ⟨hc, new ++ new', ?_, rel_append hds hds'⟩
        rw [hnew', hnew, reverse_append, append_assoc]
  same s earlier hs h := by
    obtain ⟨hfirst, hends⟩ := hw.outcome s hs
    have hsame := hw.same s earlier hs
    cases hr : w s with
    | ok a s' =>
      rw [hr] at hfirst hends hsame
      rw [bind_ok hr] at h ⊢
      have hrest := hf a hends.1
      -- Both parts take their numbers from those that the whole takes, since numbers only grow.
      have hlater := (hrest.outcome s' hfirst.types).1.grows
      rw [bind_ok (hsame fun i hlo hhi => h i hlo (hhi.trans_le hlater))]
      exact hrest.same s' earlier hfirst.types fun i hlo hhi => h i (hfirst.grows.trans hlo) hhi
    | error e s' =>
      rw [hr] at hsame
      rw [bind_error hr] at h ⊢
      rw [bind_error (hsame h)]
      rfl

/-- A first step that records nothing. -/
theorem first (hw : S.Walks b binds [] Q w w')
    (hf : ∀ a, Q.holds a → S.Walks b binds ds R (f a) (f' (Q.rename a))) :
    S.Walks b binds ds R (w >>= f) (w' >>= f') := .bind hw hf

/-- A last step that records nothing. -/
theorem last (hw : S.Walks b binds ds Q w w')
    (hf : ∀ a, Q.holds a → S.Walks b binds [] R (f a) (f' (Q.rename a))) :
    S.Walks b binds ds R (w >>= f) (w' >>= f') := by
  simpa using hw.bind hf

theorem ite {c c' : Prop} [Decidable c] [Decidable c'] {v v'} (h : c' ↔ c)
    (hv : S.Walks b binds ds Q v v') (hw : S.Walks b binds ds Q w w') :
    S.Walks b binds ds Q (if c then v else w) (if c' then v' else w') := by
  by_cases hc : c
  · rwa [if_pos hc, if_pos (h.mpr hc)]
  · rwa [if_neg hc, if_neg (mt h.mp hc)]

theorem mono (h : S.Walks b binds ds Q w w') : S.Walks true anyName ds Q w w' where
  outcome s hs := by
    obtain ⟨hleads, hends⟩ := h.outcome s hs
    have hkept := hleads.kept.mono (fun _ => rfl) fun _ _ _ => trivial
    exact ⟨⟨hkept, hleads.types, hleads.grows⟩, hends⟩
  same := h.same

/-- An answer inside a function is not one outside of it. -/
theorem inScope {kind} (hkind : kind = .function ∨ b = true) (h : S.Walks true anyName ds Q w w') :
    S.Walks b binds ds Q (Check.inScope kind w) (Check.inScope kind w') where
  outcome s hs := by
    obtain ⟨hleads, hends⟩ := h.outcome _ (hs.enter kind)
    rw [inScope_eq, final_leave]
    refine ⟨⟨.tail hkind hleads.kept, ⟨fun scope hscope => ?_, hleads.types.2⟩, hleads.grows⟩, ?_⟩
    · exact hleads.types.1 scope (mem_of_mem_tail hscope)
    · cases hr : w { s with scopes := .empty kind :: s.scopes } with
      | ok a s' =>
        rw [hr] at hends
        exact hends
      | error halt s' =>
        rw [hr] at hends
        cases halt with
        | refused refusal =>
          exact ⟨hends.1, hends.2.1, fun name hname => lookup?_tail (hends.2.2 name hname)⟩
        | endless type bindings => exact hends
  same s earlier hs hshifts := by
    rw [inScope_eq, final_leave] at hshifts
    rw [inScope_eq, inScope_eq, renameResult_leave]
    exact congrArg leave (h.same _ earlier (hs.enter kind) hshifts)

/-! ### Rules -/

theorem innermost :
    S.Walks b binds [] ⟨Scope.AllTypes S.type, Scope.rename S.π⟩ Check.innermost Check.innermost :=
  .see (fun _ hs => hs.1.innermost) fun s _ => headD_rename S.π s.scopes

theorem function? :
    S.Walks b binds []
      ⟨fun scope => ∀ sc ∈ scope, sc.AllTypes S.type, Option.map (Scope.rename S.π)⟩
      Check.function? Check.function? :=
  .see (fun _ hs scope h => hs.1 scope (mem_of_find?_eq_some h)) fun _ _ => find?_map

section At

variable {token : Token} (htoken : S.token token)

include htoken

theorem require {holds holds'} {fault fault' : TypeFault} (hdeclared : fault.isUndeclared = false)
    (hf : ∀ t ∈ fault.types, S.type t) (h : holds' = holds) (hfault : fault' = fault.rename S.π) :
    S.Walks b binds [] nothing (Check.require holds token fault)
      (Check.require holds' token fault') :=
  .ite (by rw [h]) (.pure trivial rfl) (.refuse htoken hdeclared hf hfault)

theorem ensureNew : S.Walks b binds [] nothing (Check.ensureNew token) (Check.ensureNew token) :=
  .first .innermost fun scope _ => .ite (by rw [scope.declares_rename])
    (.refuse htoken rfl (forall_mem_nil _) rfl) (.pure trivial rfl)

theorem declare (binding : Binding) (hname : binds token.lexeme binding.mutable)
    (h : S.type binding.type) :
    S.Walks b binds [] nothing (Check.declare token binding)
      (Check.declare token (binding.rename S.π)) :=
  .first (.ensureNew htoken) fun _ _ => .define binding hname h

theorem lookupMutable :
    S.Walks b binds [] S.bound (Check.lookupMutable token) (Check.lookupMutable token) :=
  .first (.lookup htoken) fun _ hbound =>
    .first (.require htoken rfl (forall_mem_nil _) rfl rfl) fun _ _ => .pure hbound rfl

theorem ensureInFunction :
    S.Walks b binds [] nothing (Check.ensureInFunction token) (Check.ensureInFunction token) :=
  .first .function? fun _ _ => .ite (by rw [Option.isNone_map])
    (.refuse htoken rfl (forall_mem_nil _) rfl) (.pure trivial rfl)

section Types

variable (htype : S.type type)

include htype

theorem condition : S.Walks b binds [] nothing (Check.condition token type)
      (Check.condition token (type.rename S.π)) :=
  .require htoken rfl (forall_mem_singleton.mpr htype) (type.compatible_rename S.π .boolean) rfl

theorem numberOperand : S.Walks b binds [] nothing (Check.numberOperand token type)
      (Check.numberOperand token (type.rename S.π)) :=
  .require htoken rfl (forall_mem_singleton.mpr htype) (type.compatible_rename S.π .number) rfl

theorem booleanOperand : S.Walks b binds [] nothing (Check.booleanOperand token type)
      (Check.booleanOperand token (type.rename S.π)) :=
  .require htoken rfl (forall_mem_singleton.mpr htype) (type.compatible_rename S.π .boolean) rfl

theorem unary (op : UnaryOp) : S.Walks b binds [] S.found (Check.unary op token type)
      (Check.unary op token (type.rename S.π)) := by
  cases op with
  | negate =>
    exact .first (.numberOperand htoken htype) fun _ _ => .pure (S.lasting.atom rfl rfl rfl) rfl
  | not =>
    refine .first (.require htoken rfl (forall_mem_singleton.mpr htype) ?_ rfl) fun _ _ =>
      .pure (S.lasting.atom rfl rfl rfl) rfl
    exact type.compatible_rename S.π .boolean

theorem field :
    S.Walks b binds [] S.found (Check.field type token) (Check.field (type.rename S.π) token) := by
  cases type with
  | var id => exact .fresh
  | record fields =>
    simp [Check.field]
    cases hfield : fields.lookup token.lexeme with
    | none => exact .refuse htoken rfl (forall_mem_nil _) rfl
    | some type =>
      exact .pure (forall_mem_map.mp (S.lasting.child htype) _ (Ty.mem_of_lookup hfield)) rfl
  | list element => exact .refuse htoken rfl (forall_mem_nil _) rfl
  | _ => exact .refuse htoken rfl (forall_mem_singleton.mpr htype) rfl

theorem index {value value'} (h : S.Walks b binds ds S.found value value') :
    S.Walks b binds ds S.found (Check.index type token value)
      (Check.index (type.rename S.π) token value') := by
  cases type with
  | var id => exact h.last fun _ _ => .fresh
  | list element =>
    refine h.last fun index hindex =>
      .first (.require htoken rfl (forall_mem_singleton.mpr hindex) ?_ rfl) fun _ _ =>
        .pure (forall_mem_singleton.mp (S.lasting.child htype)) rfl
    exact index.compatible_rename S.π .number
  | record fields =>
    rw [Ty.rename_record]
    exact .refuse htoken rfl (forall_mem_nil _) rfl
  | _ => exact .refuse htoken rfl (forall_mem_singleton.mpr htype) rfl

/-- The rule of an answer is a walk that may answer. -/
theorem answer : S.Walks true binds [] nothing (Check.answer token type)
      (Check.answer token (type.rename S.π)) := by
  refine .first .function? fun scope hscope => ?_
  have hanswer : (scope.map (Scope.rename S.π)).bind (·.answer)
      = (scope.bind (·.answer)).map (Ty.rename S.π) := by
    cases scope <;> rfl
  rw [hanswer]
  cases h : scope.bind (·.answer) with
  | none => exact .setAnswer rfl htype
  | some earlier =>
    obtain ⟨sc, hsc, hearlier⟩ := Option.bind_eq_some_iff.mp h
    have hboth := Setting.pair ((hscope sc hsc).2 earlier hearlier) htype
    refine .first (.require htoken rfl hboth (earlier.compatible_rename S.π type) rfl) fun _ _ =>
      .ite ?_ (.setAnswer rfl htype) (.pure trivial rfl)
    simp

/-- The type of a declaration is the one written, if one is. -/
theorem declaredType (written : Option TypeExpr) : S.Walks b binds []
      ⟨fun t => S.type t ∧ ∀ e, written = some e → t = e.resolve, Ty.rename S.π⟩
      (Check.declaredType token written type)
      (Check.declaredType token written (type.rename S.π)) := by
  cases written with
  | none => exact .pure ⟨htype, fun _ h => by cases h⟩ rfl
  | some e =>
    have hwritten := e.rename_resolve S.π
    have hresolve := S.lasting.resolve e
    refine .first (.require htoken rfl (Setting.pair hresolve htype) ?_ ?_)
      fun _ _ => .pure ⟨hresolve, fun _ h => by cases h; rfl⟩ hwritten.symm
    · rw [← Ty.accepts_rename S.π e.resolve type, hwritten]
    · rw [TypeFault.rename, hwritten]

variable {other : Ty} (hother : S.type other)

include hother

/-- The rule of every operator with two operands is a walk. -/
theorem binary (op : BinaryOp) : S.Walks b binds [] S.found (Check.binary op token type other)
      (Check.binary op token (type.rename S.π) (other.rename S.π)) := by
  have hatom : ∀ {t : Ty}, t.isVar = false → t.isLink = false → t.children = [] → S.type t :=
    S.lasting.atom
  have hboth := Setting.pair htype hother
  have harith : S.Walks b binds [] S.found (Check.arithmetic token type other)
      (Check.arithmetic token (type.rename S.π) (other.rename S.π)) :=
    .first (.numberOperand htoken htype) fun _ _ => .first (.numberOperand htoken hother) fun _ _ =>
    .pure (hatom rfl rfl rfl) rfl
  cases op with
  | add =>
    refine .ite (by rw [isText_rename, isText_rename]) ?_ harith
    exact .first (.require htoken rfl hboth (congrArg₂ (· && ·) (type.compatible_rename S.π .text)
      (other.compatible_rename S.π .text)) rfl) fun _ _ => .pure (hatom rfl rfl rfl) rfl
  | subtract | multiply | divide | remainder => exact harith
  | less | lessEqual | greater | greaterEqual =>
    refine .first (.require htoken rfl hboth ?_ rfl) fun _ _ => .pure (hatom rfl rfl rfl) rfl
    simp
  | equal | notEqual =>
    exact .first (.require htoken rfl hboth (areComparable_rename S.π type other) rfl) fun _ _ =>
      .pure (hatom rfl rfl rfl) rfl
  | and | or =>
    exact .first (.booleanOperand htoken htype) fun _ _ =>
      .first (.booleanOperand htoken hother) fun _ _ => .pure (hatom rfl rfl rfl) rfl

theorem ternary : S.Walks b binds [] S.found (Check.ternary token type other)
      (Check.ternary token (type.rename S.π) (other.rename S.π)) := by
  unfold Check.ternary
  rw [join?_rename]
  cases h : join? type other with
  | none => exact .refuse htoken rfl (Setting.pair htype hother) rfl
  | some joined => exact .pure (S.lasting.join? htype hother joined h) rfl

end Types

theorem element {earlier} (hearlier : ∀ t ∈ earlier, S.type t) {later} (hlater : S.type later) :
    S.Walks b binds [] S.found (Check.element token earlier later)
      (Check.element token (earlier.map (Ty.rename S.π)) (later.rename S.π)) := by
  cases earlier with
  | none => exact .pure hlater rfl
  | some earlier =>
    have hearlier := hearlier earlier rfl
    exact .ite (by rw [Ty.compatible_rename])
      (.pure (prefer_has hearlier hlater) (prefer_rename S.π earlier later))
      (.refuse htoken rfl (Setting.pair hearlier hlater) rfl)

end At

theorem freshFor : ∀ names : List Token,
    S.Walks b binds [] S.foundAll (Check.freshFor names) (Check.freshFor names)
  | [] => .pure (forall_mem_nil _) rfl
  | _ :: later => .first .fresh fun _ hfirst => .first (freshFor later) fun _ hlater =>
    .pure (forall_mem_cons.mpr ⟨hfirst, hlater⟩) rfl

theorem ensureAssignable {object} (h : ∀ t ∈ root? object, S.token t) :
    S.Walks b binds [] nothing (Check.ensureAssignable object) (Check.ensureAssignable object) := by
  unfold Check.ensureAssignable
  cases hroot : root? object with
  | none => exact .pure trivial rfl
  | some root => exact .first (.lookupMutable (h root hroot)) fun _ _ => .pure trivial rfl

/-- The arguments of a call are compared alike after renaming. -/
theorem arguments : ∀ {parameters given} (number : Nat) {s : Subst},
    (∀ p ∈ parameters, S.type p) → (∀ g ∈ given, S.token g.1 ∧ S.type g.2) → s.AllTypes S.type →
    S.Walks b binds [] ⟨Subst.AllTypes S.type, Subst.rename S.π⟩
      (Check.arguments Ty.fit number parameters given s)
      (Check.arguments Ty.fit number (parameters.map (Ty.rename S.π)) (renameGiven S.π given)
        (s.rename S.π))
  | [], _, _, _, _, _, hs => by
    simp only [Check.arguments, map_nil]
    exact .pure hs rfl
  | _ :: _, [], _, _, _, _, hs => by
    simp only [Check.arguments, renameGiven, map_cons, map_nil]
    exact .pure hs rfl
  | parameter :: parameters, (anchor, argument) :: later, number, s, hparameters, hgiven, hs => by
    obtain ⟨hparameter, hparameters⟩ := forall_mem_cons.mp hparameters
    obtain ⟨⟨hanchor, hargument⟩, hlater⟩ := forall_mem_cons.mp hgiven
    have hfit := Ty.allTypes_fit S.lasting.child hargument hparameter hs
    simp only [Check.arguments, renameGiven, map_cons, Ty.fit_rename]
    cases hr : argument.fit parameter s with
    | fits s' =>
      rw [hr] at hfit
      exact arguments (number + 1) hparameters hlater hfit
    | clashes s' =>
      rw [hr] at hfit
      refine .refuse hanchor rfl (Setting.pair (hfit.applyTo S.lasting _ hparameter) hargument) ?_
      rw [Subst.apply_rename]
      rfl
    | endless type s' =>
      rw [hr] at hfit
      exact .endless hfit.1 hfit.2

/-- The rule of a call is a walk. -/
theorem call {paren} (hparen : S.token paren) {callee} (hcallee : S.type callee) {given}
    (hgiven : ∀ g ∈ given, S.token g.1 ∧ S.type g.2) :
    S.Walks b binds [] S.found (Check.call Ty.fit paren callee given)
      (Check.call Ty.fit paren (callee.rename S.π) (renameGiven S.π given)) := by
  unfold Check.call
  rw [Ty.signature?_rename]
  cases hsignature : callee.signature? with
  | none =>
    exact .ite (by rw [Ty.isVar_rename]) .fresh
      (.refuse hparen rfl (forall_mem_singleton.mpr hcallee) rfl)
  | some signature =>
    obtain ⟨parameters, result⟩ := signature
    obtain ⟨hparameters, hresult⟩ := S.lasting.signature? hcallee hsignature
    refine .first (.require hparen rfl (forall_mem_nil _)
      (arityMatches_rename S.π callee parameters given) ?_) fun _ _ =>
      .first (arguments 1 hparameters hgiven (forall_mem_nil _)) fun s hs =>
        .pure (hs.applyTo S.lasting _ hresult) (s.apply_rename S.π result)
    simp [TypeFault.rename, arity, renameGiven]

section Functions

variable {names : List Token} (hnames : ∀ t ∈ names, S.token t)

include hnames

theorem declareParameters {parameters} (h : ∀ t ∈ parameters, S.type t) :
    S.Walks b anyName [] nothing (Check.declareParameters names parameters)
      (Check.declareParameters names (parameters.map (Ty.rename S.π))) := by
  have hpairs : ∀ p ∈ names.zip parameters, S.token p.1 ∧ S.type p.2 := fun p hp =>
    ⟨hnames p.1 (of_mem_zip hp).1, h p.2 (of_mem_zip hp).2⟩
  unfold Check.declareParameters
  rw [zip_map_right]
  revert hpairs
  induction names.zip parameters with
  | nil => exact fun _ => .pure trivial rfl
  | cons first later ih =>
    intro hpairs
    obtain ⟨hfirst, hlater⟩ := forall_mem_cons.mp hpairs
    exact .first (.declare hfirst.1 ⟨false, first.2⟩ trivial hfirst.2) fun _ _ => ih hlater

variable {body body' : Check Unit} (hbody : S.Walks true anyName ds nothing body body')

include hbody

/-- The rule of a function is a walk: its parameters are bound inside it only. -/
theorem function {parameters} (h : ∀ t ∈ parameters, S.type t) :
    S.Walks b binds ds S.found (Check.function names parameters body)
      (Check.function names (parameters.map (Ty.rename S.π)) body') := by
  have hinside : S.Walks b binds ds S.found (Check.inScope .function do
      Check.declareParameters names parameters
      body
      return (← Check.innermost).answer.getD .nil) (Check.inScope .function do
      Check.declareParameters names (parameters.map (Ty.rename S.π))
      body'
      return (← Check.innermost).answer.getD .nil) := by
    refine .inScope (.inl rfl)
      (.first (.declareParameters hnames h) fun _ _ => hbody.last fun _ _ =>
      .first .innermost fun scope hscope => ?_)
    obtain ⟨kind, bindings, answer⟩ := scope
    cases answer with
    | none => exact .pure (S.lasting.atom rfl rfl rfl) rfl
    | some type => exact .pure (hscope.2 type rfl) rfl
  exact .last hinside fun result hresult =>
    .pure (S.lasting.function h hresult) (Ty.rename_function S.π parameters result).symm

/-- A function that is declared binds its own name around its body. -/
theorem functionDeclaration {name} (hname : S.token name) (hbinds : binds name.lexeme false) :
    S.Walks b binds (ds ++ [⟨name, false, none⟩]) nothing
      (Check.functionDeclaration name names body) (Check.functionDeclaration name names body') := by
  have hannounce : S.Walks b binds [] S.foundAll (announce name names) (announce name names) := by
    refine .first (.ensureNew hname) fun _ _ =>
      .first (.freshFor names) fun parameters hparameters => .first .fresh fun result hresult => ?_
    rw [← Ty.rename_function]
    exact .first (.define ⟨false, .function parameters result⟩ hbinds
      (S.lasting.function hparameters hresult)) fun _ _ => .pure hparameters rfl
  exact .first hannounce fun parameters hparameters =>
    .bind (.function hnames hbody hparameters) fun type htype =>
    .first (.define ⟨false, type⟩ hbinds htype) fun _ _ =>
    .record (fun _ h => by cases h) htype

end Functions

end Setting.Walks

/-! ## Expressions and statements -/

theorem every_root? {P} : ∀ {e}, e.Every P → ∀ t ∈ root? e, P t
  | .name token, h => by
    rintro _ ⟨⟩
    exact h
  | .get object _, h => every_root? (e := object) h.1
  | .group inner, h => every_root? (e := inner) h
  | .ternary .., _ | .binary .., _ | .literal .., _ | .unary .., _ | .assign .., _ | .call .., _
  | .set .., _ | .list .., _ | .record .., _ | .function .., _ => fun _ h => by cases h

/-- **What the walk over a tree does**: it binds the name that a statement declares, if any, and
records the declarations in the tree. -/
theorem walks (S : Setting) : Claim.Passes ⟨
    fun e => e.Every S.token → ∀ b binds, S.Walks b binds e.declarations S.found (e.checkBy Ty.fit)
      (e.checkBy Ty.fit),
    fun m => m.Every S.token → ∀ b binds {object}, S.type object → S.Walks b binds m.declarations
      S.found (m.checkBy Ty.fit object) (m.checkBy Ty.fit (object.rename S.π)),
    fun es => EveryExpr S.token es → ∀ b binds, S.Walks b binds (declarationsAll es)
        ⟨fun given => ∀ g ∈ given, S.token g.1 ∧ S.type g.2, renameGiven S.π⟩
        (checkArgumentsBy Ty.fit es) (checkArgumentsBy Ty.fit es) ∧
      ∀ {earlier}, (∀ t ∈ earlier, S.type t) → S.Walks b binds (declarationsAll es)
        S.found? (checkElementsBy Ty.fit earlier es)
        (checkElementsBy Ty.fit (earlier.map (Ty.rename S.π)) es),
    fun fields => EveryField S.token fields → ∀ b binds, S.Walks b binds (declarationsFields fields)
      ⟨fun types => ∀ f ∈ types, S.type f.2, Ty.renameFields S.π⟩
      (checkFieldsBy Ty.fit fields) (checkFieldsBy Ty.fit fields),
    fun st => st.Every S.token → S.Walks st.mayAnswer (declaredBy st) st.declarations nothing
      (st.checkBy Ty.fit) (st.checkBy Ty.fit),
    fun rest => rest.Every S.token → ∀ binds, S.Walks true binds rest.declarations nothing
      (rest.checkBy Ty.fit) (rest.checkBy Ty.fit),
    fun body => EveryStmt S.token body → S.Walks true anyName (declarationsIn body) nothing
      (checkStatementsBy Ty.fit body) (checkStatementsBy Ty.fit body)⟩ where
  ternary htest hconsequent halternative h _ _ :=
    .bind (htest h.2.1 _ _) fun _ htested => .first (.condition h.2.1.anchor htested) fun _ _ =>
    .bind (hconsequent h.2.2.1 _ _) fun _ hfirst =>
    .last (halternative h.2.2.2 _ _) fun _ hsecond => .ternary h.1 hfirst hsecond
  binary {op _ _ _} hleft hright h _ _ :=
    .bind (hleft h.2.1 _ _) fun _ hfirst =>
    .last (hright h.2.2 _ _) fun _ hsecond => .binary h.1 hfirst hsecond op
  literal {_ value} _ _ _ :=
    .pure (by cases value <;> exact S.lasting.atom rfl rfl rfl) (by cases value <;> rfl)
  unary {op _ _} hoperand h _ _ := .last (hoperand h.2 _ _) fun _ htype => .unary h.1 htype op
  name h _ _ := .last (.lookup h) fun _ hbound => .pure hbound rfl
  assign hvalue h _ _ := by
    refine .first (.lookupMutable h.1) fun binding hbound =>
      .last (hvalue h.2 _ _) fun type htype =>
      .first (.require h.1 rfl (pair htype hbound) ?_ rfl) fun _ _ => .pure htype rfl
    exact binding.type.accepts_rename S.π type
  call hcallee hgiven h _ _ :=
    .bind (hcallee h.2.1 _ _) fun _ hfirst =>
    .last (hgiven h.2.2 _ _).1 fun _ htypes => .call h.1 hfirst htypes
  get hobject hmember h _ _ := .bind (hobject h.1 _ _) fun _ htype => hmember h.2 _ _ htype
  set hobject hmember hvalue h _ _ := by
    refine .first (.ensureAssignable (every_root? h.1)) fun _ _ =>
      .bind (hobject h.1 _ _) fun _ hfirst => .bind (hmember h.2.1 _ _ hfirst) fun target htarget =>
      .last (hvalue h.2.2 _ _) fun type htype =>
      .first (.require h.2.1.anchor rfl (pair htype htarget) ?_ rfl) fun _ _ => .pure htype rfl
    exact target.accepts_rename S.π type
  list helements h _ _ := by
    refine .last ((helements h.2 _ _).2 fun _ h => by cases h) fun found hfound => ?_
    cases found with
    | none => exact .first .fresh fun _ htype => .pure (S.lasting.list htype) rfl
    | some type => exact .pure (S.lasting.list (hfound type rfl)) rfl
  record hfields h _ _ := .last (hfields h.2 _ _) fun types htypes =>
    .pure (S.lasting.record htypes) (Ty.rename_record S.π types).symm
  lambda {_ names _} hbody h _ _ := .first (.freshFor names) fun _ hparameters =>
    .function h.2.1 (hbody h.2.2) hparameters
  field h _ _ _ hobject := .field h hobject
  index hvalue h _ _ _ hobject := .index h.1 hobject (hvalue h.2 _ _)
  nilExprs _ _ _ := ⟨.pure (forall_mem_nil _) rfl, fun hearlier => .pure hearlier rfl⟩
  consExprs hfirst hlater h _ _ :=
    ⟨.bind (hfirst h.1 _ _) fun _ htype => .last (hlater h.2 _ _).1 fun _ htypes =>
        .pure (forall_mem_cons.mpr ⟨⟨h.1.anchor, htype⟩, htypes⟩) rfl,
      fun hearlier => .bind (hfirst h.1 _ _) fun _ hfound =>
        .first (.element h.1.anchor hearlier hfound) fun _ htype =>
        (hlater h.2 _ _).2 fun _ ht => Option.some.inj ht ▸ htype⟩
  nilFields _ _ _ := .pure (forall_mem_nil _) rfl
  consFields hvalue hlater h _ _ :=
    .bind (hvalue h.1.2 _ _) fun _ htype => .last (hlater h.2 _ _) fun _ htypes =>
      .pure (forall_mem_cons.mpr ⟨htype, htypes⟩) rfl
  expression hvalue h := .last (hvalue h _ _) fun _ _ => .pure trivial rfl
  block hbody h := .inScope (.inr rfl) (hbody h)
  branch htest hbody hrest h :=
    .bind (htest h.2.1 _ _) fun _ htested => .first (.condition h.2.1.anchor htested) fun _ _ =>
    .bind (.inScope (.inr rfl) (hbody h.2.2.1)) fun _ _ => hrest h.2.2.2 _
  loop htest hbody h :=
    .bind (htest h.2.1 _ _) fun _ htested => .first (.condition h.2.1.anchor htested) fun _ _ =>
      .inScope (.inr rfl) (hbody h.2.2)
  leave _ := .pure trivial rfl
  function hbody h := .functionDeclaration h.2.2.1 (hbody h.2.2.2) h.1 (if_pos rfl)
  bareAnswer h := .first (.ensureInFunction h) fun _ _ => .answer h (S.lasting.atom rfl rfl rfl)
  answer hvalue h := .first (.ensureInFunction h.1) fun _ _ =>
    .last (hvalue h.2 _ _) fun _ htype => .answer h.2.anchor htype
  declare {mutable _ written _} hvalue h :=
    .first (.ensureNew h.1) fun _ _ => .bind (hvalue h.2.2 _ _) fun _ hfound =>
    .first (.declaredType h.1 hfound written) fun type htype =>
    .first (.declare h.1 ⟨mutable, type⟩ (if_pos rfl) htype.1) fun _ _ => .record htype.2 htype.1
  nothing _ _ := .pure trivial rfl
  otherwise hbody h _ := .inScope (.inr rfl) (hbody h)
  elseIf htest hbody hrest h _ :=
    .bind (htest h.2.1 _ _) fun _ htested => .first (.condition h.2.1.anchor htested) fun _ _ =>
    .bind (.inScope (.inr rfl) (hbody h.2.2.1)) fun _ _ => hrest h.2.2.2 _
  nilBody _ := .pure trivial rfl
  consBody hfirst hlater h := .bind (hfirst h.1).mono fun _ _ => hlater h.2

/-! ## Tokens alone, and no more than the walk itself -/

/-- Nothing is asked of types. -/
def Setting.pointing (P : Token → Prop) (π : Equiv.Perm Nat) (k : Nat) : Setting :=
  ⟨P, fun _ => True, ⟨fun _ => trivial, fun _ _ _ => trivial, fun _ _ _ => trivial,
    fun _ _ => trivial, fun _ _ => trivial⟩, π, k⟩

namespace Setting.Walks

variable {T : Token → Prop} {π : Equiv.Perm Nat} {k : Nat} {a : α}

theorem allTypes_pointing (s : State) : s.AllTypes (pointing T π k).type :=
  ⟨fun _ _ => ⟨fun _ _ => trivial, fun _ _ => trivial⟩, fun _ _ => trivial⟩

variable (h : (pointing T π k).Walks b binds ds Q w w') {s s' : State}

include h

/-- **A walk keeps the open scopes but for the names that it binds**, however it ends. -/
theorem kept (s : State) : Kept b binds s.scopes (final (w s)).scopes :=
  (h.outcome s (allTypes_pointing s)).1.kept

/-- **A walk that ends well has recorded its declarations, in order.** -/
theorem recorded (hok : w s = .ok a s') :
    ∃ new, s'.recorded = new.reverse ++ s.recorded ∧ Forall₂ Written.Recorded ds new := by
  have hends := (h.outcome s (allTypes_pointing s)).2
  rw [hok] at hends
  exact hends.2

/-- A refusal points at a token of the tree, and an undeclared name is one not bound. -/
theorem refused {refusal : TypeRefusal} (herror : w s = .error (.refused refusal) s') :
    T refusal.token ∧ ∀ name, refusal.fault = .undeclared name → lookup? s'.scopes name = none := by
  have hends := (h.outcome s (allTypes_pointing s)).2
  rw [herror] at hends
  exact ⟨hends.1, hends.2.2⟩

/-- **The walk does not depend on the numbers of variables.** -/
theorem natural : Natural π k Q.rename w w' :=
  ⟨fun s => (h.outcome s (allTypes_pointing s)).1.grows,
    fun s earlier => h.same s earlier (allTypes_pointing s)⟩

end Setting.Walks

/-- Nothing is asked of tokens either. -/
abbrev Setting.plain (π : Equiv.Perm Nat) (k : Nat) : Setting := pointing (fun _ => True) π k

section

variable (π : Equiv.Perm Nat) (k : Nat)

theorem plain_expression (e : Expr) :
    (plain π k).Walks false noName e.declarations (plain π k).found (e.checkBy Ty.fit)
      (e.checkBy Ty.fit) :=
  (walks _).expr e ((tokenwise.expr e).all fun _ => trivial) _ _

theorem plain_statement (st : Stmt) :
    (plain π k).Walks st.mayAnswer (declaredBy st) st.declarations nothing (st.checkBy Ty.fit)
      (st.checkBy Ty.fit) :=
  (walks _).stmt st ((tokenwise.stmt st).all fun _ => trivial)

theorem plain_body (body : List Stmt) :
    (plain π k).Walks true anyName (declarationsIn body) nothing (checkStatementsBy Ty.fit body)
      (checkStatementsBy Ty.fit body) :=
  (walks _).body body ((tokenwise.body body).all fun _ => trivial)

end

/-- **An expression leaves the open scopes as they are**, however its check ends. -/
theorem scopes_expression (e : Expr) (s : State) : (final (e.checkBy Ty.fit s)).scopes = s.scopes :=
  ((plain_expression 1 0 e).kept s).eq

/-! ## Types alone -/

/-- Nothing is asked of tokens. -/
def Setting.typing {P : Ty → Prop} (hP : Ty.Lasting P) : Setting := ⟨fun _ => True, P, hP, 1, 0⟩

/-- A property holds of all types that a walk comes to, however it ends. -/
def AllTypes (P : Ty → Prop) (found : α → Prop) : EStateM.Result Halt State α → Prop
  | .ok a s => found a ∧ s.AllTypes P
  | .error (.refused refusal) s => (∀ t ∈ refusal.fault.types, P t) ∧ s.AllTypes P
  | .error (.endless type bindings) s => P type ∧ bindings.AllTypes P ∧ s.AllTypes P

section

variable {hP : Ty.Lasting P} {s : State}

/-- The types that a walk leaves are as those it began with. -/
theorem Setting.Walks.allTypes (h : (typing hP).Walks b binds ds Q w w') (hs : s.AllTypes P) :
    AllTypes P Q.holds (w s) := by
  obtain ⟨hleads, hends⟩ := h.outcome s hs
  have htypes := hleads.types
  cases hw : w s with
  | ok a s' =>
    rw [hw] at htypes hends
    exact ⟨hends.1, htypes⟩
  | error halt s' =>
    rw [hw] at htypes hends
    cases halt with
    | refused refusal => exact ⟨hends.2.1, htypes⟩
    | endless type bindings => exact ⟨hends.1, hends.2, htypes⟩

/-- **What holds of all types goes on to hold as an expression is walked over.** -/
theorem allTypes_expression (hP : Ty.Lasting P) (hs : s.AllTypes P) (e : Expr) :
    AllTypes P P (e.check s) := by
  have hwalks : (typing hP).Walks false noName e.declarations (typing hP).found _ _ :=
    (walks _).expr e ((tokenwise.expr e).all fun _ => trivial) _ _
  exact hwalks.allTypes hs

theorem allTypes_statement (hP : Ty.Lasting P) (hs : s.AllTypes P) (st : Stmt) :
    AllTypes P (fun _ => True) (st.check s) :=
  ((walks (typing hP)).stmt st ((tokenwise.stmt st).all fun _ => trivial)).allTypes hs

end

end Check

/-- A property holds of all types in a verdict. -/
def Verdict.AllTypes (P : Ty → Prop) (v : Verdict) : Prop :=
  (∀ d ∈ v.declarations, P d.type) ∧ ∀ r ∈ v.refusal, ∀ t ∈ r.fault.types, P t

namespace Ty.Lasting

variable (hP : Ty.Lasting P)

include hP

/-- Types without functions are put together in plain ways. -/
theorem of_linkless {t} (h : ∀ part ∈ t.parts, part.isLink = false) : P t := by
  induction t using induct_children with
  | step t ih =>
    obtain ⟨hlink, hchildren⟩ := forall_parts.mp h
    cases hvar : t.isVar with
    | true =>
      cases t with
      | var id => exact hP.fresh id
      | _ => cases hvar
    | false => exact hP.plain hvar hlink fun c hc => ih c hc (hchildren c hc)

theorem instantiate {builtin} (h : builtin ∈ Builtin.all) (next : Nat) :
    P (builtin.instantiate next).1 := by
  have hplain : ∀ b ∈ Builtin.all, ∀ t ∈ b.result :: b.parameters, ∀ part ∈ t.parts,
      part.isLink = false := by decide
  obtain ⟨hresult, hparameters⟩ := forall_mem_cons.mp (hplain builtin h)
  refine hP.mapVars ?_ fun _ _ => hP.fresh next
  exact hP.function (fun p hp => hP.of_linkless (hparameters p hp)) (hP.of_linkless hresult)

/-- The types of the builtins are among those that last. -/
theorem builtinScope : ∀ (builtins : List Builtin), (∀ b ∈ builtins, b ∈ Builtin.all) →
    ∀ {scope : Scope} (next : Nat), scope.AllTypes P → (builtins.foldl (fun (scope, next) builtin =>
        let (type, next) := Builtin.instantiate builtin next
        (scope.define builtin.name ⟨false, type⟩, next)) (scope, next)).1.AllTypes P
  | [], _, _, _, hscope => hscope
  | first :: later, h, _, next, hscope => by
    obtain ⟨hfirst, hlater⟩ := forall_mem_cons.mp h
    exact builtinScope later hlater _ (hscope.define first.name (hP.instantiate hfirst next))

theorem start : Checker.start.AllTypes P := by
  have hbuiltins := hP.builtinScope Builtin.all (fun _ h => h) 0 (Scope.allTypes_empty .global)
  exact forall_mem_cons.mpr ⟨Scope.allTypes_empty .global, forall_mem_singleton.mpr hbuiltins⟩

/-- So are the types of names declared in spite of a refusal. -/
theorem declareRefused {c : Checker} (hc : c.AllTypes P) (statement : Stmt) :
    (c.declareRefused statement).AllTypes P := by
  unfold Checker.declareRefused
  split
  · exact hc
  · split
    · exact hc
    · exact hc.define _ (hP.fresh _) _

/-- **What holds of all types goes on to hold behind a statement**, accepted or refused. -/
theorem checkStatement {c c' : Checker} {statement : Stmt} {verdict : Verdict} (hc : c.AllTypes P)
    (h : c.checkStatement statement = some (c', verdict)) :
    c'.AllTypes P ∧ verdict.AllTypes P := by
  have hall := Check.allTypes_statement hP (s := ⟨c, []⟩) ⟨hc, forall_mem_nil _⟩ statement
  rcases Checker.checkStatement_cases h with ⟨s, hs, rfl, rfl⟩ | ⟨refusal, s, hs, rfl, rfl⟩
  · rw [hs] at hall
    exact ⟨hall.2.1, fun d hd => hall.2.2 d (mem_reverse.mp hd), fun _ h => by cases h⟩
  · rw [hs] at hall
    obtain ⟨hfault, hc', hrecorded⟩ := hall
    refine ⟨hP.declareRefused hc' statement, fun d hd => hrecorded d (mem_reverse.mp hd), ?_⟩
    rintro _ ⟨⟩
    exact hfault

/-- **A property that lasts holds of all types in the check of a program.** -/
theorem check : ∀ {program : List Stmt} {c c' : Checker} {verdicts : List Verdict},
    c.AllTypes P → c.check program = some (c', verdicts) →
      c'.AllTypes P ∧ ∀ v ∈ verdicts, v.AllTypes P
  | [], _, _, _, hc, h => by
    cases h
    exact ⟨hc, forall_mem_nil _⟩
  | first :: later, _, _, _, hc, h => by
    obtain ⟨c₁, verdict, verdicts, hfirst, hlater, rfl⟩ := Checker.check_cons_eq_some h
    obtain ⟨hc₁, hverdict⟩ := hP.checkStatement hc hfirst
    obtain ⟨hc', hverdicts⟩ := check hc₁ hlater
    exact ⟨hc', forall_mem_cons.mpr ⟨hverdict, hverdicts⟩⟩

end Ty.Lasting

end Offside
