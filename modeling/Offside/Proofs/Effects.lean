import Offside.Proofs.Walk

/-!
# Proofs/Effects — what a walk may leave behind

A walk over a statement changes three things: it binds names in the innermost scope, it changes
scopes that it has opened itself, and it records declarations.  `Kept` says what becomes of the open
scopes where only such names are bound, and `Stmt.declarations` which declarations a statement has.
-/

namespace Offside

open List

/-! ## The declarations of a program -/

/-- A declaration as a program writes it. -/
structure Written where
  name : Token
  mutable : Bool
  /-- The type, where it is written too. -/
  type : Option TypeExpr

/-- What is recorded of a declaration: its name and place, whether it is mutable, and its type,
which is the written one if there is one. -/
structure Written.Recorded (w : Written) (d : Declaration) : Prop where
  name : d.name = w.name.lexeme
  position : d.position = w.name.position
  mutable : d.mutable = w.mutable
  type : ∀ t, w.type = some t → d.type = t.resolve

mutual

/-- The declarations inside an expression, in the order of evaluation. -/
def Expr.declarations : Expr → List Written
  | .ternary _ test consequent alternative =>
    test.declarations ++ (consequent.declarations ++ alternative.declarations)
  | .binary _ _ left right => left.declarations ++ right.declarations
  | .group inner => inner.declarations
  | .literal _ _ => []
  | .unary _ _ operand => operand.declarations
  | .name _ => []
  | .assign _ value => value.declarations
  | .call _ callee given => callee.declarations ++ declarationsAll given
  | .get object member => object.declarations ++ member.declarations
  | .set object member value =>
    object.declarations ++ (member.declarations ++ value.declarations)
  | .list _ elements => declarationsAll elements
  | .record _ fields => declarationsFields fields
  | .function _ _ body => declarationsIn body

/-- The declarations inside a member access. -/
def Member.declarations : Member → List Written
  | .field _ => []
  | .index _ index => index.declarations

/-- The declarations inside expressions. -/
def declarationsAll : List Expr → List Written
  | [] => []
  | first :: later => first.declarations ++ declarationsAll later

/-- The declarations inside the fields of a record. -/
def declarationsFields : List Field → List Written
  | [] => []
  | .mk _ value :: later => value.declarations ++ declarationsFields later

/-- The declarations of a statement: one that declares a name comes behind those inside it. -/
def Stmt.declarations : Stmt → List Written
  | .expression value => value.declarations
  | .block body => declarationsIn body
  | .branch _ test body rest =>
    test.declarations ++ (declarationsIn body ++ rest.declarations)
  | .loop _ test body => test.declarations ++ declarationsIn body
  | .leave _ => []
  | .function name _ _ body => declarationsIn body ++ [⟨name, false, none⟩]
  | .answer _ none => []
  | .answer _ (some value) => value.declarations
  | .declare mutable name type value => value.declarations ++ [⟨name, mutable, type⟩]

/-- The declarations inside what a conditional statement does where its condition fails. -/
def Otherwise.declarations : Otherwise → List Written
  | .nothing => []
  | .body body => declarationsIn body
  | .branch _ test body rest =>
    test.declarations ++ (declarationsIn body ++ rest.declarations)

/-- The declarations of statements in order. -/
def declarationsIn : List Stmt → List Written
  | [] => []
  | first :: later => first.declarations ++ declarationsIn later

end

/-- Whether a statement declares a name, and if so whether as a mutable one. -/
def Stmt.declares? (statement : Stmt) (x : String) : Option Bool :=
  match statement.declared? with
  | some (name, mutable) => if name.lexeme = x then some mutable else none
  | none => none

/-- Whether a statement may hold an answer of the function that it stands in. -/
def Stmt.mayAnswer : Stmt → Bool
  | .block _ | .branch .. | .loop .. | .answer .. => true
  | .expression _ | .leave _ | .function .. | .declare .. => false

namespace Check

/-! ## Scopes -/

/-- Names, each with whether it is mutable. -/
abbrev Names := String → Bool → Prop

/-- All names. -/
def anyName : Names := fun _ _ => True

/-- The name that a statement declares. -/
def declaredBy (statement : Stmt) : Names := fun x mutable =>
  statement.declares? x = some mutable

/-- No name. -/
def noName : Names := fun _ _ => False

/-- A scope once such names have been bound in it.  The type of answers may have changed, if answers
were noted and it is the scope of a function. -/
structure Extends (b : Bool) (binds : Names) (scope scope' : Scope) : Prop where
  kind : scope'.kind = scope.kind
  answer : b = false ∨ scope.kind ≠ .function → scope'.answer = scope.answer
  bindings : ∃ new, scope'.bindings = new ++ scope.bindings ∧ ∀ p ∈ new, binds p.1 p.2.mutable

namespace Extends

variable {b : Bool} {binds : Names} {scope scope' scope'' : Scope}

theorem refl (scope : Scope) : Extends b binds scope scope :=
  ⟨rfl, fun _ => rfl, [], rfl, fun _ h => absurd h not_mem_nil⟩

/-- What extends an extension extends. -/
theorem trans (h : Extends b binds scope scope') (h' : Extends b binds scope' scope'') :
    Extends b binds scope scope'' := by
  obtain ⟨new, hnew, hbinds⟩ := h.bindings
  obtain ⟨new', hnew', hbinds'⟩ := h'.bindings
  refine ⟨h'.kind.trans h.kind, fun hkind => ?_, new' ++ new, ?_, ?_⟩
  · rw [h'.answer (by rwa [h.kind]), h.answer hkind]
  · rw [hnew', hnew, append_assoc]
  · exact forall_mem_append.mpr ⟨hbinds', hbinds⟩

theorem mono (h : Extends b binds scope scope') {b' more} (hb : b = true → b' = true)
    (hmore : ∀ x m, binds x m → more x m) : Extends b' more scope scope' := by
  obtain ⟨new, hnew, hbinds⟩ := h.bindings
  refine ⟨h.kind, fun hkind => h.answer (hkind.imp_left fun hb' => ?_), new, hnew, fun p hp =>
    hmore _ _ (hbinds p hp)⟩
  cases b with
  | true => exact absurd (hb rfl) (by simp [hb'])
  | false => rfl

/-- What a name is bound to is kept, unless it was bound. -/
theorem get?_cases (h : Extends b binds scope scope') (x : String) :
    scope'.get? x = scope.get? x ∨ ∃ b, scope'.get? x = some b ∧ binds x b.mutable := by
  obtain ⟨new, hnew, hbinds⟩ := h.bindings
  rw [Scope.get?, Scope.get?, hnew, lookup_append]
  cases hx : new.lookup x with
  | none => exact .inl rfl
  | some b =>
    obtain ⟨before, after, hsplit, -⟩ := lookup_eq_some_iff.mp hx
    exact .inr ⟨b, rfl, hbinds (x, b) (by simp [hsplit])⟩

/-- A scope stays as it is where no name is bound and no answer noted. -/
theorem eq (h : Extends b noName scope scope') (hkind : b = false ∨ scope.kind ≠ .function) :
    scope' = scope := by
  obtain ⟨new, hnew, hbinds⟩ := h.bindings
  obtain rfl : new = [] := eq_nil_iff_forall_not_mem.mpr hbinds
  obtain ⟨kind, bindings, answer⟩ := scope
  obtain ⟨kind', bindings', answer'⟩ := scope'
  simp only [Scope.mk.injEq]
  exact ⟨h.kind, hnew, h.answer hkind⟩

end Extends

/-- The open scopes of a walk that binds such names: the innermost one has more of them, and those
around it have none; those around a function have not changed at all. -/
inductive Kept (b : Bool) : Names → List Scope → List Scope → Prop
  | nil {binds} : Kept b binds [] []
  | cons {binds scope scope' outer outer'} (h : Extends b binds scope scope')
    (houter : Kept b noName outer outer') (hsame : scope.kind = .function → outer' = outer) :
    Kept b binds (scope :: outer) (scope' :: outer')

namespace Kept

variable {b : Bool} {binds : Names} {scopes scopes' scopes'' : List Scope}

theorem refl : ∀ {binds} (scopes : List Scope), Kept b binds scopes scopes
  | _, [] => .nil
  | _, scope :: outer => .cons (.refl scope) (refl outer) fun _ => rfl

theorem trans (h : Kept b binds scopes scopes') (h' : Kept b binds scopes' scopes'') :
    Kept b binds scopes scopes'' := by
  induction h generalizing scopes'' with
  | nil => exact h'
  | cons h _ hsame ih =>
    cases h' with
    | cons h' houter' hsame' =>
      exact .cons (h.trans h') (ih houter') fun hkind =>
        (hsame' (h.kind.trans hkind)).trans (hsame hkind)

theorem mono {b' more} (h : Kept b binds scopes scopes') (hb : b = true → b' = true)
    (hmore : ∀ x m, binds x m → more x m) : Kept b' more scopes scopes' := by
  induction h generalizing more with
  | nil => exact .nil
  | cons h _ hsame ih => exact .cons (h.mono hb hmore) (ih fun _ _ hx => hx) hsame

/-- To note an answer keeps the scopes, but for the answer. -/
theorem setAnswerIn (type : Ty) : ∀ scopes : List Scope,
    Kept true noName scopes (setAnswerIn type scopes)
  | [] => .nil
  | scope :: outer => by
    rw [Check.setAnswerIn]
    split
    · next hkind =>
      refine .cons ⟨rfl, fun h => absurd hkind (h.resolve_left nofun), [], rfl, ?_⟩ (.refl outer)
        fun _ => rfl
      exact fun _ h => absurd h not_mem_nil
    · next hkind => exact .cons (.refl scope) (setAnswerIn type outer) fun h => absurd h hkind

/-- To define a name keeps every other name. -/
theorem define {name binding} (h : binds name binding.mutable) :
    ∀ scopes : List Scope, Kept b binds scopes (scopes.modifyHead (·.define name binding))
  | [] => .nil
  | _ :: outer =>
    .cons ⟨rfl, fun _ => rfl, [(name, binding)], rfl, forall_mem_singleton.mpr h⟩
      (.refl outer) fun _ => rfl

/-- What becomes of the scopes around one that is left again. -/
theorem tail {kind} (hkind : kind = .function ∨ b = true)
    (h : Kept true anyName (.empty kind :: scopes) scopes') : Kept b binds scopes scopes'.tail := by
  cases h with
  | cons _ houter hsame =>
    rcases hkind with rfl | rfl
    · rw [tail_cons, hsame rfl]
      exact .refl scopes
    · exact houter.mono (fun _ => rfl) fun _ _ => False.elim

/-- Where no name is bound and no answer noted the scopes stay as they are. -/
theorem eq (h : Kept false noName scopes scopes') : scopes' = scopes := by
  induction scopes generalizing scopes' with
  | nil => cases h; rfl
  | cons scope outer ih =>
    cases h with
    | cons h houter => rw [h.eq (.inl rfl), ih houter]

end Kept

theorem lookup?_tail {name scopes} (h : lookup? scopes name = none) :
    lookup? scopes.tail name = none := by
  rw [lookup?, findSome?_eq_none_iff] at h ⊢
  exact fun scope hscope => h scope (mem_of_mem_tail hscope)

end Check

end Offside
