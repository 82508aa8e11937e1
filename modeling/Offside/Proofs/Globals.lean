import Offside.Proofs.Conduct
import Offside.Token.Scan

/-!
# Proofs/Globals — the scopes between two statements

Whatever becomes of the statements at the top, two scopes are open between them, that of the program
inside that of the builtin functions (`Stands`).  A statement adds the name that it declares, if
that is new, and changes nothing else (`gains_checkStatement`): a statement that is refused halfway
through adds it like one that is accepted.

So the scope of the program holds the names of all declarations so far, each as its first
declaration has made it, and none of them is ever refused as not declared (`globals_of_check`).
-/

namespace Offside

open List

/-- Whether the first of these statements that declares a name makes it mutable. -/
def firstDeclared? (statements : List Stmt) (x : String) : Option Bool :=
  statements.findSome? (·.declares? x)

variable {statement : Stmt} {x : String}

theorem Stmt.declares?_of_declared? {name mutable} (h : statement.declared? = some (name, mutable))
    (x : String) : statement.declares? x = if name.lexeme = x then some mutable else none := by
  simp [declares?, h]

theorem Stmt.isSome_declares?_iff : (statement.declares? x).isSome ↔
      ∃ name mutable, statement.declared? = some (name, mutable) ∧ name.lexeme = x := by
  cases h : statement.declared? with
  | none => simp [declares?, h]
  | some d => simp [declares?, h, Prod.ext_iff]

theorem isSome_firstDeclared?_iff {statements} :
    (firstDeclared? statements x).isSome ↔ ∃ statement ∈ statements,
      ∃ name mutable, statement.declared? = some (name, mutable) ∧ name.lexeme = x := by
  simp only [firstDeclared?, findSome?_isSome_iff, Stmt.isSome_declares?_iff]

theorem Stmt.declares?_of_none (h : statement.declared? = none) (x : String) :
    statement.declares? x = none := by
  simp [declares?, h]

namespace Checker

open Check (final declaredBy Extends ok_of_bind plain_statement)

variable {c c' : Checker} {global : Scope} {verdict : Verdict} {name : Token} {mutable : Bool}

/-! ## One statement -/

/-- The open scopes between two statements: that of the program inside that of the builtin
functions. -/
structure Stands (c : Checker) (global : Scope) : Prop where
  scopes : c.scopes = [global, (builtinScope 0).1]
  kind : global.kind = .global

theorem stands_start : Stands start (.empty .global) := ⟨rfl, rfl⟩

/-- The scope of the program once such names have been declared: those that it held are bound as
before, and the others are there if they were declared. -/
structure Gains (declares : String → Option Bool) (global global' : Scope) : Prop where
  kept : ∀ x b, global.get? x = some b → global'.get? x = some b
  added : ∀ x, global.get? x = none → (global'.get? x).map (·.mutable) = declares x

namespace Gains

variable {global' : Scope} {declares : String → Option Bool}

theorem trans {global'' declares'} (h : Gains declares global global')
    (h' : Gains declares' global' global'') :
    Gains (fun x => (declares x).or (declares' x)) global global'' := by
  refine ⟨fun x b hx => h'.kept x b (h.kept x b hx), fun x hx => ?_⟩
  have hadded := h.added x hx
  cases hx' : global'.get? x with
  | none => simp [← hadded, hx', h'.added x hx']
  | some b => simp [← hadded, hx', h'.kept x b hx']

/-- Nothing changes if what is declared is there already. -/
theorem refl (h : ∀ x, global.get? x = none → declares x = none) : Gains declares global global :=
  ⟨fun _ _ hx => hx, fun x hx => by simp [hx, h x hx]⟩

/-- A new name is bound. -/
theorem of_new (hdeclared : statement.declared? = some (name, mutable))
    (hnew : global.get? name.lexeme = none)
    (hother : ∀ x, x ≠ name.lexeme → global'.get? x = global.get? x)
    (hbound : (global'.get? name.lexeme).map (·.mutable) = some mutable) :
    Gains statement.declares? global global' := by
  refine ⟨fun x b hx => ?_, fun x hx => ?_⟩
  · rw [hother x fun e => by simp [e, hnew] at hx, hx]
  · rw [Stmt.declares?_of_declared? hdeclared]
    by_cases e : name.lexeme = x
    · rw [← e, hbound, if_pos rfl]
    · simp [e, hother x (Ne.symm e), hx]

theorem declares_of_isSome (h : Gains declares global global')
    (hx : (declares x).isSome) : global'.get? x ≠ none := by
  intro hnone
  cases hglobal : global.get? x with
  | none => simp [← h.added x hglobal, hnone] at hx
  | some b => simp [h.kept x b hglobal] at hnone

end Gains

/-- Wherever the walk over a statement ends, the scope of the program has more names at most. -/
theorem Stands.walk (h : Stands c global) (statement : Stmt) :
    ∃ global', (final (statement.check ⟨c, []⟩)).scopes = [global', (builtinScope 0).1] ∧
      Extends statement.mayAnswer (declaredBy statement) global global' := by
  have hkept := (plain_statement 1 0 statement).kept ⟨c, []⟩
  rw [h.scopes] at hkept
  change Check.Kept _ _ _ (final (statement.check ⟨c, []⟩)).scopes at hkept
  generalize (final (statement.check ⟨c, []⟩)).scopes = scopes at hkept
  cases hkept with
  | cons hglobal houter =>
    cases houter with
    | cons hbuiltins hnil =>
      cases hnil
      obtain rfl := hbuiltins.eq (.inr Scope.Kind.noConfusion)
      exact ⟨_, rfl, hglobal⟩

/-- A name that is declared already is refused at once. -/
theorem check_of_declared {s} (hdeclared : statement.declared? = some (name, mutable))
    (h : (s.scopes.headD (.empty .global)).declares name.lexeme = true) :
    statement.check s = .error (.refused ⟨name, .duplicateDeclaration name.lexeme⟩) s := by
  have hinnermost : Check.innermost s = .ok (s.scopes.headD (.empty .global)) s := rfl
  have hnew : Check.ensureNew name s
      = .error (.refused ⟨name, .duplicateDeclaration name.lexeme⟩) s := by
    rw [Check.ensureNew, Check.bind_ok hinnermost, if_pos h]
    rfl
  unfold Stmt.check
  cases statement with
  | declare _ n written value =>
    cases hdeclared
    rw [Stmt.checkBy]
    exact Check.bind_error hnew
  | function n keyword names body =>
    cases hdeclared
    rw [Stmt.checkBy]
    exact Check.bind_error (Check.bind_error hnew)
  | _ => cases hdeclared

/-- A statement that is accepted has bound its name. -/
theorem bound_of_check {s s'} (hdeclared : statement.declared? = some (name, mutable))
    (h : statement.check s = .ok () s') :
    ∃ (scopes : List Scope) (type : Ty),
      s'.scopes = scopes.modifyHead (·.define name.lexeme ⟨mutable, type⟩) := by
  unfold Stmt.check at h
  cases statement with
  | declare _ n written value =>
    cases hdeclared
    rw [Stmt.checkBy] at h
    obtain ⟨_, _, _, h⟩ := ok_of_bind h
    obtain ⟨_, _, _, h⟩ := ok_of_bind h
    obtain ⟨type, _, _, h⟩ := ok_of_bind h
    obtain ⟨_, _, hdeclare, h⟩ := ok_of_bind h
    obtain ⟨_, t, _, hdefine⟩ := ok_of_bind hdeclare
    cases hdefine
    cases h
    exact ⟨t.scopes, type, rfl⟩
  | function n keyword names body =>
    cases hdeclared
    rw [Stmt.checkBy] at h
    obtain ⟨_, _, _, h⟩ := ok_of_bind h
    obtain ⟨type, t, _, h⟩ := ok_of_bind h
    obtain ⟨_, _, hdefine, h⟩ := ok_of_bind h
    cases hdefine
    cases h
    exact ⟨t.scopes, type, rfl⟩
  | _ => cases hdeclared

theorem declareRefused_of_none (h : statement.declared? = none) :
    c.declareRefused statement = c := by
  simp [declareRefused, h]

/-- The name of a refused statement is declared, unless it is there. -/
theorem scopes_declareRefused (hdeclared : statement.declared? = some (name, mutable)) {outer}
    (h : c.scopes = global :: outer) :
    (c.declareRefused statement).scopes =
      if global.declares name.lexeme then global :: outer
      else global.define name.lexeme ⟨mutable, .var c.nextVar⟩ :: outer := by
  simp only [declareRefused, hdeclared, h, headD_cons]
  split <;> simp [h]

section

variable (hc : Stands c global) (h : c.checkStatement statement = some (c', verdict))
include hc h

/-- A statement that declares nothing leaves the scopes as they are. -/
theorem scopes_checkStatement_of_none (hdeclared : statement.declared? = none) :
    c'.scopes = c.scopes := by
  obtain ⟨global₁, hscopes, hext⟩ := hc.walk statement
  obtain rfl : global₁ = global := by
    refine (hext.mono id fun x m hx => ?_).eq (by simp [hc.kind])
    simp [declaredBy, Stmt.declares?_of_none hdeclared x] at hx
  rw [hc.scopes]
  rcases checkStatement_cases h with ⟨s, hok, rfl, -⟩ | ⟨refusal, s, herror, rfl, -⟩
  · simpa [hok, final] using hscopes
  · simpa [herror, final, declareRefused_of_none hdeclared] using hscopes

/-- So does one that declares a name which is there already. -/
theorem scopes_checkStatement_of_declared (hdeclared : statement.declared? = some (name, mutable))
    (hthere : global.declares name.lexeme = true) : c'.scopes = c.scopes := by
  have herror := check_of_declared (s := ⟨c, []⟩) hdeclared (by simpa [hc.scopes] using hthere)
  rcases checkStatement_cases h with ⟨s, hok, -⟩ | ⟨refusal, s, herror', rfl, -⟩
  · simp [herror] at hok
  · obtain ⟨-, rfl⟩ : _ ∧ _ = s := by simpa [herror] using herror'
    rw [scopes_declareRefused hdeclared hc.scopes, if_pos hthere, hc.scopes]

/-- A statement that declares a new name binds it. -/
theorem gains_of_new (hdeclared : statement.declared? = some (name, mutable))
    (hnew : global.get? name.lexeme = none) :
    ∃ global', Stands c' global' ∧ Gains statement.declares? global global' := by
  obtain ⟨global₁, hscopes, hext⟩ := hc.walk statement
  have hkind : global₁.kind = .global := hext.kind.trans hc.kind
  have hdeclares := Stmt.declares?_of_declared? hdeclared
  have hother : ∀ x, x ≠ name.lexeme → global₁.get? x = global.get? x := fun x hx =>
    (hext.get?_cases x).resolve_right fun ⟨b, _, hb⟩ => by
      simp [declaredBy, hdeclares, Ne.symm hx] at hb
  rcases checkStatement_cases h with ⟨s, hok, rfl, -⟩ | ⟨refusal, s, herror, rfl, -⟩
  · -- the walk has bound the name at its end
    have hs : s.scopes = [global₁, (builtinScope 0).1] := by simpa [hok, final] using hscopes
    obtain ⟨scopes, type, hbound⟩ := bound_of_check hdeclared hok
    refine ⟨global₁, ⟨hs, hkind⟩, .of_new hdeclared hnew hother ?_⟩
    cases scopes with
    | nil => simp [hs] at hbound
    | cons scope outer =>
      obtain ⟨rfl, -⟩ : global₁ = _ ∧ _ := by simpa [hs] using hbound
      simp
  · have hs : s.scopes = [global₁, (builtinScope 0).1] := by simpa [herror, final] using hscopes
    have hrefused := scopes_declareRefused hdeclared hs
    cases hbound : global₁.get? name.lexeme with
    | none =>
      rw [if_neg (by simp [Scope.declares, hbound])] at hrefused
      refine ⟨_, ⟨hrefused, hkind⟩, .of_new hdeclared hnew (fun x hx => ?_) ?_⟩
      · simp [if_neg hx, hother x hx]
      · simp
    | some b =>
      -- the name of a function is bound before the walk over its body
      rw [if_pos (by simp [Scope.declares, hbound])] at hrefused
      refine ⟨global₁, ⟨hrefused, hkind⟩, .of_new hdeclared hnew hother ?_⟩
      rcases hext.get?_cases name.lexeme with hsame | ⟨b', hb', hmutable⟩
      · simp [hsame, hnew] at hbound
      · obtain rfl : b = b' := by simpa [hbound] using hb'
        simpa [declaredBy, hdeclares, hbound, eq_comm] using hmutable

/-- **A statement adds the name that it declares to the scope of the program, if that is new**,
whether it is accepted or refused; nothing else changes. -/
theorem gains_checkStatement :
    ∃ global', Stands c' global' ∧ Gains statement.declares? global global' := by
  cases hdeclared : statement.declared? with
  | none =>
    have hscopes := scopes_checkStatement_of_none hc h hdeclared
    exact ⟨global, ⟨hscopes.trans hc.scopes, hc.kind⟩,
      .refl fun x _ => Stmt.declares?_of_none hdeclared x⟩
  | some d =>
    obtain ⟨name, mutable⟩ := d
    cases hglobal : global.get? name.lexeme with
    | none => exact gains_of_new hc h hdeclared hglobal
    | some b =>
      have hthere : global.declares name.lexeme = true := by simp [Scope.declares, hglobal]
      have hscopes := scopes_checkStatement_of_declared hc h hdeclared hthere
      refine ⟨global, ⟨hscopes.trans hc.scopes, hc.kind⟩, .refl fun x hx => ?_⟩
      rw [Stmt.declares?_of_declared? hdeclared, if_neg fun e => by simp [e, hx] at hglobal]

/-- **A name that is refused as not declared is not in the scope of the program.** -/
theorem get?_eq_none_of_undeclared {token}
    (hrefusal : verdict.refusal = some ⟨token, .undeclared x⟩) : global.get? x = none := by
  rcases checkStatement_cases h with ⟨s, -, -, rfl⟩ | ⟨refusal, s, herror, -, rfl⟩
  · simp at hrefusal
  · obtain rfl : refusal = _ := Option.some.inj hrefusal
    obtain ⟨global₁, hscopes, hext⟩ := hc.walk statement
    have hnone := ((plain_statement 1 0 statement).refused herror).2 x rfl
    have hs : s.scopes = [global₁, (builtinScope 0).1] := by simpa [herror, final] using hscopes
    rw [hs, lookup?, findSome?_eq_none_iff] at hnone
    rcases hext.get?_cases x with hsame | ⟨b, hb, -⟩
    · exact hsame.symm.trans (hnone global₁ mem_cons_self)
    · simp [hnone global₁ mem_cons_self] at hb

end

/-! ## Programs -/

theorem firstDeclared?_cons (first : Stmt) (later : List Stmt) :
    firstDeclared? (first :: later) = fun x => (first.declares? x).or (firstDeclared? later x) := by
  funext x
  rw [firstDeclared?, findSome?_cons]
  cases first.declares? x <;> rfl

section

variable {program : List Stmt} {verdicts : List Verdict} (hc : Stands c global)
  (h : c.check program = some (c', verdicts))
include hc h

/-- **The scope of the program gains the names of all declarations.** -/
theorem gains_check :
    ∃ global', Stands c' global' ∧ Gains (firstDeclared? program) global global' := by
  induction program generalizing c global verdicts with
  | nil =>
    cases h
    exact ⟨global, hc, .refl fun _ _ => rfl⟩
  | cons first later ih =>
    obtain ⟨c₁, verdict, verdicts₁, hfirst, hlater, rfl⟩ := check_cons_eq_some h
    obtain ⟨global₁, hc₁, hgains⟩ := gains_checkStatement hc hfirst
    obtain ⟨global₂, hc₂, hgains'⟩ := ih hc₁ hlater
    refine ⟨global₂, hc₂, ?_⟩
    rw [firstDeclared?_cons]
    exact hgains.trans hgains'

/-- **No statement is refused for a name that the scope of the program holds.** -/
theorem get?_eq_none_of_mem :
    ∀ v ∈ verdicts, ∀ token x, v.refusal = some ⟨token, .undeclared x⟩ → global.get? x = none := by
  induction program generalizing c global verdicts with
  | nil =>
    cases h
    simp
  | cons first later ih =>
    obtain ⟨c₁, verdict, verdicts₁, hfirst, hlater, rfl⟩ := check_cons_eq_some h
    obtain ⟨global₁, hc₁, hgains⟩ := gains_checkStatement hc hfirst
    rw [forall_mem_cons]
    refine ⟨fun token x hx => get?_eq_none_of_undeclared hc hfirst hx, fun v hv token x hx => ?_⟩
    have hnone := ih hc₁ hlater v hv token x hx
    cases hglobal : global.get? x with
    | none => rfl
    | some b => simp [hgains.kept x b hglobal] at hnone

/-- A statement is not refused for a name that an earlier one declares. -/
theorem pairwise_check :
    (program.zip verdicts).Pairwise fun earlier later => ∀ x, (earlier.1.declares? x).isSome →
      ∀ token, later.2.refusal ≠ some ⟨token, .undeclared x⟩ := by
  induction program generalizing c global verdicts with
  | nil => simp
  | cons first later ih =>
    obtain ⟨c₁, verdict, verdicts₁, hfirst, hlater, rfl⟩ := check_cons_eq_some h
    obtain ⟨global₁, hc₁, hgains⟩ := gains_checkStatement hc hfirst
    rw [zip_cons_cons, pairwise_cons]
    refine ⟨fun p hp x hx token hrefusal => ?_, ih hc₁ hlater⟩
    have hnone := get?_eq_none_of_mem hc₁ hlater p.2 (of_mem_zip hp).2 token x hrefusal
    exact hgains.declares_of_isSome hx hnone

omit hc in
theorem length_check : verdicts.length = program.length := by
  induction program generalizing c verdicts with
  | nil =>
    cases h
    rfl
  | cons first later ih =>
    obtain ⟨c₁, verdict, verdicts₁, hfirst, hlater, rfl⟩ := check_cons_eq_some h
    simp [ih hlater]

end

/-! ## Programs one after another -/

/-- Checks programs one after another. `none` if the check of one of them has no end. -/
def checkInTurn (c : Checker) : List (List Stmt) → Option (Checker × List (List Verdict))
  | [] => some (c, [])
  | program :: later => do
    let (c, verdicts) ← c.check program
    let (c, rest) ← c.checkInTurn later
    return (c, verdicts :: rest)

/-- **Programs are checked one after another as their statements are in one program.** -/
theorem check_flatten : ∀ {programs : List (List Stmt)} {c c' : Checker}
    {verdicts : List (List Verdict)}, c.checkInTurn programs = some (c', verdicts) →
      c.check programs.flatten = some (c', verdicts.flatten)
  | [], c, c', verdicts, h => by
    cases h
    rfl
  | program :: later, c, c', verdicts, h => by
    obtain ⟨⟨c₁, verdicts₁⟩, hfirst, hrest⟩ := Option.bind_eq_some_iff.mp h
    obtain ⟨⟨c₂, verdicts₂⟩, hlater, hlast⟩ := Option.bind_eq_some_iff.mp hrest
    cases hlast
    rw [flatten_cons, flatten_cons, check_append, hfirst, Option.bind_some, check_flatten hlater]
    rfl

/-- **The scopes between statements hold what was declared at the top, whatever was refused.**
However many programs one checker has checked, the scope of the program is the innermost one and
that of the builtin functions is as it was.  The program's holds the names of all declarations so
far, each as mutable as its first declaration makes it, and whatever is checked later leaves those
bindings as they are.  No statement is refused as using a name that is not declared where an earlier
one declares it. -/
theorem globals_of_check {programs : List (List Stmt)} {c : Checker}
    {verdicts : List (List Verdict)} (h : start.checkInTurn programs = some (c, verdicts)) :
    (∃ global, c.scopes = [global, (builtinScope 0).1] ∧ global.kind = .global ∧
      (∀ x, global.declares x = true ↔ ∃ statement ∈ programs.flatten, ∃ name mutable,
        statement.declared? = some (name, mutable) ∧ name.lexeme = x) ∧
      (∀ x, (global.get? x).map (·.mutable) = firstDeclared? programs.flatten x) ∧
      ∀ more c' verdicts', c.checkInTurn more = some (c', verdicts') →
        ∃ global', c'.scopes = [global', (builtinScope 0).1] ∧
          ∀ x b, global.get? x = some b → global'.get? x = some b) ∧
    verdicts.flatten.length = programs.flatten.length ∧
    (programs.flatten.zip verdicts.flatten).Pairwise fun earlier later =>
      ∀ name mutable, earlier.1.declared? = some (name, mutable) →
        ∀ token, later.2.refusal ≠ some ⟨token, .undeclared name.lexeme⟩ := by
  have hflat := check_flatten h
  obtain ⟨global, hc, hgains⟩ := gains_check stands_start hflat
  have hfirst : ∀ x, (global.get? x).map (·.mutable) = firstDeclared? programs.flatten x :=
    fun x => hgains.added x rfl
  refine ⟨⟨global, hc.scopes, hc.kind, fun x => ?_, hfirst, fun more c' verdicts' hmore => ?_⟩,
    length_check hflat, (pairwise_check stands_start hflat).imp fun hpair name mutable hd => ?_⟩
  · rw [← isSome_firstDeclared?_iff, ← hfirst, Option.isSome_map]
    rfl
  · obtain ⟨global', hc', hgains'⟩ := gains_check hc (check_flatten hmore)
    exact ⟨global', hc'.scopes, hgains'.kept⟩
  · exact hpair name.lexeme (Stmt.isSome_declares?_iff.mpr ⟨name, mutable, hd, rfl⟩)

/-- A value that is refused, a function that is refused halfway through its body, and a second
declaration. -/
def refusedDeclarations : String :=
  "var a : missing\nfn g (x)\n  return x + 'a' - 1\nmut a : 2\n"

/-- Uses of the names declared there, and of one that is not. -/
def laterUses : String := "print(a)\nprint(g(1))\nprint(b)\n"

/-- The names of refused declarations can be used in a program that is checked later. -/
theorem globals_refusedDeclarations : ∃ first later c verdicts,
    (Parsed.ofTokens (Token.scan refusedDeclarations.toList).tokens).program? = some first ∧
      (Parsed.ofTokens (Token.scan laterUses.toList).tokens).program? = some later ∧
      start.checkInTurn [first, later] = some (c, verdicts) ∧
      verdicts.flatten.map (·.refusal.isSome) = [true, true, true, false, false, true] ∧
      ∃ global, c.scopes = [global, (builtinScope 0).1] ∧ global.declares "g" = true ∧
        global.declares "b" = false ∧ (global.get? "a").map (·.mutable) = some false := by
  have hrun : ((Parsed.ofTokens (Token.scan refusedDeclarations.toList).tokens).program?).any
      fun first => ((Parsed.ofTokens (Token.scan laterUses.toList).tokens).program?).any
        fun later => (start.checkInTurn [first, later]).any (fun r =>
          decide (r.2.flatten.map (·.refusal.isSome) = [true, true, true, false, false, true])) &&
          decide (["g", "b", "a"].map (firstDeclared? [first, later].flatten)
            = [some false, none, some false]) := by
    decide +kernel
  obtain ⟨first, hfirst, hrun⟩ := (Option.any_eq_true _ _).mp hrun
  obtain ⟨later, hlater, hrun⟩ := (Option.any_eq_true _ _).mp hrun
  obtain ⟨hcheck, hnames⟩ := Bool.and_eq_true_iff.mp hrun
  obtain ⟨⟨c, verdicts⟩, hcheck, hrefused⟩ := (Option.any_eq_true _ _).mp hcheck
  obtain ⟨⟨global, hscopes, -, -, hmutable, -⟩, -⟩ := globals_of_check hcheck
  obtain ⟨hg, hb, ha⟩ : firstDeclared? [first, later].flatten "g" = some false ∧
      firstDeclared? [first, later].flatten "b" = none ∧
      firstDeclared? [first, later].flatten "a" = some false := by
    simpa using of_decide_eq_true hnames
  refine ⟨first, later, c, verdicts, hfirst, hlater, hcheck, of_decide_eq_true hrefused, global,
    hscopes, ?_, ?_, (hmutable "a").trans ha⟩
  · simpa [Scope.declares] using congrArg Option.isSome ((hmutable "g").trans hg)
  · simpa [Scope.declares] using congrArg Option.isSome ((hmutable "b").trans hb)

end Checker

end Offside
