import Offside.Proofs.Occurrences
import Offside.Proofs.Trees
import Offside.Proofs.Walk

/-!
# Proofs/Lookups — what type checking finds for a name

Type checking looks names up in the scopes that are open at that moment.  `Expr.lookups` reads those
moments off the walk, step by step, with what each name leads to there.  Where a program is accepted
they are its occurrences, in order, and each leads to what the occurrence means (`lookups_eq`).
-/

namespace Offside

open List

namespace Check

variable {α β : Type}

/-! ## The walk as a sequence of lookups -/

/-- What a name leads to in these scopes, the outermost of which is that of the builtin
functions. -/
def target (name : String) : List Scope → Option Target
  | [] => none
  | scope :: outer =>
    match scope.get? name with
    | some _ => some (if outer.isEmpty then .builtin name else .declared (outer.length - 1) name)
    | none => target name outer

/-- A name leads somewhere exactly if it is found. -/
@[simp] theorem isSome_target (name : String) : ∀ scopes : List Scope,
    (target name scopes).isSome = (lookup? scopes name).isSome
  | [] => rfl
  | scope :: outer => by
    rw [target, lookup?, findSome?_cons]
    cases scope.get? name with
    | none => exact isSome_target name outer
    | some binding => rfl

/-- What `next` finds behind a walk, if that ends well. -/
def past (walk : Check α) (s : State) (next : α → State → List β) : List β :=
  match walk s with
  | .ok a s' => next a s'
  | .error _ _ => []

/-- A state inside a new scope. -/
def entered (kind : Scope.Kind) (s : State) : State :=
  { s with scopes := .empty kind :: s.scopes }

end Check

open Check in
mutual

/-- What the names of an expression lead to where the walk over it looks them up. -/
def Expr.lookups : Expr → State → List (Option Target)
  | .ternary _ test consequent alternative, s =>
    test.lookups s ++ past test.check s fun type s =>
      past (condition test.anchor type) s fun _ s =>
        consequent.lookups s ++ past consequent.check s fun _ s => alternative.lookups s
  | .binary _ _ left right, s => left.lookups s ++ past left.check s fun _ s => right.lookups s
  | .group inner, s => inner.lookups s
  | .literal _ _, _ => []
  | .unary _ _ operand, s => operand.lookups s
  | .name token, s => [target token.lexeme s.scopes]
  | .assign name value, s =>
    [target name.lexeme s.scopes] ++ past (lookupMutable name) s fun _ s => value.lookups s
  | .call _ callee given, s =>
    callee.lookups s ++ past callee.check s fun _ s => lookupsAll given s
  | .get object member, s =>
    object.lookups s ++ past object.check s fun _ s => member.lookups s
  | .set object member value, s =>
    past (ensureAssignable object) s fun _ s =>
      object.lookups s ++ past object.check s fun type s =>
        member.lookups s ++ past (member.checkBy Ty.fit type) s fun _ s => value.lookups s
  | .list _ elements, s => lookupsElements none elements s
  | .record _ fields, s => lookupsFields fields s
  | .function _ names body, s =>
    past (freshFor names) s fun parameters s =>
      past (declareParameters names parameters) (entered .function s) fun _ s => lookupsIn body s

/-- The lookups of a member access. -/
def Member.lookups : Member → State → List (Option Target)
  | .field _, _ => []
  | .index _ index, s => index.lookups s

/-- The lookups of arguments. -/
def lookupsAll : List Expr → State → List (Option Target)
  | [], _ => []
  | first :: later, s => first.lookups s ++ past first.check s fun _ s => lookupsAll later s

/-- The lookups of the elements of a list. -/
def lookupsElements (earlier : Option Ty) : List Expr → State → List (Option Target)
  | [], _ => []
  | first :: later, s =>
    first.lookups s ++ past first.check s fun type s =>
      past (element first.anchor earlier type) s fun type s => lookupsElements (some type) later s

/-- The lookups of the fields of a record. -/
def lookupsFields : List Field → State → List (Option Target)
  | [], _ => []
  | .mk _ value :: later, s =>
    value.lookups s ++ past value.check s fun _ s => lookupsFields later s

/-- The lookups of a statement. -/
def Stmt.lookups : Stmt → State → List (Option Target)
  | .expression value, s => value.lookups s
  | .block body, s => lookupsIn body (entered .block s)
  | .branch _ test body rest, s =>
    test.lookups s ++ past test.check s fun type s =>
      past (condition test.anchor type) s fun _ s =>
        lookupsIn body (entered .block s) ++
          past (inScope .block (checkStatementsBy Ty.fit body)) s fun _ s => rest.lookups s
  | .loop _ test body, s =>
    test.lookups s ++ past test.check s fun type s =>
      past (condition test.anchor type) s fun _ s => lookupsIn body (entered .block s)
  | .leave _, _ => []
  | .function name _ names body, s =>
    past (announce name names) s fun parameters s =>
      past (declareParameters names parameters) (entered .function s) fun _ s => lookupsIn body s
  | .answer _ none, _ => []
  | .answer keyword (some value), s => past (ensureInFunction keyword) s fun _ s => value.lookups s
  | .declare _ name _ value, s => past (ensureNew name) s fun _ s => value.lookups s

/-- The lookups of what a conditional statement does where its condition fails. -/
def Otherwise.lookups : Otherwise → State → List (Option Target)
  | .nothing, _ => []
  | .body body, s => lookupsIn body (entered .block s)
  | .branch _ test body rest, s =>
    test.lookups s ++ past test.check s fun type s =>
      past (condition test.anchor type) s fun _ s =>
        lookupsIn body (entered .block s) ++
          past (inScope .block (checkStatementsBy Ty.fit body)) s fun _ s => rest.lookups s

/-- The lookups of statements in order. -/
def lookupsIn : List Stmt → State → List (Option Target)
  | [], _ => []
  | first :: later, s => first.lookups s ++ past first.check s fun _ s => lookupsIn later s

end

/-- The lookups of a program. -/
def Checker.lookups (c : Checker) : List Stmt → List (Option Target)
  | [] => []
  | first :: later =>
    first.lookups ⟨c, []⟩ ++
      match c.checkStatement first with
      | some (c', _) => c'.lookups later
      | none => []

/-! ## The scopes of the walk -/

namespace Check

/-- The open scopes hold the names that these blocks have declared so far, and the scope around them
holds the builtin functions, which cannot be assigned to. -/
def Holds : List Scope → List Block → Prop
  | [scope], [] => (∀ x, (scope.get? x).isSome = (Builtin.find? x).isSome) ∧
      ∀ x binding, scope.get? x = some binding → binding.mutable = false
  | scope :: outer, block :: blocks =>
    (∀ x, (scope.get? x).isSome = true ↔ x ∈ block.before) ∧ Holds outer blocks
  | _, _ => False

variable {α β : Type} {s s' : State} {scope : Scope} {scopes : List Scope} {block block' : Block}
  {blocks : List Block} {names : List Token} {all : List String} {parameters : List Ty}
  {w : Check α} {found : State → List (Option Target)} {os : List Occurrence} {binding : Binding}
  {body : Check Unit} {name : String}

theorem holds_cons : Holds (scope :: scopes) (block :: blocks) ↔
    (∀ x, (scope.get? x).isSome = true ↔ x ∈ block.before) ∧ Holds scopes blocks := by
  rw [Holds]

theorem Holds.exists_cons (h : Holds scopes (block :: blocks)) :
    ∃ scope outer, scopes = scope :: outer := by
  cases scopes with
  | nil => exact h.elim
  | cons scope outer => exact ⟨scope, outer, rfl⟩

theorem Holds.length_eq : ∀ {scopes blocks}, Holds scopes blocks → scopes.length = blocks.length + 1
  | [_], [], _ => rfl
  | _ :: _, _ :: _, h => congrArg (· + 1) (holds_cons.mp h).2.length_eq
  | [], [], h | [], _ :: _, h | _ :: _ :: _, [], h => h.elim

/-- What a name leads to is what an occurrence of it means there. -/
theorem Holds.target_eq (name : String) : ∀ {scopes blocks},
    Holds scopes blocks → target name scopes = Occurrence.among name (blocks.map (·.before))
  | [scope], [], h => by
    rw [target, target, map_nil, Occurrence.among, ← h.1 name]
    cases scope.get? name <;> rfl
  | scope :: outer, block :: blocks, h => by
    obtain ⟨hnames, houter⟩ := holds_cons.mp h
    rw [target, map_cons, Occurrence.among, length_map, ← houter.target_eq name]
    have hlength := houter.length_eq
    cases hget : scope.get? name with
    | none =>
      have hnot : name ∉ block.before := fun hmem => by
        rw [← hnames, hget] at hmem
        cases hmem
      rw [if_neg hnot]
    | some binding =>
      have hmem : name ∈ block.before := by rw [← hnames, hget]; rfl
      have hne : outer.isEmpty = false := by cases outer <;> first | rfl | cases hlength
      rw [if_pos hmem, hne, hlength]
      rfl
  | [], [], h | [], _ :: _, h | _ :: _ :: _, [], h => h.elim

/-- What can be assigned to is declared by the program. -/
theorem Holds.visible_of_mutable (hm : binding.mutable = true) :
    ∀ {scopes blocks}, Holds scopes blocks →
      lookup? scopes name = some binding → name ∈ Block.visible blocks
  | [scope], [], h, hfound => by
    rw [lookup?, findSome?_cons] at hfound
    cases hget : scope.get? name with
    | none =>
      rw [hget] at hfound
      cases hfound
    | some found =>
      rw [hget] at hfound
      cases hfound
      rw [h.2 name binding hget] at hm
      cases hm
  | scope :: outer, block :: blocks, h, hfound => by
    obtain ⟨hnames, houter⟩ := holds_cons.mp h
    rw [lookup?, findSome?_cons] at hfound
    refine mem_append.mpr ?_
    cases hget : scope.get? name with
    | none =>
      rw [hget] at hfound
      exact .inr (houter.visible_of_mutable hm hfound)
    | some found => exact .inl ((hnames name).mp (by rw [hget]; rfl))
  | [], [], h, _ | [], _ :: _, h, _ | _ :: _ :: _, [], h, _ => h.elim

/-- Only the set of names matters. -/
theorem Holds.congr (hsame : ∀ x, x ∈ block.before ↔ x ∈ block'.before)
    (h : Holds scopes (block :: blocks)) : Holds scopes (block' :: blocks) := by
  obtain ⟨scope, outer, rfl⟩ := h.exists_cons
  rw [holds_cons] at h ⊢
  exact ⟨fun x => (h.1 x).trans (hsame x), h.2⟩

/-- A name that is defined is one more before this point. -/
theorem Holds.define (name : String) (binding : Binding) (h : Holds scopes (block :: blocks)) :
    Holds (scopes.modifyHead (·.define name binding)) (Block.declare name (block :: blocks)) := by
  obtain ⟨scope, outer, rfl⟩ := h.exists_cons
  obtain ⟨hnames, houter⟩ := holds_cons.mp h
  refine holds_cons.mpr ⟨fun x => ?_, houter⟩
  rw [Scope.get?_define, mem_cons]
  by_cases hx : x = name
  · simp [hx]
  · simp [hx, hnames]

theorem Holds.setAnswerIn (type : Ty) :
    ∀ {scopes blocks}, Holds scopes blocks → Holds (setAnswerIn type scopes) blocks
  | [scope], [], h => by
    rw [Check.setAnswerIn]
    split <;> exact h
  | scope :: outer, block :: blocks, h => by
    obtain ⟨hnames, houter⟩ := holds_cons.mp h
    rw [Check.setAnswerIn]
    split
    · exact holds_cons.mpr ⟨hnames, houter⟩
    · exact holds_cons.mpr ⟨hnames, houter.setAnswerIn type⟩
  | [], [], h | [], _ :: _, h | _ :: _ :: _, [], h => h.elim

/-! ## Walks that look nothing up -/

/-- A walk that ends well takes the scopes from these blocks to those. -/
def Silent (w : Check α) (blocks blocks' : List Block) : Prop :=
  ∀ ⦃s a s'⦄, Holds s.scopes blocks → w s = .ok a s' → Holds s'.scopes blocks'

namespace Silent

theorem bind {blocks' blocks'' : List Block} {f : α → Check β} (hw : Silent w blocks blocks')
    (hf : ∀ a, Silent (f a) blocks' blocks'') : Silent (w >>= f) blocks blocks'' := by
  intro s b s'' hs h
  obtain ⟨a, s', hok, hrest⟩ := ok_of_bind h
  exact hf a (hw hs hok) hrest

/-- What looks nothing up and binds nothing is silent. -/
theorem quiet (h : Quiet w) : Silent w blocks blocks := by
  induction h with
  | pure | fresh | see =>
    intro s a s' hs h
    cases h
    exact hs
  | refuse =>
    intro s a s' hs h
    cases h
  | lookup name =>
    intro s a s' hs h
    rcases lookup_cases name s with ⟨_, _, e⟩ | ⟨_, e⟩ <;> rw [e] at h <;> cases h
    exact hs
  | @setAnswer type =>
    intro s a s' hs h
    cases h
    exact hs.setAnswerIn type
  | bind _ _ ihw ihf => exact ihw.bind ihf

theorem define (name : String) (binding : Binding) :
    Silent (Check.define name binding) (block :: blocks)
      (Block.declare name (block :: blocks)) := by
  intro s a s' hs h
  cases h
  exact hs.define name binding

theorem record (name : Token) (mutable : Bool) (type : Ty) :
    Silent (Check.record name mutable type) blocks blocks := by
  intro s a s' hs h
  cases h
  exact hs

theorem declare (name : Token) (binding : Binding) :
    Silent (Check.declare name binding) (block :: blocks)
      (Block.declare name.lexeme (block :: blocks)) :=
  .bind (.quiet (.ensureNew name)) fun _ => .define _ _

/-- Comparing arguments changes nothing outside of the call. -/
theorem arguments : ∀ (parameters : List Ty) (given : List (Token × Ty)) (number : Nat)
    (b : Subst), Silent (Check.arguments Ty.fit number parameters given b) blocks blocks
  | [], _, _, _ => .quiet .pure
  | _ :: _, [], _, _ => .quiet .pure
  | parameter :: parameters, (anchor, argument) :: later, number, b => by
    simp only [Check.arguments]
    cases argument.fit parameter b with
    | fits b' => exact arguments parameters later (number + 1) b'
    | clashes b' => exact .quiet .refuse
    | endless type b' =>
      intro s a s' hs h
      cases h

theorem call (paren : Token) (callee : Ty) (given : List (Token × Ty)) :
    Silent (Check.call Ty.fit paren callee given) blocks blocks := by
  unfold Check.call
  cases callee.signature? with
  | none => exact .quiet (.ite .fresh .refuse)
  | some signature =>
    exact .bind (.quiet .require) fun _ =>
      .bind (arguments _ _ _ _) fun _ => .quiet .pure

/-- Parameters are declared in a scope of their own. -/
theorem declareParameters (hlength : parameters.length = names.length) :
    Silent (Check.declareParameters names parameters) (⟨[], all⟩ :: blocks)
      (⟨names.map (·.lexeme), all⟩ :: blocks) := by
  -- the names are declared one after the other, so the last one comes to stand first
  have hall : ∀ (bindings : List (Token × Ty)) (before : List String),
      Silent (bindings.forM fun binding => Check.declare binding.1 ⟨false, binding.2⟩)
        (⟨before, all⟩ :: blocks)
        (⟨(bindings.map (·.1.lexeme)).reverse ++ before, all⟩ :: blocks) := by
    intro bindings
    induction bindings with
    | nil => exact fun before => .quiet .pure
    | cons first later ih =>
      intro before
      refine .bind (.declare _ _) fun _ => ?_
      rw [map_cons, reverse_cons, append_assoc]
      exact ih (first.1.lexeme :: before)
  have hnames : (names.zip parameters).map (·.1.lexeme) = names.map (·.lexeme) := by
    have hzip : (names.zip parameters).map (·.1) = names := map_fst_zip (Nat.le_of_eq hlength.symm)
    rw [← hzip, map_map, hzip]
    rfl
  intro s a s' hs h
  refine (hall _ [] hs h).congr fun x => ?_
  rw [hnames, append_nil, mem_reverse]

end Silent

theorem length_freshFor : ∀ {names s s' parameters},
    freshFor names s = .ok parameters s' → parameters.length = names.length
  | [], _, _, _, h => by
    cases h
    rfl
  | _ :: later, s, s', parameters, h => by
    obtain ⟨first, s₁, _, h⟩ := ok_of_bind h
    obtain ⟨types, s₂, htypes, h⟩ := ok_of_bind h
    cases h
    exact congrArg (· + 1) (length_freshFor htypes)

/-! ## Walks that look names up -/

/-- The name of an occurrence is found; if it is assigned to, the program has declared it. -/
def Found (o : Occurrence) : Prop :=
  o.meant.isSome = true ∧ (o.assigned = true → o.name ∈ Block.visible o.blocks)

/-- A walk that ends well makes these lookups, which are those of the occurrences, and takes the
scopes from these blocks to those. -/
def Follows (w : Check α) (found : State → List (Option Target)) (blocks blocks' : List Block)
    (os : List Occurrence) : Prop :=
  ∀ ⦃s a s'⦄, Holds s.scopes blocks → w s = .ok a s' →
    found s = os.map Occurrence.meant ∧ (∀ o ∈ os, Found o) ∧ Holds s'.scopes blocks'

theorem past_ok {a : α} {next : α → State → List β} (h : w s = .ok a s') :
    past w s next = next a s' := by
  rw [past, h]

namespace Follows

variable {f : α → Check β} {found' : α → State → List (Option Target)} {os' : List Occurrence}
  {blocks' blocks'' : List Block}

theorem silent (h : Silent w blocks blocks') : Follows w (fun _ => []) blocks blocks' [] :=
  fun _ _ _ hs hok => ⟨rfl, fun _ ho => absurd ho not_mem_nil, h hs hok⟩

theorem quiet (h : Quiet w) : Follows w (fun _ => []) blocks blocks [] := .silent (.quiet h)

/-- Lookups of a sequence are strung together. -/
theorem bind (hw : Follows w found blocks blocks' os)
    (hf : ∀ a, Follows (f a) (found' a) blocks' blocks'' os') :
    Follows (w >>= f) (fun s => found s ++ past w s found') blocks blocks'' (os ++ os') := by
  intro s b s'' hs h
  obtain ⟨a, s', hok, hrest⟩ := ok_of_bind h
  obtain ⟨hfound, hos, hs'⟩ := hw hs hok
  obtain ⟨hfound', hos', hs''⟩ := hf a hs' hrest
  refine ⟨?_, forall_mem_append.mpr ⟨hos, hos'⟩, hs''⟩
  dsimp only
  rw [past_ok hok, hfound, hfound', map_append]

/-- A first step that looks nothing up.  What follows may rely on what it can give. -/
theorem first (hw : Silent w blocks blocks')
    (hf : ∀ a, (∃ s s', w s = .ok a s') → Follows (f a) (found' a) blocks' blocks'' os) :
    Follows (w >>= f) (fun s => past w s found') blocks blocks'' os := by
  intro s b s'' hs h
  obtain ⟨a, s', hok, hrest⟩ := ok_of_bind h
  dsimp only
  rw [past_ok hok]
  exact hf a ⟨s, s', hok⟩ (hw hs hok) hrest

/-- A last step that looks nothing up. -/
theorem last (hw : Follows w found blocks blocks' os)
    (hf : ∀ a, Silent (f a) blocks' blocks'') : Follows (w >>= f) found blocks blocks'' os := by
  intro s b s'' hs h
  obtain ⟨a, s', hok, hrest⟩ := ok_of_bind h
  obtain ⟨hfound, hos, hs'⟩ := hw hs hok
  exact ⟨hfound, hos, hf a hs' hrest⟩

/-- Lookups in a scope are those inside it. -/
theorem inScope (kind : Scope.Kind)
    (hw : Follows w found (⟨[], all⟩ :: blocks) (block :: blocks) os) :
    Follows (Check.inScope kind w) (fun s => found (entered kind s)) blocks blocks os := by
  intro s a s' hs h
  have hentered : Holds (entered kind s).scopes (⟨[], all⟩ :: blocks) :=
    holds_cons.mpr ⟨fun x => ⟨fun hx => Bool.noConfusion hx, fun hx => absurd hx not_mem_nil⟩, hs⟩
  unfold Check.inScope at h
  split at h
  · next b t hok =>
    cases h
    obtain ⟨hfound, hos, ht⟩ := hw hentered hok
    obtain ⟨scope, outer, hscopes⟩ := ht.exists_cons
    rw [hscopes] at ht
    refine ⟨hfound, hos, ?_⟩
    change Holds t.scopes.tail blocks
    rw [hscopes]
    exact (holds_cons.mp ht).2
  · cases h

theorem inBlock (h : ∃ block, Follows w found (⟨[], all⟩ :: blocks) (block :: blocks) os) :
    Follows (Check.inScope .block w) (fun s => found (entered .block s)) blocks blocks os :=
  h.elim fun _ => .inScope .block

/-- The name of an occurrence here leads to what is found for it. -/
theorem isSome_meant {assigned} (hs : Holds s.scopes blocks)
    (h : lookup? s.scopes name = some binding) :
    (Occurrence.meant ⟨name, assigned, blocks⟩).isSome = true := by
  rw [Occurrence.meant, ← hs.target_eq name, isSome_target, h]
  rfl

/-- A lookup is one occurrence of the name. -/
theorem lookup (name : Token) :
    Follows (Check.lookup name) (fun s => [target name.lexeme s.scopes]) blocks blocks
      [⟨name.lexeme, false, blocks⟩] := by
  intro s binding s' hs h
  refine ⟨congrArg (fun t => [t]) (hs.target_eq name.lexeme), forall_mem_singleton.mpr ?_,
    Silent.quiet (.lookup name) hs h⟩
  exact ⟨isSome_meant hs (lookup_ok h), fun hassigned => Bool.noConfusion hassigned⟩

/-- A lookup for assignment is one too, marked as such. -/
theorem lookupMutable (name : Token) :
    Follows (Check.lookupMutable name) (fun s => [target name.lexeme s.scopes]) blocks blocks
      [⟨name.lexeme, true, blocks⟩] := by
  intro s binding s' hs h
  refine ⟨congrArg (fun t => [t]) (hs.target_eq name.lexeme), forall_mem_singleton.mpr ?_,
    Silent.quiet (.lookupMutable name) hs h⟩
  obtain ⟨hfound, hmutable⟩ := lookupMutable_ok h
  exact ⟨isSome_meant hs hfound, fun _ => hs.visible_of_mutable hmutable hfound⟩

end Follows

/-! ## The whole walk -/

theorem follows_function (hlength : parameters.length = names.length)
    (hbody : Follows body found (⟨names.map (·.lexeme), all⟩ :: blocks) (block :: blocks) os) :
    Follows (function names parameters body)
      (fun s => past (declareParameters names parameters) (entered .function s) fun _ s => found s)
      blocks blocks os := by
  have hanswer : Silent (do return (← innermost).answer.getD .nil) (block :: blocks)
      (block :: blocks) := .quiet (.bind .see fun _ => .pure)
  have hinside := hbody.last fun _ => hanswer
  exact .last (.inScope .function (.first (.declareParameters hlength) fun _ _ => hinside))
    fun _ => .quiet .pure

theorem silent_announce (name : Token) (names : List Token) :
    Silent (announce name names) (block :: blocks) (Block.declare name.lexeme (block :: blocks)) :=
  .bind (.quiet (.ensureNew name)) fun _ => .bind (.quiet (.freshFor names)) fun _ =>
  .bind (.quiet .fresh) fun _ => .bind (.define _ _) fun _ => .quiet .pure

theorem length_announce {name} (h : announce name names s = .ok parameters s') :
    parameters.length = names.length := by
  obtain ⟨_, s₁, _, h⟩ := ok_of_bind h
  obtain ⟨types, s₂, htypes, h⟩ := ok_of_bind h
  obtain ⟨_, s₃, _, h⟩ := ok_of_bind h
  obtain ⟨_, s₄, _, h⟩ := ok_of_bind h
  cases h
  exact length_freshFor htypes

theorem follows_functionDeclaration {name : Token} (hbody : Follows body found
      (⟨names.map (·.lexeme), all⟩ :: Block.declare name.lexeme (block :: blocks))
      (block' :: Block.declare name.lexeme (block :: blocks)) os) :
    Follows (functionDeclaration name names body)
      (fun s => past (announce name names) s fun parameters s =>
        past (declareParameters names parameters) (entered .function s) fun _ s => found s)
      (block :: blocks) (Block.declare name.lexeme (block :: blocks)) os := by
  refine .first (silent_announce name names) fun parameters ⟨s, s', hok⟩ => ?_
  refine .last (follows_function (length_announce hok) hbody) fun type => ?_
  -- the name is bound once more, now with the type that was found
  refine .bind (fun s a s' hs h => ?_) fun _ => .record _ _ _
  refine (Silent.define name.lexeme _ hs h).congr fun x => ?_
  simp only [mem_cons, or_self_left]

end Check

open Check

/-- **The lookups of a tree that is accepted are those of its occurrences.** -/
theorem follows : Claim.Passes ⟨
    fun e => ∀ blocks, Follows (e.checkBy Ty.fit) (fun s => e.lookups s) blocks blocks
      (e.occurrences blocks),
    fun m => ∀ blocks object, Follows (m.checkBy Ty.fit object) (fun s => m.lookups s) blocks blocks
      (m.occurrences blocks),
    fun es =>
      ∀ blocks, Follows (checkArgumentsBy Ty.fit es) (fun s => lookupsAll es s) blocks blocks
        (occurrencesAll blocks es) ∧
      ∀ earlier, Follows (checkElementsBy Ty.fit earlier es) (fun s => lookupsElements earlier es s)
        blocks blocks (occurrencesAll blocks es),
    fun fields => ∀ blocks, Follows (checkFieldsBy Ty.fit fields) (fun s => lookupsFields fields s)
      blocks blocks (occurrencesFields blocks fields),
    fun st => ∀ block blocks, Follows (st.checkBy Ty.fit) (fun s => st.lookups s) (block :: blocks)
      (Block.behind st (block :: blocks)) (st.occurrences (block :: blocks)),
    fun rest => ∀ blocks, Follows (rest.checkBy Ty.fit) (fun s => rest.lookups s) blocks blocks
      (rest.occurrences blocks),
    fun body => ∀ block blocks, ∃ block', Follows (checkStatementsBy Ty.fit body)
      (fun s => lookupsIn body s) (block :: blocks) (block' :: blocks)
      (occurrencesIn (block :: blocks) body)⟩ where
  ternary htest hconsequent halternative blocks :=
    .bind (htest _) fun _ => .first (.quiet .require) fun _ _ => .bind (hconsequent _) fun _ =>
      .last (halternative blocks) fun _ => .quiet (.ternary _ _ _)
  binary hleft hright blocks :=
    .bind (hleft _) fun _ => .last (hright blocks) fun _ => .quiet (.binary _ _ _ _)
  literal _ := .quiet .pure
  unary hoperand blocks := .last (hoperand blocks) fun _ => .quiet (.unary _ _ _)
  name {token} _ := .last (.lookup token) fun _ => .quiet .pure
  assign {target _} hvalue blocks := .bind (.lookupMutable target) fun _ =>
    .last (hvalue blocks) fun _ => .quiet (.bind .require fun _ => .pure)
  call hcallee hgiven blocks :=
    .bind (hcallee _) fun _ => .last (hgiven blocks).1 fun _ => .call _ _ _
  get hobject hmember blocks := .bind (hobject _) (hmember blocks)
  set {object _ _} hobject hmember hvalue blocks :=
    .first (.quiet (.ensureAssignable object)) fun _ _ => .bind (hobject _) fun type =>
      .bind (hmember blocks type) fun _ => .last (hvalue blocks) fun _ =>
      .quiet (.bind .require fun _ => .pure)
  list helements blocks := by
    refine .last ((helements blocks).2 none) fun found => .quiet ?_
    cases found with
    | none => exact .bind .fresh fun _ => .pure
    | some type => exact .pure
  record hfields blocks := .last (hfields blocks) fun _ => .quiet .pure
  lambda {_ names _} hbody blocks := by
    obtain ⟨_, hinside⟩ := hbody _ blocks
    exact .first (.quiet (.freshFor names)) fun parameters ⟨s, s', hok⟩ =>
      follows_function (length_freshFor hok) hinside
  field {name} _ object := .quiet (.field object name)
  index hvalue blocks object := by
    simp only [Member.checkBy, Member.lookups, Member.occurrences]
    cases object with
    | var id => exact .last (hvalue blocks) fun _ => .quiet .fresh
    | list element =>
      exact .last (hvalue blocks) fun _ => .quiet (.bind .require fun _ => .pure)
    | _ => exact fun s a s' hs h => by cases h
  nilExprs _ := ⟨.quiet .pure, fun _ => .quiet .pure⟩
  consExprs hfirst hlater blocks :=
    ⟨.bind (hfirst _) fun _ => .last (hlater blocks).1 fun _ => .quiet .pure,
      fun _ => .bind (hfirst _) fun _ => .first (.quiet (.element _ _ _)) fun _ _ =>
        (hlater blocks).2 _⟩
  nilFields _ := .quiet .pure
  consFields hvalue hlater blocks :=
    .bind (hvalue _) fun _ => .last (hlater blocks) fun _ => .quiet .pure
  expression hvalue _ _ := .last (hvalue _) fun _ => .quiet .pure
  block hbody _ _ := .inBlock (hbody _ _)
  branch htest hbody hrest _ _ := .bind (htest _) fun _ => .first (.quiet .require) fun _ _ =>
    .bind (.inBlock (hbody _ _)) fun _ => hrest _
  loop htest hbody _ _ := .bind (htest _) fun _ => .first (.quiet .require) fun _ _ =>
    .inBlock (hbody _ _)
  leave _ _ := .quiet .pure
  function hbody _ _ := by
    obtain ⟨_, hinside⟩ := hbody _ _
    exact follows_functionDeclaration hinside
  bareAnswer {keyword} _ _ := .quiet (.bind (.ensureInFunction keyword) fun _ => .answer _ _)
  answer {keyword _} hvalue _ _ := .first (.quiet (.ensureInFunction keyword)) fun _ _ =>
    .last (hvalue _) fun _ => .quiet (.answer _ _)
  declare {_ name written _} hvalue _ _ :=
    .first (.quiet (.ensureNew name)) fun _ _ => .last (hvalue _) fun _ =>
      .bind (.quiet (.declaredType name written _)) fun _ =>
      .bind (.declare name _) fun _ => .record _ _ _
  nothing _ := .quiet .pure
  otherwise hbody _ := .inBlock (hbody _ _)
  elseIf htest hbody hrest _ := .bind (htest _) fun _ => .first (.quiet .require) fun _ _ =>
    .bind (.inBlock (hbody _ _)) fun _ => hrest _
  nilBody block _ := ⟨block, .quiet .pure⟩
  consBody {first _} hfirst hlater block blocks := by
    simp only [checkStatementsBy, lookupsIn, occurrencesIn]
    obtain ⟨block₁, hbehind⟩ := Block.behind_cons first block blocks
    have hfirst : Follows _ _ (block :: blocks) _ _ := hfirst block blocks
    rw [hbehind] at hfirst ⊢
    obtain ⟨block₂, hlater⟩ := hlater block₁ blocks
    exact ⟨block₂, .bind hfirst fun _ => hlater⟩

/-! ## Programs -/

namespace Checker

/-- The builtin functions are bound under their names, and none of them can be assigned to. -/
theorem builtinScope_holds (bs : List Builtin) : ∀ (scope : Scope) (next : Nat),
    (∀ x binding, scope.get? x = some binding → binding.mutable = false) →
    let bound := (bs.foldl (fun (scope, next) builtin =>
      let (type, next) := Builtin.instantiate builtin next
      (scope.define builtin.name ⟨false, type⟩, next)) (scope, next)).1
    (∀ x, (bound.get? x).isSome = (bs.any (·.name == x) || (scope.get? x).isSome)) ∧
      ∀ x binding, bound.get? x = some binding → binding.mutable = false := by
  induction bs with
  | nil => exact fun scope next h => ⟨fun x => rfl, h⟩
  | cons b bs ih =>
    intro scope next h
    obtain ⟨type, next', hb⟩ : ∃ type next', b.instantiate next = (type, next') := ⟨_, _, rfl⟩
    have hget := Scope.get?_define scope b.name
    obtain ⟨hnames, himmutable⟩ := ih (scope.define b.name ⟨false, type⟩) next'
        fun x binding hx => by
      rw [hget] at hx
      split at hx
      · cases hx
        rfl
      · exact h x binding hx
    simp only [foldl_cons, hb, any_cons]
    refine ⟨fun x => ?_, himmutable⟩
    rw [hnames, hget]
    by_cases hx : x = b.name
    · simp [hx]
    · rw [if_neg hx, beq_false_of_ne (Ne.symm hx), Bool.false_or]

/-- At the start nothing is declared. -/
theorem holds_start (all : List String) : Holds start.scopes [⟨[], all⟩] := by
  obtain ⟨hnames, himmutable⟩ := builtinScope_holds Builtin.all (.empty .global) 0
    fun x binding h => by cases h
  refine holds_cons.mpr ⟨fun x => ?_, fun x => ?_, himmutable⟩
  · exact ⟨fun h => Bool.noConfusion h, fun h => absurd h not_mem_nil⟩
  · refine (hnames x).trans ?_
    rw [Builtin.find?, isSome_find?]
    exact Bool.or_false _

/-- **The lookups of an accepted program are those of its occurrences**, in order. -/
theorem lookups_eq : ∀ (program : List Stmt) {c c' : Checker} {verdicts : List Verdict}
    {block : Block}, Holds c.scopes [block] → c.check program = some (c', verdicts) →
      (∀ v ∈ verdicts, v.refusal = none) →
      c.lookups program = (occurrencesIn [block] program).map Occurrence.meant ∧
        ∀ o ∈ occurrencesIn [block] program, Found o
  | [], _, _, _, _, _, _, _ => ⟨rfl, fun _ h => absurd h not_mem_nil⟩
  | first :: later, c, c', verdicts, block, hc, hcheck, haccepted => by
    obtain ⟨c₁, verdict, verdicts₁, hfirst, hlater, rfl⟩ := check_cons_eq_some hcheck
    obtain ⟨hverdict, hverdicts⟩ := forall_mem_cons.mp haccepted
    obtain ⟨s, hok, rfl, -⟩ := ok_of_checkStatement hfirst hverdict
    obtain ⟨block', hbehind⟩ := Block.behind_cons first block []
    have hfollows : Follows _ _ [block] _ _ := follows.stmt first block []
    rw [hbehind] at hfollows
    obtain ⟨hfound, hos, hs⟩ := hfollows (s := ⟨c, []⟩) hc hok
    obtain ⟨hfound', hos'⟩ := lookups_eq later hs hlater hverdicts
    rw [Checker.lookups, occurrencesIn, hfirst, hbehind]
    refine ⟨?_, forall_mem_append.mpr ⟨hos, hos'⟩⟩
    rw [map_append, ← hfound, ← hfound']

end Checker

end Offside
