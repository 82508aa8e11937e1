import Mathlib.Data.List.Perm.Basic
import Offside.Proofs.Interference

/-!
# Proofs/Homogeneity — the elements of a list and the answers of a function

Of the types of elements, and of those of answers, one is kept, and the next one is compared with it
alone: the first that is no variable (`Keeps`).  Types that agree with it need not agree with each
other, since it may have variables inside.  They do if it has none, and also exactly if they pass in
every order (`homogeneous_iff`).

An order of the elements of a list is an order of their types up to the numbers of variables
(`arguments_iff`), as an expression leaves the scopes as they are.  `keeps_elements_and_answers` is
the result for lists and functions.
-/

namespace Offside

open List Checker

/-! ## Types side by side -/

namespace Ty

variable {types after : List Ty} {type : Ty}

/-- The types that are no variables. -/
def known (types : List Ty) : List Ty := types.filter (!·.isVar)

/-- Whether the first type that is no variable agrees with those behind it. -/
def firstAgrees (types : List Ty) : Bool :=
  match known types with
  | [] => true
  | first :: later => later.all first.compatible

/-- Any two of the types agree. -/
def Homogeneous (types : List Ty) : Prop :=
  types.Pairwise fun a b => a.compatible b = true ∧ b.compatible a = true

instance : DecidablePred Homogeneous := fun types =>
  inferInstanceAs (Decidable (types.Pairwise _))

theorem mem_known : type ∈ known types ↔ type ∈ types ∧ type.isVar = false := by
  simp [known]

theorem firstAgrees_iff : firstAgrees types = true ↔ ∀ first ∈ (known types).head?,
    ∀ type ∈ (known types).tail, first.compatible type = true := by
  unfold firstAgrees
  cases known types <;> simp

/-- What stands behind the first type that is no variable agrees with it. -/
theorem compatible_of_firstAgrees {before} (h : firstAgrees (before ++ type :: after) = true)
    {first} (hfirst : first ∈ (known before).head?) : first.compatible type = true := by
  cases htype : type.isVar with
  | true => exact compatible_iff.mpr (.inr (.inl htype))
  | false =>
    have hknown : known (before ++ type :: after) = known before ++ type :: known after := by
      simp [known, htype]
    obtain ⟨later, hlater⟩ := head?_eq_some_iff.mp hfirst
    rw [firstAgrees_iff, hknown, hlater] at h
    exact h first rfl type (by simp)

theorem firstAgrees_of_homogeneous (h : Homogeneous types) : firstAgrees types = true := by
  refine firstAgrees_iff.mpr fun first hfirst type htype => ?_
  obtain ⟨later, hlater⟩ := head?_eq_some_iff.mp hfirst
  have hpairs : (known types).Pairwise _ := Pairwise.filter _ h
  rw [hlater] at hpairs htype
  exact (rel_of_pairwise_cons hpairs htype).1

/-- **Types agree with each other exactly if they pass in every order.** -/
theorem homogeneous_iff :
    Homogeneous types ↔ ∀ order, order.Perm types → firstAgrees order = true := by
  constructor
  · intro h order hperm
    exact firstAgrees_of_homogeneous ((hperm.pairwise_iff fun hab => hab.symm).mpr h)
  · intro h
    have hfirst : ∀ {a b : Ty}, (∃ rest, types.Perm (a :: b :: rest)) → a.compatible b = true := by
      rintro a b ⟨rest, hperm⟩
      cases ha : a.isVar with
      | true => exact compatible_iff.mpr (.inl ha)
      | false =>
        have hagrees : firstAgrees ([a] ++ b :: rest) = true := h _ hperm.symm
        exact compatible_of_firstAgrees hagrees (by simp [known, ha])
    refine pairwise_iff_forall_sublist.mpr fun {a b} hsub => ?_
    obtain ⟨rest, hperm⟩ := hsub.exists_perm_append
    exact ⟨hfirst ⟨rest, hperm⟩, hfirst ⟨rest, hperm.trans (.swap ..)⟩⟩

/-- **Types that agree with one without variables agree with each other.** -/
theorem homogeneous_of_closed (h : firstAgrees types = true)
    (hdistinct : ∀ type ∈ types, type.Distinct)
    (hclosed : ∀ first ∈ (known types).head?, first.Closed) : Homogeneous types := by
  have hagree : ∀ a ∈ types, ∀ b ∈ types, a.compatible b = true := by
    intro a ha b hb
    cases hvar : a.isVar with
    | true => exact compatible_iff.mpr (.inl hvar)
    | false =>
      cases hvar' : b.isVar with
      | true => exact compatible_iff.mpr (.inr (.inl hvar'))
      | false =>
        have ha' := mem_known.mpr ⟨ha, hvar⟩
        have hb' := mem_known.mpr ⟨hb, hvar'⟩
        obtain ⟨first, later, hknown⟩ := exists_cons_of_ne_nil (ne_nil_of_mem ha')
        have hmem : first ∈ types := (mem_known.mp (hknown ▸ mem_cons_self)).1
        have hself := compatible_self (hdistinct first hmem)
        rw [firstAgrees_iff, hknown] at h
        rw [hknown] at ha' hb' hclosed
        have hfirst : ∀ type ∈ first :: later, first.compatible type = true :=
          forall_mem_cons.mpr ⟨hself, h first rfl⟩
        exact compatible_trans (hclosed first rfl)
          (compatible_symm (hdistinct first hmem) (hfirst a ha')) (hfirst b hb')
  refine pairwise_iff_forall_sublist.mpr fun {a b} hsub => ?_
  have ha : a ∈ types := hsub.subset (by simp)
  have hb : b ∈ types := hsub.subset (by simp)
  exact ⟨hagree a ha b hb, hagree b hb a ha⟩

/-- **What is kept of types that were compared in order**: the first one that is no variable, or
else one of the variables. -/
structure Keeps (types : List Ty) (kept : Option Ty) : Prop where
  mem : ∀ type ∈ kept, type ∈ types
  eq_nil : kept = none → types = []
  first : ∀ first ∈ (known types).head?, kept = some first
  firstAgrees : firstAgrees types = true

theorem keeps_nil : Keeps [] none := ⟨by simp, fun _ => rfl, by simp [known], rfl⟩

namespace Keeps

variable {r : Ty} {kept : Option Ty}

theorem eq_first (h : Keeps types kept) (hr : r ∈ kept) (hvar : r.isVar = false) :
    (known types).head? = some r := by
  have hmem := mem_known.mpr ⟨h.mem r hr, hvar⟩
  obtain ⟨first, later, hknown⟩ := exists_cons_of_ne_nil (ne_nil_of_mem hmem)
  have hfirst : (known types).head? = some first := by rw [hknown, head?_cons]
  rw [hfirst, ← h.first first hfirst]
  exact hr

/-- A type that passes agrees with the one that is kept. -/
theorem compatible (h : Keeps types kept)
    (hagrees : Ty.firstAgrees (types ++ type :: after) = true) (hr : r ∈ kept) :
    r.compatible type = true := by
  cases hvar : r.isVar with
  | true => exact compatible_iff.mpr (.inl hvar)
  | false => exact compatible_of_firstAgrees hagrees (h.eq_first hr hvar)

/-- One more type, which replaces a variable or else changes nothing. -/
theorem snoc {next} (h : Keeps types kept) (hagree : ∀ r ∈ kept, r.compatible type = true)
    (hnext : (next = type ∧ ∀ r ∈ kept, r.isVar = true) ∨
      kept = some next ∧ (next.isVar = true → type.isVar = true)) :
    Keeps (types ++ [type]) (some next) := by
  have hmem : ∀ r ∈ some next, r ∈ types ++ [type] := by
    rintro _ ⟨⟩
    rcases hnext with ⟨rfl, -⟩ | ⟨hkept, -⟩
    · exact mem_append_right _ (.head _)
    · exact mem_append_left _ (h.mem next hkept)
  have hknown : known (types ++ [type]) = known types ++ known [type] := filter_append ..
  cases hbefore : known types with
  | nil =>
    rw [hbefore, nil_append] at hknown
    cases hvar : type.isVar with
    | true =>
      have hnone : known (types ++ [type]) = [] :=
        hknown.trans (filter_cons_of_neg (by simp [hvar]))
      exact ⟨hmem, by simp, by simp [hnone], firstAgrees_iff.mpr (by simp [hnone])⟩
    | false =>
      have hone : known (types ++ [type]) = [type] :=
        hknown.trans (filter_cons_of_pos (by simp [hvar]))
      refine ⟨hmem, by simp, fun first hfirst => ?_, firstAgrees_iff.mpr (by simp [hone])⟩
      rw [hone] at hfirst
      rw [← hfirst, head?_cons]
      rcases hnext with ⟨rfl, -⟩ | ⟨hkept, hvars⟩
      · rfl
      · -- before, there are variables only, and one of them is kept for another alone
        have hnext : next ∉ known types := by simp [hbefore]
        have hnext : next.isVar = true := by simpa [mem_known, h.mem next hkept] using hnext
        cases hvar.symm.trans (hvars hnext)
  | cons leader later =>
    have hleader : (known types).head? = some leader := by rw [hbefore, head?_cons]
    have hkept := h.first leader hleader
    have hvar : leader.isVar = false := (mem_known.mp (hbefore ▸ mem_cons_self)).2
    obtain rfl : next = leader := by
      rcases hnext with ⟨-, hvars⟩ | ⟨hsame, -⟩
      · cases hvar.symm.trans (hvars leader hkept)
      · exact Option.some.inj (hsame.symm.trans hkept)
    have hagrees := firstAgrees_iff.mp h.firstAgrees next hleader
    rw [hbefore, tail_cons] at hagrees
    rw [hbefore, cons_append] at hknown
    refine ⟨hmem, by simp, fun first hfirst => ?_, firstAgrees_iff.mpr fun first hfirst => ?_⟩
    · rwa [hknown, head?_cons] at hfirst
    · rw [hknown, head?_cons] at hfirst
      cases hfirst
      rw [hknown, tail_cons, forall_mem_append]
      refine ⟨hagrees, fun t ht => ?_⟩
      obtain rfl := mem_singleton.mp (mem_known.mp ht).1
      exact hagree next hkept

end Keeps

end Ty

namespace Check

open Ty (Keeps firstAgrees)

variable {types : List Ty} {kept : Option Ty} {type : Ty} {s : State}

/-! ## Elements -/

/-- An element of a list passes if it agrees with the type that is kept. -/
theorem keeps_element {s' anchor next} (h : Keeps types kept)
    (hok : element anchor kept type s = .ok next s') :
    s' = s ∧ Keeps (types ++ [type]) (some next) := by
  cases kept with
  | none =>
    cases hok
    exact ⟨rfl, h.snoc (by simp) (.inl ⟨rfl, by simp⟩)⟩
  | some r =>
    by_cases hagree : r.compatible type = true
    · rw [element, if_pos hagree] at hok
      cases hok
      refine ⟨rfl, h.snoc (by simpa using hagree) ?_⟩
      unfold prefer
      cases hvar : r.isVar <;> simp [hvar]
    · rw [element, if_neg hagree] at hok
      cases hok

theorem element_of_firstAgrees {after} (h : Keeps types kept)
    (hagrees : firstAgrees (types ++ type :: after) = true) (anchor : Token) (s : State) :
    ∃ next, element anchor kept type s = .ok next s := by
  cases kept with
  | none => exact ⟨type, rfl⟩
  | some r =>
    refine ⟨prefer r type, ?_⟩
    rw [element, if_pos (h.compatible hagrees rfl)]
    rfl

/-- Elements that pass have types, which are those of arguments, and one of these is kept. -/
theorem keeps_elements :
    ∀ {elements types kept found s s'}, Keeps types kept →
      checkElementsBy Ty.fit kept elements s = .ok found s' →
      ∃ given, checkArgumentsBy Ty.fit elements s = .ok given s' ∧
        Keeps (types ++ given.map Prod.snd) found
  | [], types, kept, _, s, _, hkeeps, h => by
    simp only [checkElementsBy] at h
    cases h
    refine ⟨[], ?_, by simpa using hkeeps⟩
    simp only [checkArgumentsBy]
    rfl
  | first :: later, types, kept, found, s, s', hkeeps, h => by
    simp only [checkElementsBy] at h
    obtain ⟨type, s₁, hfirst, hrest⟩ := ok_of_bind h
    obtain ⟨next, s₂, helement, hlater⟩ := ok_of_bind hrest
    obtain ⟨rfl, hnext⟩ := keeps_element hkeeps helement
    obtain ⟨given, hgiven, hfound⟩ := keeps_elements hnext hlater
    refine ⟨(first.anchor, type) :: given, ?_, by simpa using hfound⟩
    simp only [checkArgumentsBy]
    rw [bind_ok hfirst, bind_ok hgiven]
    rfl

theorem elements_of_firstAgrees : ∀ {elements types kept given s s'}, Keeps types kept →
      checkArgumentsBy Ty.fit elements s = .ok given s' →
        firstAgrees (types ++ given.map Prod.snd) = true →
          ∃ found, checkElementsBy Ty.fit kept elements s = .ok found s'
  | [], types, kept, _, s, _, _, h, _ => by
    simp only [checkArgumentsBy] at h
    cases h
    refine ⟨kept, ?_⟩
    simp only [checkElementsBy]
    rfl
  | first :: later, types, kept, _, s, s', hkeeps, h, hagrees => by
    simp only [checkArgumentsBy] at h
    obtain ⟨type, s₁, hfirst, h⟩ := ok_of_bind h
    obtain ⟨given, s₂, hgiven, h⟩ := ok_of_bind h
    cases h
    obtain ⟨next, helement⟩ := element_of_firstAgrees hkeeps hagrees first.anchor s₁
    obtain ⟨-, hnext⟩ := keeps_element hkeeps helement
    obtain ⟨found, hfound⟩ := elements_of_firstAgrees hnext hgiven (by simpa using hagrees)
    refine ⟨found, ?_⟩
    simp only [checkElementsBy]
    rw [bind_ok hfirst, bind_ok helement, hfound]

/-- **Which lists have a type**: those whose elements have types of which the first that is no
variable agrees with those behind it. -/
theorem list_iff {elements bracket} :
    (∃ type s', (Expr.list bracket elements).check s = .ok type s') ↔
      ∃ given s', checkArgumentsBy Ty.fit elements s = .ok given s' ∧
        firstAgrees (given.map Prod.snd) = true := by
  rw [Expr.check, Expr.checkBy]
  constructor
  · rintro ⟨type, s', h⟩
    obtain ⟨found, s₁, hfound, -⟩ := ok_of_bind h
    obtain ⟨given, hgiven, hkeeps⟩ := keeps_elements Ty.keeps_nil hfound
    exact ⟨given, s₁, hgiven, hkeeps.firstAgrees⟩
  · rintro ⟨given, s', hgiven, hagrees⟩
    obtain ⟨found, hfound⟩ := elements_of_firstAgrees Ty.keeps_nil hgiven hagrees
    rw [bind_ok hfound]
    cases found <;> exact ⟨_, _, rfl⟩

/-! ## Elements in another order -/

end Check

namespace Ty

/-- A type without the numbers of its variables. -/
def blurred : Ty → Ty := rename fun _ => 0

@[simp] theorem blurred_rename (r : Nat → Nat) (type : Ty) :
    (type.rename r).blurred = type.blurred :=
  rename_rename ..

/-- The numbers of variables do not count where types are compared. -/
theorem firstAgrees_blurred (types : List Ty) :
    firstAgrees (types.map blurred) = firstAgrees types := by
  have hknown : known (types.map blurred) = (known types).map blurred := by
    rw [known, filter_map, known]
    refine congrArg (map blurred) (filter_congr fun type _ => ?_)
    exact congrArg not (isVar_rename _ type)
  rw [firstAgrees, hknown, firstAgrees]
  cases known types with
  | nil => rfl
  | cons first later =>
    change (later.map blurred).all first.blurred.compatible = later.all first.compatible
    rw [all_map]
    exact all_congr rfl fun type => compatible_rename _ first type

theorem homogeneous_blurred {types} : Homogeneous (types.map blurred) ↔ Homogeneous types := by
  rw [Homogeneous, pairwise_map]
  simp [blurred]
  rfl

end Ty

/-- The type that was found, if any. -/
def Check.found? : EStateM.Result Halt State Ty → Option Ty
  | .ok type _ => some type
  | .error _ _ => none

/-- The type of an expression without the numbers of its variables, if it has one. -/
def Expr.shape? (c : Checker) (e : Expr) : Option Ty :=
  (Check.found? (e.check ⟨c, []⟩)).map Ty.blurred

namespace Check

open Ty (Homogeneous firstAgrees)

variable {c : Checker}

/-- **An expression has the same type, up to the numbers of variables, wherever it stands among
others.** -/
theorem shape?_eq (hc : c.Taken) (e : Expr) (k : Nat) (earlier : List Declaration) :
    (found? (e.check ⟨⟨c.scopes, c.nextVar + k⟩, earlier⟩)).map Ty.blurred = e.shape? c ∧
      ∃ k', (final (e.check ⟨⟨c.scopes, c.nextVar + k⟩, earlier⟩)).toChecker
        = ⟨c.scopes, c.nextVar + k'⟩ := by
  have hnatural {π : Equiv.Perm Nat} := (plain_expression π k e).natural
  obtain ⟨π, hkeeps, hshifts⟩ := exists_shifts ((hnatural (π := 1)).grows ⟨c, []⟩) k
  have hsame := hnatural.same ⟨c, []⟩ earlier hshifts
  have hstate : State.rename π k earlier ⟨c, []⟩ = ⟨⟨c.scopes, c.nextVar + k⟩, earlier⟩ := by
    rw [State.rename, rename, hc.rename_scopes hkeeps]
    rfl
  rw [hstate] at hsame
  rw [Expr.shape?, Expr.check]
  constructor
  · rw [hsame]
    cases e.checkBy Ty.fit ⟨c, []⟩ with
    | ok type s => exact congrArg some (Ty.blurred_rename _ type)
    | error => rfl
  · obtain ⟨k', hk'⟩ := Nat.exists_eq_add_of_le
      ((hnatural (π := 1)).grows ⟨⟨c.scopes, c.nextVar + k⟩, earlier⟩)
    refine ⟨k + k', ?_⟩
    have hscopes := scopes_expression e ⟨⟨c.scopes, c.nextVar + k⟩, earlier⟩
    generalize final (e.checkBy Ty.fit ⟨⟨c.scopes, c.nextVar + k⟩, earlier⟩) = s at hk' hscopes
    obtain ⟨⟨scopes, nextVar⟩, recorded⟩ := s
    cases hscopes
    cases hk'
    exact congrArg (mk c.scopes) (Nat.add_assoc ..)

/-- The types of expressions in order are the types of each, up to the numbers of variables. -/
theorem arguments_iff (hc : c.Taken) : ∀ {elements shapes} (k : Nat)
    (earlier : List Declaration),
    (∃ given s', checkArgumentsBy Ty.fit elements ⟨⟨c.scopes, c.nextVar + k⟩, earlier⟩
        = .ok given s' ∧ given.map (·.2.blurred) = shapes) ↔
      Forall₂ (fun shape e => e.shape? c = some shape) shapes elements
  | [], shapes, k, earlier => by
    simp only [checkArgumentsBy, forall₂_nil_right_iff]
    constructor
    · rintro ⟨_, _, ⟨⟩, rfl⟩
      rfl
    · rintro rfl
      exact ⟨[], _, rfl, rfl⟩
  | first :: later, shapes, k, earlier => by
    obtain ⟨hshape, k', hnext⟩ := shape?_eq hc first k earlier
    simp only [checkArgumentsBy]
    constructor
    · rintro ⟨_, _, h, rfl⟩
      obtain ⟨type, ⟨_, recorded⟩, hfirst, hrest⟩ := ok_of_bind h
      obtain ⟨given, s', hlater, ⟨⟩⟩ := ok_of_bind hrest
      rw [Expr.check, hfirst] at hshape hnext
      cases hnext
      exact .cons hshape.symm ((arguments_iff hc k' recorded).mp ⟨given, _, hlater, rfl⟩)
    · rintro (_ | ⟨hfirst, hlater⟩)
      rw [hfirst] at hshape
      cases hr : first.check ⟨⟨c.scopes, c.nextVar + k⟩, earlier⟩ with
      | error e s => simp [hr, found?] at hshape
      | ok type s =>
        obtain ⟨_, recorded⟩ := s
        rw [hr] at hshape hnext
        cases hnext
        obtain ⟨given, s', hgiven, rfl⟩ := (arguments_iff hc k' recorded).mpr hlater
        refine ⟨(first.anchor, type) :: given, s', ?_, congrArg (· :: _) (Option.some.inj hshape)⟩
        rw [Expr.check] at hr
        rw [bind_ok hr, bind_ok hgiven]
        rfl

/-- **A list has a type in every order of its elements exactly if their types agree with each
other.** -/
theorem orders_iff {s s' elements bracket given} (hs : s.toChecker.Taken)
    (hgiven : checkArgumentsBy Ty.fit elements s = .ok given s') :
    Homogeneous (given.map Prod.snd) ↔ ∀ order, order.Perm elements →
      ∃ type s'', (Expr.list bracket order).check s = .ok type s'' := by
  have hlist : ∀ {order : List Expr},
      (∃ type s', (Expr.list bracket order).check s = .ok type s') ↔ ∃ shapes,
        Forall₂ (fun shape e => e.shape? s.toChecker = some shape) shapes order ∧
          firstAgrees shapes = true := by
    intro order
    have hshapes {shapes : List Ty} := @arguments_iff _ hs order shapes 0 s.recorded
    rw [list_iff]
    constructor
    · rintro ⟨given, s', hgiven, hagrees⟩
      refine ⟨given.map (·.2.blurred), hshapes.mp ⟨given, s', hgiven, rfl⟩, ?_⟩
      rwa [← Ty.firstAgrees_blurred, map_map] at hagrees
    · rintro ⟨_, hforall, hagrees⟩
      obtain ⟨given, s', hgiven, rfl⟩ := hshapes.mpr hforall
      refine ⟨given, s', hgiven, ?_⟩
      rwa [← Ty.firstAgrees_blurred, map_map]
  have hforall := (arguments_iff hs 0 s.recorded).mp ⟨given, s', hgiven, rfl⟩
  have hunique : Relator.LeftUnique fun (shape : Ty) (e : Expr) =>
      e.shape? s.toChecker = some shape := fun _ _ _ h h' => Option.some.inj (h.symm.trans h')
  rw [← Ty.homogeneous_blurred, map_map, Ty.homogeneous_iff]
  constructor
  · intro h order hperm
    obtain ⟨shapes, hforall', hshapes⟩ := perm_comp_forall₂ hperm hforall.flip
    exact hlist.mpr ⟨shapes, hforall'.flip, h shapes hshapes⟩
  · intro h shapes hperm
    obtain ⟨order, hforall', horder⟩ := perm_comp_forall₂ hperm hforall
    obtain ⟨shapes', hshapes', hagrees⟩ := hlist.mp (h order horder)
    rwa [left_unique_forall₂' hunique hforall' hshapes']

/-! ## Answers -/

/-- A state inside a new scope. -/
def State.enter (kind : Scope.Kind) (s : State) : State :=
  { s with scopes := .empty kind :: s.scopes }

end Check

open Check (final found? State)

mutual

/-- The types of the answers in a statement that belong to the function that it stands in, where the
statement is checked from a state. -/
def Stmt.answers : Stmt → State → List Ty
  | .block body, s => answersIn body (s.enter .block)
  | .branch _ test body rest, s =>
    let tested := final (test.check s)
    answersIn body (tested.enter .block) ++
      rest.answers (final (Check.inScope .block (checkStatementsBy Ty.fit body) tested))
  | .loop _ test body, s => answersIn body ((final (test.check s)).enter .block)
  | .answer _ none, _ => [.nil]
  | .answer _ (some value), s => (found? (value.check s)).toList
  | .expression _, _ | .leave _, _ | .function .., _ | .declare .., _ => []

/-- The types of the answers in what a conditional statement does where its condition fails. -/
def Otherwise.answers : Otherwise → State → List Ty
  | .nothing, _ => []
  | .body body, s => answersIn body (s.enter .block)
  | .branch _ test body rest, s =>
    let tested := final (test.check s)
    answersIn body (tested.enter .block) ++
      rest.answers (final (Check.inScope .block (checkStatementsBy Ty.fit body) tested))

/-- The types of the answers in statements that are checked in order. -/
def answersIn : List Stmt → State → List Ty
  | [], _ => []
  | first :: later, s => first.answers s ++ answersIn later (final (first.check s))

end

namespace Check

variable {types : List Ty} {s s' : State} {type : Ty} {body : List Stmt} {scope : Scope}

/-- What is kept of these types is noted in the innermost function. -/
def Answering (types : List Ty) (s : State) : Prop :=
  ∃ scope, s.scopes.find? (·.kind = .function) = some scope ∧ Ty.Keeps types scope.answer

theorem find?_setAnswerIn (type : Ty) : ∀ {scopes},
    scopes.find? (·.kind = .function) = some scope →
      (setAnswerIn type scopes).find? (·.kind = .function) = some (scope.setAnswer type)
  | first :: outer, h => by
    by_cases hkind : first.kind = .function
    · obtain rfl : first = scope := by simpa [hkind] using h
      simp [setAnswerIn, Scope.setAnswer, hkind]
    · rw [find?_cons_of_neg (by simpa using hkind)] at h
      rw [setAnswerIn, if_neg hkind, find?_cons_of_neg (by simpa using hkind)]
      exact find?_setAnswerIn type h

theorem Kept.find?_function : ∀ {binds scopes scopes'},
    Kept false binds scopes scopes' → scopes.find? (·.kind = .function) = some scope →
      ∃ scope', scopes'.find? (·.kind = .function) = some scope' ∧ scope'.answer = scope.answer
  | _, _, _, @Kept.cons _ _ first first' _ _ hfirst houter _, h => by
    by_cases hkind : first.kind = .function
    · obtain rfl : first = scope := by simpa [hkind] using h
      exact ⟨first', by simp [hfirst.kind, hkind], hfirst.answer (.inl rfl)⟩
    · rw [find?_cons_of_neg (by simpa using hkind)] at h
      rw [find?_cons_of_neg (by simpa [hfirst.kind] using hkind)]
      exact houter.find?_function h

namespace Answering

/-- Answers are noted by a walk that may note some alone. -/
theorem keep {binds} (h : Answering types s) (hkept : Kept false binds s.scopes s'.scopes) :
    Answering types s' := by
  obtain ⟨scope, hscope, hkeeps⟩ := h
  obtain ⟨scope', hscope', hanswer⟩ := hkept.find?_function hscope
  exact ⟨scope', hscope', hanswer ▸ hkeeps⟩

theorem expression (h : Answering types s) {e : Expr} (hok : e.check s = .ok type s') :
    Answering types s' := by
  have hkept : Kept false noName s.scopes (final (e.check s)).scopes :=
    (plain_expression 1 0 e).kept s
  rw [hok] at hkept
  exact h.keep hkept

/-- **An answer passes if it agrees with the type that is kept.** -/
theorem answer {anchor} (h : Answering types s) (hok : Check.answer anchor type s = .ok () s') :
    Answering (types ++ [type]) s' := by
  obtain ⟨scope, hscope, hkeeps⟩ := h
  have hfunction : function? s = .ok (some scope) s := by rw [function?, hscope]
  have hset := find?_setAnswerIn type hscope
  rw [Check.answer, bind_ok hfunction] at hok
  cases hanswer : scope.answer with
  | none =>
    rw [hanswer] at hkeeps
    simp only [Option.bind_some, hanswer] at hok
    cases hok
    exact ⟨_, hset, hkeeps.snoc (by simp) (.inl ⟨rfl, by simp⟩)⟩
  | some r =>
    rw [hanswer] at hkeeps
    simp only [Option.bind_some, hanswer] at hok
    obtain ⟨_, s₁, hrequire, hrest⟩ := ok_of_bind hok
    have hagree : ∀ r' ∈ some r, r'.compatible type = true := by simpa using require_ok hrequire
    obtain rfl := require_state hrequire
    split at hrest
    · next hvars =>
      cases hrest
      exact ⟨_, hset, hkeeps.snoc hagree (.inl ⟨rfl, by simp_all⟩)⟩
    · next hvars =>
      cases hrest
      refine ⟨scope, hscope, ?_⟩
      rw [hanswer]
      exact hkeeps.snoc hagree (.inr ⟨rfl, by simpa using hvars⟩)

/-- Answers in a block are answers of the function around it. -/
theorem block {more} (h : Answering types s)
    (hbody : ∀ {s₁}, Answering types (s.enter .block) →
      checkStatementsBy Ty.fit body (s.enter .block) = .ok () s₁ → Answering more s₁)
    (hok : inScope .block (checkStatementsBy Ty.fit body) s = .ok () s') : Answering more s' := by
  have hkept := (plain_body 1 0 body).kept (s.enter .block)
  rw [inScope_eq] at hok
  obtain ⟨s₁, hinside, rfl⟩ := ok_of_leave hok
  have hinside : checkStatementsBy Ty.fit body (s.enter .block) = .ok () s₁ := hinside
  have henter : Answering types (s.enter .block) := by
    simpa [Answering, State.enter, Scope.empty] using h
  obtain ⟨scope, hscope, hkeeps⟩ := hbody henter hinside
  refine ⟨scope, ?_, hkeeps⟩
  rw [hinside] at hkept
  change Kept true anyName (.empty .block :: s.scopes) s₁.scopes at hkept
  generalize s₁.scopes = scopes at hkept hscope ⊢
  cases hkept with
  | cons hfirst _ _ =>
    rwa [find?_cons_of_neg (by simp [hfirst.kind, Scope.empty])] at hscope

end Answering

/-- A statement that cannot hold an answer notes none. -/
theorem answering_of_mayAnswer {st : Stmt} (hst : st.mayAnswer = false) (h : Answering types s)
    (hok : st.check s = .ok () s') : Answering types s' := by
  have hkept := (plain_statement 1 0 st).kept s
  rw [← Stmt.check, hok, hst] at hkept
  exact h.keep hkept

/-- A condition is an expression. -/
theorem Answering.condition (h : Answering types s) {test : Expr} {rest : Check Unit}
    (hok : (test.checkBy Ty.fit >>= fun type => condition test.anchor type >>= fun _ => rest) s
      = .ok () s') :
    Answering types (final (test.check s)) ∧ rest (final (test.check s)) = .ok () s' := by
  obtain ⟨type, s₁, htest, hok⟩ := ok_of_bind hok
  obtain ⟨_, s₂, hcondition, hrest⟩ := ok_of_bind hok
  obtain rfl := require_state hcondition
  rw [← Expr.check] at htest
  have hs := h.expression htest
  rw [htest]
  exact ⟨hs, hrest⟩

theorem ensureInFunction_state {keyword u} (h : ensureInFunction keyword s = .ok u s') :
    s' = s := by
  obtain ⟨scope, s₁, hfunction, h⟩ := ok_of_bind h
  cases hfunction
  split at h <;> cases h
  rfl

mutual

/-- **What is kept of the answers of a function is noted as its statements are checked.** -/
theorem answering_statement : ∀ (st : Stmt) {types : List Ty} {s s' : State}, Answering types s →
    st.check s = .ok () s' → Answering (types ++ st.answers s) s'
  | .block body, types, s, s', h, hok => by
    simp only [Stmt.check, Stmt.checkBy, Stmt.answers] at hok ⊢
    exact h.block (answering_body body) hok
  | .branch _ test body rest, types, s, s', h, hok => by
    simp only [Stmt.check, Stmt.checkBy] at hok
    obtain ⟨htest, hrest⟩ := h.condition hok
    simp only [Stmt.answers]
    generalize final (test.check s) = s at htest hrest ⊢
    obtain ⟨_, s₁, hbody, hrest⟩ := ok_of_bind hrest
    rw [← append_assoc, hbody]
    exact answering_otherwise rest (htest.block (answering_body body) hbody) hrest
  | .loop _ test body, types, s, s', h, hok => by
    simp only [Stmt.check, Stmt.checkBy] at hok
    obtain ⟨htest, hrest⟩ := h.condition hok
    simp only [Stmt.answers]
    exact htest.block (answering_body body) hrest
  | .answer keyword none, types, s, s', h, hok => by
    simp only [Stmt.check, Stmt.checkBy, Stmt.answers] at hok ⊢
    obtain ⟨_, s₁, hinside, hanswer⟩ := ok_of_bind hok
    obtain rfl := ensureInFunction_state hinside
    exact h.answer hanswer
  | .answer keyword (some value), types, s, s', h, hok => by
    simp only [Stmt.check, Stmt.checkBy, Stmt.answers] at hok ⊢
    obtain ⟨_, s₁, hinside, hrest⟩ := ok_of_bind hok
    obtain rfl := ensureInFunction_state hinside
    obtain ⟨type, s₂, hvalue, hanswer⟩ := ok_of_bind hrest
    rw [← Expr.check] at hvalue
    rw [hvalue]
    exact (h.expression hvalue).answer hanswer
  | .expression _, types, s, s', h, hok | .leave _, types, s, s', h, hok
  | .function .., types, s, s', h, hok | .declare .., types, s, s', h, hok => by
    simp only [Stmt.answers, append_nil]
    exact answering_of_mayAnswer rfl h hok

theorem answering_otherwise : ∀ (rest : Otherwise) {types : List Ty} {s s' : State},
    Answering types s → rest.checkBy Ty.fit s = .ok () s' → Answering (types ++ rest.answers s) s'
  | .nothing, types, s, s', h, hok => by
    simp only [Otherwise.checkBy, Otherwise.answers] at hok ⊢
    cases hok
    simpa using h
  | .body body, types, s, s', h, hok => by
    simp only [Otherwise.checkBy, Otherwise.answers] at hok ⊢
    exact h.block (answering_body body) hok
  | .branch _ test body rest, types, s, s', h, hok => by
    simp only [Otherwise.checkBy] at hok
    obtain ⟨htest, hrest⟩ := h.condition hok
    simp only [Otherwise.answers]
    generalize final (test.check s) = s at htest hrest ⊢
    obtain ⟨_, s₁, hbody, hrest⟩ := ok_of_bind hrest
    rw [← append_assoc, hbody]
    exact answering_otherwise rest (htest.block (answering_body body) hbody) hrest

theorem answering_body : ∀ (body : List Stmt) {types : List Ty} {s s' : State}, Answering types s →
    checkStatementsBy Ty.fit body s = .ok () s' → Answering (types ++ answersIn body s) s'
  | [], types, s, s', h, hok => by
    simp only [checkStatementsBy, answersIn] at hok ⊢
    cases hok
    simpa using h
  | first :: later, types, s, s', h, hok => by
    simp only [checkStatementsBy] at hok
    obtain ⟨_, s₁, hfirst, hlater⟩ := ok_of_bind hok
    rw [← Stmt.check] at hfirst
    have hs := answering_statement first h hfirst
    rw [answersIn, hfirst, ← append_assoc]
    exact answering_body later hs hlater

end

/-- **A function has the type that is kept of its answers**, and nil where it gives none. -/
theorem keeps_function {names parameters}
    (h : function names parameters (checkStatementsBy Ty.fit body) s = .ok type s') :
    ∃ s₀ s₁ kept, declareParameters names parameters (s.enter .function) = .ok () s₀ ∧
      checkStatementsBy Ty.fit body s₀ = .ok () s₁ ∧ Ty.Keeps (answersIn body s₀) kept ∧
      type = .function parameters (kept.getD .nil) := by
  obtain ⟨result, s₂, hinside, h⟩ := ok_of_bind h
  cases h
  rw [inScope_eq] at hinside
  obtain ⟨s₁, hwalk, rfl⟩ := ok_of_leave hinside
  obtain ⟨⟨⟩, s₀, hparameters, hrest⟩ := ok_of_bind hwalk
  obtain ⟨⟨⟩, _, hbody, ⟨⟩⟩ := ok_of_bind hrest
  have hkept : Kept false anyName (.empty .function :: s.scopes) s₀.scopes := by
    have hwalks : (Setting.plain 1 0).Walks false anyName [] Setting.nothing
        (declareParameters names parameters) _ :=
      .declareParameters (fun _ _ => trivial) fun _ _ => trivial
    have h := hwalks.kept (s.enter .function)
    rwa [State.enter, hparameters] at h
  have hkept' : Kept true anyName s₀.scopes s₁.scopes := by
    have h := (plain_body 1 0 body).kept s₀
    rwa [hbody] at h
  have hnone : Answering [] s₀ :=
    .keep ⟨.empty .function, rfl, Ty.keeps_nil⟩ (s := s.enter .function) hkept
  obtain ⟨scope, hscope, hkeeps⟩ := answering_body body hnone hbody
  refine ⟨s₀, s₁, scope.answer, hparameters, hbody, hkeeps, ?_⟩
  -- the function is the innermost scope all the time
  generalize s₀.scopes = scopes₀ at hkept hkept'
  cases hkept with
  | cons hfunction _ _ =>
    generalize s₁.scopes = scopes₁ at hkept' hscope ⊢
    cases hkept' with
    | cons hsame _ _ =>
      rw [find?_cons_of_pos (by simp [hsame.kind, hfunction.kind, Scope.empty])] at hscope
      cases hscope
      rfl

end Check

open Check in
/-- **Elements and answers agree with one type, and with each other if they pass in every order.**
Where a list has a type, its elements have types of which the first that is no variable agrees with
those behind it; those types agree with each other exactly if the list has a type in every order of
its elements.  The types of the answers of a function are compared in the same way, and agree with
each other exactly if they pass in every order.  Either agree with each other if there is no
variable in the first of them that is none. -/
theorem keeps_elements_and_answers (s : Check.State) :
    (∀ bracket elements type s', (Expr.list bracket elements).check s = .ok type s' →
      ∃ given s₁ kept, checkArgumentsBy Ty.fit elements s = .ok given s₁ ∧
        Ty.Keeps (given.map Prod.snd) kept ∧ (∀ element ∈ kept, type = .list element) ∧
        (s.toChecker.Taken → (Ty.Homogeneous (given.map Prod.snd) ↔ ∀ order, order.Perm elements →
          ∃ type s', (Expr.list bracket order).check s = .ok type s')) ∧
        ((∀ type ∈ given.map Prod.snd, type.Distinct) →
          (∀ first ∈ (Ty.known (given.map Prod.snd)).head?, first.Closed) →
          Ty.Homogeneous (given.map Prod.snd))) ∧
    ∀ names parameters body type s',
      function names parameters (checkStatementsBy Ty.fit body) s = .ok type s' →
      ∃ s₀ s₁ kept, declareParameters names parameters (s.enter .function) = .ok () s₀ ∧
        checkStatementsBy Ty.fit body s₀ = .ok () s₁ ∧ Ty.Keeps (answersIn body s₀) kept ∧
        type = .function parameters (kept.getD .nil) ∧
        (Ty.Homogeneous (answersIn body s₀) ↔
          ∀ order, order.Perm (answersIn body s₀) → Ty.firstAgrees order = true) ∧
        ((∀ type ∈ answersIn body s₀, type.Distinct) →
          (∀ first ∈ (Ty.known (answersIn body s₀)).head?, first.Closed) →
          Ty.Homogeneous (answersIn body s₀)) := by
  constructor
  · intro bracket elements type s' h
    rw [Expr.check, Expr.checkBy] at h
    obtain ⟨kept, s₁, hkept, hlist⟩ := ok_of_bind h
    obtain ⟨given, hgiven, hkeeps⟩ := keeps_elements Ty.keeps_nil hkept
    refine ⟨given, s₁, kept, hgiven, hkeeps, ?_, fun hs => orders_iff hs hgiven,
      Ty.homogeneous_of_closed hkeeps.firstAgrees⟩
    rintro element ⟨⟩
    cases hlist
    rfl
  · intro names parameters body type s' h
    obtain ⟨s₀, s₁, kept, hdeclared, hbody, hkeeps, htype⟩ := keeps_function h
    exact ⟨s₀, s₁, kept, hdeclared, hbody, hkeeps, htype, Ty.homogeneous_iff,
      Ty.homogeneous_of_closed hkeeps.firstAgrees⟩

/-- The literals in a list of lists, and those in the lists that a function answers with, where the
first list is empty. -/
def listAndAnswers? : List Stmt → Option (List Token.Literal)
  | [.declare _ _ none (.list _ [.list _ [], .list _ [.literal _ a], .list _ [.literal _ b]]),
      .function _ _ []
        [.branch _ (.literal _ (.boolean _)) [.answer _ (some (.list _ []))] .nothing,
        .branch _ (.literal _ (.boolean _)) [.answer _ (some (.list _ [.literal _ c]))] .nothing,
        .answer _ (some (.list _ [.literal _ d]))]] => some [a, b, c, d]
  | _ => none

/-- Lists of numbers, one of them empty, as the elements of a list and as the answers of a
function. -/
def listsOfNumbers : String :=
  "var xs : [[], [1], [2]]\nfn f ()\n  if true\n    return []\n  if true\n    return [1]\n" ++
    "  return [2]\n"

theorem keeps_listsOfNumbers : ∃ mutable name bracket elements fname keyword body,
    (Parsed.ofTokens (Token.scan listsOfNumbers.toList).tokens).program?
        = some [.declare mutable name none (.list bracket elements),
            .function fname keyword [] body] ∧
      (∀ order, order.Perm elements → ∃ type s',
        (Expr.list bracket order).check ⟨start, []⟩ = .ok type s') ∧
      Ty.Homogeneous (answersIn body (State.enter .function ⟨start, []⟩)) ∧
      ∃ kept, Ty.Keeps (answersIn body (State.enter .function ⟨start, []⟩)) kept := by
  have hrun : (Parsed.ofTokens (Token.scan listsOfNumbers.toList).tokens).program?.bind
      listAndAnswers? = some [.number "1", .number "2", .number "1", .number "2"] := by
    decide +kernel
  obtain ⟨program, hprogram, hliterals⟩ := Option.bind_eq_some_iff.mp hrun
  obtain ⟨hlists, hfunctions⟩ := keeps_elements_and_answers ⟨start, []⟩
  have horders {bracket elements given type s₁ s'}
      (h : (Expr.list bracket elements).check ⟨start, []⟩ = .ok type s')
      (hgiven : checkArgumentsBy Ty.fit elements ⟨start, []⟩ = .ok given s₁)
      (htypes : Ty.Homogeneous (given.map Prod.snd)) : ∀ order, order.Perm elements → ∃ type s',
        (Expr.list bracket order).check ⟨start, []⟩ = .ok type s' := by
    obtain ⟨given', s₁', -, hgiven', -, -, horders, -⟩ := hlists _ _ _ _ h
    cases hgiven.symm.trans hgiven'
    exact (horders taken_start).mp htypes
  have hanswers {body type s'} (h : Check.function [] [] (checkStatementsBy Ty.fit body)
      ⟨start, []⟩ = .ok type s') :
      ∃ kept, Ty.Keeps (answersIn body (State.enter .function ⟨start, []⟩)) kept := by
    obtain ⟨s₀, s₁, kept, hnone, -, hkeeps, -⟩ := hfunctions _ _ _ _ _ h
    cases hnone
    exact ⟨kept, hkeeps⟩
  have htypes : Ty.Homogeneous [.list (.var 6), .list .number, .list .number] := by decide
  unfold listAndAnswers? at hliterals
  split at hliterals
  · cases hliterals
    exact ⟨_, _, _, _, _, _, _, hprogram, horders rfl rfl htypes, htypes, hanswers rfl⟩
  · cases hliterals

/-- Lists of numbers and of texts beside an empty one. -/
def listsOfTwoKinds : String :=
  "var xs : [[], [1], ['a']]\nfn f ()\n  if true\n    return []\n  if true\n    return [1]\n" ++
    "  return ['a']\n"

/-- A list of numbers and a list of texts pass beside each other behind an empty list, which agrees
with both, and do not if the empty list is between them. -/
theorem listsOfTwoKinds_accepted : ∃ mutable name bracket elements fname keyword body,
    (Parsed.ofTokens (Token.scan listsOfTwoKinds.toList).tokens).program?
        = some [.declare mutable name none (.list bracket elements),
            .function fname keyword [] body] ∧
      (∃ type s', (Expr.list bracket elements).check ⟨start, []⟩ = .ok type s') ∧
      (∃ given s', checkArgumentsBy Ty.fit elements ⟨start, []⟩ = .ok given s' ∧
        ¬Ty.Homogeneous (given.map Prod.snd)) ∧
      (∃ order, order.Perm elements ∧
        ∃ e s', (Expr.list bracket order).check ⟨start, []⟩ = .error e s') ∧
      (∃ type s', Check.function [] [] (checkStatementsBy Ty.fit body) ⟨start, []⟩ = .ok type s') ∧
      ¬Ty.Homogeneous (answersIn body (State.enter .function ⟨start, []⟩)) := by
  have hrun : (Parsed.ofTokens (Token.scan listsOfTwoKinds.toList).tokens).program?.bind
      listAndAnswers? = some [.number "1", .text "a", .number "1", .text "a"] := by
    decide +kernel
  obtain ⟨program, hprogram, hliterals⟩ := Option.bind_eq_some_iff.mp hrun
  have htypes : ¬Ty.Homogeneous [.list (.var 6), .list .number, .list .text] := by decide
  unfold listAndAnswers? at hliterals
  split at hliterals
  · cases hliterals
    exact ⟨_, _, _, _, _, _, _, hprogram, ⟨_, _, rfl⟩, ⟨_, _, rfl, htypes⟩,
      ⟨_, .swap _ _ _, _, _, rfl⟩, ⟨_, _, rfl⟩, htypes⟩
  · cases hliterals

end Offside
