import Mathlib.SetTheory.Cardinal.Arithmetic
import Offside.Proofs.Circle
import Offside.Typing.Rules

/-!
# Proofs/Renaming — calls and the numbers of variables

The number of a variable means nothing by itself: a permutation of all numbers goes through the
comparison of arguments (`fit_rename`), the application of bindings (`apply_rename`) and so through
a call (`alike_call_perm`).

A call does bind the variables of the function under their own numbers, though.  Where an argument
has the same variables the two are taken for one another.  `call_rename_iff` says when that does not
matter: the call has to come to what it comes to with a copy of the function whose variables are
new.  `first_of_first` is a call where it matters.
-/

namespace Offside

open List

/-! ## Renaming types -/

namespace Ty

variable {f g : Nat → Ty} {t : Ty}

@[simp] theorem mapVarsFields_eq (f : Nat → Ty) : ∀ fields : List (String × Ty),
    mapVarsFields f fields = fields.map fun p => (p.1, p.2.mapVars f)
  | [] => rfl
  | _ :: later => by simp [mapVarsFields, mapVarsFields_eq f later]

@[simp] theorem mapVarsAll_eq (f : Nat → Ty) :
    ∀ types : List Ty, mapVarsAll f types = types.map (mapVars f)
  | [] => rfl
  | _ :: later => by simp [mapVarsAll, mapVarsAll_eq f later]

/-- Only the variables of a type matter to what is put in their place. -/
theorem mapVars_congr (h : ∀ v ∈ t.vars, f v = g v) : t.mapVars f = t.mapVars g := by
  induction t using induct with
  | number | text | boolean | nil => rfl
  | var id => exact h id mem_cons_self
  | list element ih => exact congrArg list (ih h)
  | maybe inner ih => exact congrArg maybe (ih h)
  | record fields ih =>
    rw [vars, varsFields_eq] at h
    simp only [mapVars, mapVarsFields_eq]
    refine congrArg record (map_congr_left fun p hp => ?_)
    rw [ih p hp fun v hv => h v (mem_flatMap.mpr ⟨p, hp, hv⟩)]
  | custom name arguments ih =>
    rw [vars, varsAll_eq] at h
    simp only [mapVars, mapVarsAll_eq]
    exact congrArg (custom name) (map_congr_left fun a ha =>
      ih a ha fun v hv => h v (mem_flatMap.mpr ⟨a, ha, hv⟩))
  | link input output terminal ihi iho =>
    rw [vars] at h
    rw [mapVars, mapVars, ihi fun v hv => h v (mem_append_left _ hv),
      iho fun v hv => h v (mem_append_right _ hv)]

/-- Two replacements of variables in a row are one. -/
@[simp] theorem mapVars_mapVars (f g : Nat → Ty) (t : Ty) :
    (t.mapVars f).mapVars g = t.mapVars fun v => (f v).mapVars g := by
  induction t using induct with
  | number | text | boolean | nil | var => rfl
  | list element ih => exact congrArg list ih
  | maybe inner ih => exact congrArg maybe ih
  | record fields ih =>
    simp only [mapVars, mapVarsFields_eq, map_map]
    exact congrArg record (map_congr_left fun p hp => congrArg (Prod.mk p.1) (ih p hp))
  | custom name arguments ih =>
    simp only [mapVars, mapVarsAll_eq, map_map]
    exact congrArg (custom name) (map_congr_left ih)
  | link input output terminal ihi iho => simp only [mapVars, ihi, iho]

@[simp] theorem mapVars_var (t : Ty) : t.mapVars var = t := by
  induction t using induct with
  | number | text | boolean | nil | var => rfl
  | list element ih => exact congrArg list ih
  | maybe inner ih => exact congrArg maybe ih
  | record fields ih =>
    rw [mapVars, mapVarsFields_eq, map_congr_left fun p hp => congrArg (Prod.mk p.1) (ih p hp)]
    exact congrArg record (map_id fields)
  | custom name arguments ih =>
    simp [mapVars, map_congr_left ih, map_id']
  | link input output terminal ihi iho => rw [mapVars, ihi, iho]

/-- The variables of a type with others in their place are those of the types put there. -/
theorem vars_mapVars (f : Nat → Ty) (t : Ty) :
    (t.mapVars f).vars = t.vars.flatMap fun v => (f v).vars := by
  induction t using induct with
  | number | text | boolean | nil => rfl
  | var id => exact (append_nil _).symm
  | list element ih | maybe inner ih => exact ih
  | record fields ih =>
    simp only [mapVars, vars, mapVarsFields_eq, varsFields_eq, flatMap_map, flatMap_assoc]
    exact flatMap_congr fun p hp => ih p hp
  | custom name arguments ih =>
    simp only [mapVars, vars, mapVarsAll_eq, varsAll_eq, flatMap_map, flatMap_assoc]
    exact flatMap_congr ih
  | link input output terminal ihi iho =>
    rw [mapVars, vars, vars, ihi, iho, flatMap_append]

@[simp] theorem mapVars_links (f : Nat → Ty) (result : Ty) : ∀ parameters : List Ty,
    (links parameters result).mapVars f = links (parameters.map (mapVars f)) (result.mapVars f)
  | [] => rfl
  | [_] => rfl
  | input :: next :: later =>
    congrArg (link (input.mapVars f) · false) (mapVars_links f result (next :: later))

/-- **What is put in place of variables does not change how many parameters a function has.** -/
@[simp] theorem mapVars_function (f : Nat → Ty) (parameters : List Ty) (result : Ty) :
    (function parameters result).mapVars f
      = function (parameters.map (mapVars f)) (result.mapVars f) := by
  rw [function, function, mapVars_links, isEmpty_map]
  split <;> rfl

/-- The type with its variables renamed. -/
def rename (r : Nat → Nat) : Ty → Ty := mapVars fun v => var (r v)

variable {r : Nat → Nat}

theorem rename_congr {q} (h : ∀ v ∈ t.vars, r v = q v) : t.rename r = t.rename q :=
  mapVars_congr fun v hv => congrArg var (h v hv)

@[simp] theorem rename_rename (r q : Nat → Nat) (t : Ty) :
    (t.rename r).rename q = t.rename (q ∘ r) :=
  mapVars_mapVars _ _ t

@[simp] theorem rename_id (t : Ty) : t.rename id = t := mapVars_var t

@[simp] theorem vars_rename (r : Nat → Nat) (t : Ty) : (t.rename r).vars = t.vars.map r :=
  (vars_mapVars _ t).trans map_eq_flatMap.symm

@[simp] theorem isVar_rename (r : Nat → Nat) (t : Ty) : (t.rename r).isVar = t.isVar := by
  cases t <;> rfl

@[simp] theorem isNil_rename (r : Nat → Nat) (t : Ty) : (t.rename r).isNil = t.isNil := by
  cases t <;> rfl

@[simp] theorem isMaybe_rename (r : Nat → Nat) (t : Ty) : (t.rename r).isMaybe = t.isMaybe := by
  cases t <;> rfl

/-- The fields of a record with their variables renamed. -/
def renameFields (r : Nat → Nat) (fields : List (String × Ty)) : List (String × Ty) :=
  fields.map fun p => (p.1, p.2.rename r)

@[simp] theorem rename_var (r : Nat → Nat) (id : Nat) : (var id).rename r = var (r id) := rfl

@[simp] theorem rename_list (r : Nat → Nat) (element : Ty) :
    (list element).rename r = list (element.rename r) := rfl

@[simp] theorem rename_maybe (r : Nat → Nat) (inner : Ty) :
    (maybe inner).rename r = maybe (inner.rename r) := rfl

@[simp] theorem rename_link (r : Nat → Nat) (input output : Ty) (terminal : Bool) :
    (link input output terminal).rename r = link (input.rename r) (output.rename r) terminal := rfl

@[simp] theorem rename_record (r : Nat → Nat) (fields : List (String × Ty)) :
    (record fields).rename r = record (renameFields r fields) :=
  congrArg record (mapVarsFields_eq _ fields)

@[simp] theorem rename_custom (r : Nat → Nat) (name : String) (arguments : List Ty) :
    (custom name arguments).rename r = custom name (arguments.map (rename r)) :=
  congrArg (custom name) (mapVarsAll_eq _ arguments)

@[simp] theorem lookup_renameFields (r : Nat → Nat) (key : String) : ∀ fields : List (String × Ty),
    (renameFields r fields).lookup key = (fields.lookup key).map (rename r)
  | [] => rfl
  | (name, type) :: later => by
    rw [renameFields, map_cons, lookup_cons, lookup_cons]
    cases key == name with
    | true => rfl
    | false => exact lookup_renameFields r key later

@[simp] theorem unlink_rename (r : Nat → Nat) (t : Ty) :
    (t.rename r).unlink = (t.unlink.1.map (rename r), t.unlink.2.rename r) := by
  induction t using induct with
  | link input output terminal _ iho =>
    cases terminal with
    | true => rfl
    | false =>
      change (input.rename r :: (output.rename r).unlink.1, (output.rename r).unlink.2) = _
      rw [iho]
      rfl
  | record | custom => simp [unlink]
  | _ => rfl

@[simp] theorem signature?_rename (r : Nat → Nat) (t : Ty) :
    (t.rename r).signature? = t.signature?.map fun p => (p.1.map (rename r), p.2.rename r) := by
  cases t with
  | link input output terminal =>
    exact congrArg some (unlink_rename r (link input output terminal))
  | _ => rfl

end Ty

/-! ## Permuting the numbers of variables -/

namespace Subst

variable (π : Equiv.Perm Nat) (s : Subst)

/-- The bindings with their variables renamed. -/
def rename (s : Subst) : Subst := ⟨s.bindings.map fun p => (π p.1, p.2.rename π)⟩

@[simp] theorem size_rename : (s.rename π).size = s.size := length_map _

/-- A variable is bound to what it was, renamed. -/
@[simp] theorem get?_rename (id : Nat) :
    (s.rename π).get? (π id) = (s.get? id).map (Ty.rename π) := by
  obtain ⟨bindings⟩ := s
  induction bindings with
  | nil => rfl
  | cons first later ih =>
    obtain ⟨key, type⟩ := first
    simp only [rename, get?, map_cons, lookup_cons] at ih ⊢
    by_cases h : id = key
    · simp [h]
    · rw [beq_false_of_ne h, beq_false_of_ne fun e => h (π.injective e)]
      exact ih

theorem insert_rename (id : Nat) (t : Ty) :
    (s.insert id t).rename π = (s.rename π).insert (π id) (t.rename π) := by
  have hkeys : (fun p : Nat × Ty => p.1 != π id) ∘ (fun p : Nat × Ty => (π p.1, p.2.rename π))
      = fun p : Nat × Ty => p.1 != id := by
    funext p
    simp [bne, π.injective.eq_iff]
  simp only [rename, insert, map_cons, filter_map, hkeys]

/-- **Permuting numbers goes through the application of bindings.** -/
theorem applyTo_rename (s : Subst) : ∀ (depth : Nat) (t : Ty),
    (s.rename π).applyTo depth (t.rename π) = (s.applyTo depth t).rename π
  | 0, _ => rfl
  | depth + 1, t => by
    rw [applyTo, applyTo, Ty.rename, Ty.mapVars_mapVars, Ty.mapVars_mapVars]
    refine Ty.mapVars_congr fun id _ => ?_
    rw [Ty.mapVars, get?_rename]
    cases s.get? id with
    | none => rfl
    | some bound =>
      have hself : (bound.rename π == Ty.var (π id)) = (bound == Ty.var id) := by
        cases bound with
        | var other => simp [BEq.beq, Ty.rename, Ty.mapVars, Ty.equal]
        | _ => rfl
      simp only [Option.map_some, hself]
      split
      · rfl
      · exact applyTo_rename s depth bound

theorem apply_rename (t : Ty) : (s.rename π).apply (t.rename π) = (s.apply t).rename π := by
  simp [apply, applyTo_rename]

@[simp] theorem stripMaybe_rename (r : Nat → Nat) (t : Ty) :
    stripMaybe (t.rename r) = (stripMaybe t).rename r := by
  induction t using Ty.induct with
  | maybe inner ih => exact ih
  | record | custom => simp [stripMaybe]
  | _ => rfl

@[simp] theorem seen_rename (through : Bool) (t : Ty) :
    seen through (t.rename π) = (seen through t).rename π := by
  cases through with
  | true => exact stripMaybe_rename π t
  | false => rfl

/-- What a renamed type comes to. -/
def Exposed.rename : Exposed → Exposed
  | .free id => .free (π id)
  | .shape t => .shape (t.rename π)
  | .endless => .endless

theorem IsFree.rename {s id} (h : IsFree s id) : IsFree (s.rename π) (π id) := by
  intro bound hb
  rw [get?_rename] at hb
  obtain ⟨t, ht, rfl⟩ := Option.map_eq_some_iff.mp hb
  rw [Ty.isVar_rename]
  exact h t ht

/-- What a type exposes is renamed with it. -/
theorem Exposes.rename {s through n t x} (h : Exposes s through n t x) :
    Exposes (s.rename π) through n (t.rename π) (x.rename π) := by
  have hbound {id : Nat} {bound : Ty} (h : s.get? id = some bound) :
      (s.rename π).get? (π id) = some (bound.rename π) := by rw [get?_rename, h]; rfl
  have hseen {t : Ty} {id : Nat} (h : seen through t = .var id) :
      seen through (t.rename π) = .var (π id) := by rw [seen_rename, h]; rfl
  induction h with
  | free ht hf => exact .free (hseen ht) (hf.rename π)
  | shape ht =>
    rw [Exposed.rename, ← seen_rename]
    exact .shape (by rw [seen_rename, Ty.isVar_rename, ht])
  | endless ht hget hb =>
    exact .endless (hseen ht) (hbound hget) (by rw [Ty.isVar_rename, hb])
  | further ht hget hb _ ih =>
    exact .further (hseen ht) (hbound hget) (by rw [Ty.isVar_rename, hb]) ih

theorem expose_rename (through : Bool) (n : Nat) (t : Ty) :
    (s.rename π).expose through n (t.rename π) = (s.expose through n t).rename π :=
  ((exposes_expose s through n t).rename π).eq

end Subst

/-- The outcome with the variables of its bindings renamed. -/
def Fit.rename (π : Equiv.Perm Nat) : Fit → Fit
  | .fits s => .fits (s.rename π)
  | .clashes s => .clashes (s.rename π)
  | .endless t s => .endless (t.rename π) (s.rename π)

theorem Subst.against_rename (π : Equiv.Perm Nat) (s : Subst) (actual expected : Ty)
    (through : Bool) {compare compare'} (h : ∀ t, compare' (t.rename π) = (compare t).rename π) :
    (s.rename π).against (actual.rename π) (expected.rename π) through compare'
      = (s.against actual expected through compare).rename π := by
  unfold against
  rw [size_rename, expose_rename]
  cases s.expose through s.size expected with
  | free id => exact congrArg Fit.fits (insert_rename π s id actual).symm
  | shape t => exact h t
  | endless => rfl

namespace Ty

variable (π : Equiv.Perm Nat)

theorem fitEach_rename {α : Type} {f g} : ∀ (xs : List α) (s : Subst),
    (∀ x ∈ xs, ∀ s, g x (s.rename π) = (f x s).rename π) →
      fitEach (xs.map g) (s.rename π) = (fitEach (xs.map f) s).rename π
  | [], _, _ => rfl
  | x :: xs, s, h => by
    obtain ⟨hx, hxs⟩ := forall_mem_cons.mp h
    rw [map_cons, map_cons, fitEach, fitEach, hx s]
    cases f x s with
    | fits s' => exact fitEach_rename xs s' hxs
    | clashes s' | endless t s' => rfl

@[simp] theorem goesThrough_rename (a : Ty) : (a.rename π).goesThrough = a.goesThrough := by
  cases a <;> rfl

/-- The parts to compare are renamed with the types. -/
theorem pairs?_rename (a shape : Ty) : (a.rename π).pairs? (shape.rename π)
    = (a.pairs? shape).map (map (Prod.map (Option.map (rename π)) (rename π))) := by
  cases a with
  | var | nil | number | text | boolean | maybe | list => cases shape <;> rfl
  | record fields =>
    cases shape with
    | record shapes =>
      simp only [rename_record, pairs?, lookup_renameFields]
      simp only [renameFields, length_map]
      split
      · simp only [map_map, Option.map_some]
        rfl
      · rfl
    | _ => rfl
  | custom name types =>
    cases shape with
    | custom other shapes =>
      simp only [rename_custom, pairs?, length_map]
      split
      · simp only [zip_map, map_map, Option.map_some]
        rfl
      · rfl
    | _ => rfl
  | link input output terminal =>
    cases shape with
    | link _ _ terminal' =>
      simp only [rename_link, pairs?]
      split <;> rfl
    | _ => rfl

/-- **Permuting numbers goes through the comparison of an argument with a parameter.** -/
theorem fit_rename (a e : Ty) (s : Subst) :
    (a.rename π).fit (e.rename π) (s.rename π) = (a.fit e s).rename π := by
  induction a using induct_children generalizing e s with
  | step a ih =>
    rw [fit_eq, fit_eq, goesThrough_rename]
    refine s.against_rename π a e a.goesThrough fun shape => ?_
    rw [pairs?_rename]
    cases hpairs : a.pairs? shape with
    | none => rfl
    | some pairs =>
      simp only [Option.map_some, map_map]
      refine fitEach_rename π pairs s fun ⟨part, _⟩ hp s => ?_
      cases part with
      | none => rfl
      | some part => exact ih part ((children_of_pairs? hpairs _ hp).1 part rfl) _ s

end Ty

/-! ## Calls -/

namespace Check

variable {α : Type} {callee : Ty} {given : List (Token × Ty)}

/-- The same verdict: a value each, and these are related; or a refusal at the same token; or no
end. -/
inductive Agree (related : α → α → Prop) :
    EStateM.Result Halt State α → EStateM.Result Halt State α → Prop
  | ok {a b} (h : related a b) (s s' : State) : Agree related (.ok a s) (.ok b s')
  | refused {r r'} (h : r.token = r'.token) (s s' : State) :
    Agree related (.error (.refused r) s) (.error (.refused r') s')
  | endless (t t' : Ty) (b b' : Subst) (s s' : State) :
      Agree related (.error (.endless t b) s) (.error (.endless t' b') s')

namespace Agree

variable {β : Type} {R : α → α → Prop} {Q : β → β → Prop} {st st' : State}

theorem pure {a b} (h : R a b) :
    Agree R ((Pure.pure a : Check α) st) ((Pure.pure b : Check α) st') := .ok h st st'

theorem refuse (token : Token) (fault fault' : TypeFault) :
    Agree R (Check.refuse token fault st) (Check.refuse token fault' st') :=
  have h : (TypeRefusal.mk token fault).token = (TypeRefusal.mk token fault').token := rfl
  .refused h st st'

theorem bind {w w' : Check α} {f g : α → Check β} (h : Agree R (w st) (w' st'))
    (hf : ∀ {a b} t t', R a b → Agree Q (f a t) (g b t')) :
    Agree Q ((w >>= f) st) ((w' >>= g) st') := by
  generalize hx : w st = x, hy : w' st' = y at h
  cases h with
  | ok h t t' =>
    rw [bind_ok hx, bind_ok hy]
    exact hf t t' h
  | refused h t t' =>
    rw [bind_error hx, bind_error hy]
    exact .refused h t t'
  | endless =>
    rw [bind_error hx, bind_error hy]
    exact .endless ..

end Agree

/-- The same verdict on a call, with results that differ in the numbers of variables only. -/
def Alike : EStateM.Result Halt State Ty → EStateM.Result Halt State Ty → Prop :=
  Agree fun t u => ∃ ρ : Equiv.Perm Nat, u = t.rename ρ

theorem Alike.trans {x y z} (h : Alike x y) (h' : Alike y z) : Alike x z := by
  cases h with
  | ok h =>
    cases h' with
    | ok h' =>
      obtain ⟨ρ, rfl⟩ := h
      obtain ⟨τ, rfl⟩ := h'
      exact .ok ⟨ρ.trans τ, Ty.rename_rename _ _ _⟩ _ _
  | refused h => cases h' with | refused h' => exact .refused (h.trans h') _ _
  | endless => cases h' with | endless => exact .endless ..

/-- The arguments of a call with their variables renamed. -/
def renameGiven (r : Nat → Nat) (given : List (Token × Ty)) : List (Token × Ty) :=
  given.map fun g => (g.1, g.2.rename r)

/-- Arguments are compared alike after renaming. -/
theorem arguments_rename (π : Equiv.Perm Nat) : ∀ (parameters : List Ty)
    (given : List (Token × Ty)) (number : Nat) (s : Subst) (st st' : State),
    Agree (fun s₁ s₂ => s₂ = s₁.rename π) (arguments Ty.fit number parameters given s st)
      (arguments Ty.fit number (parameters.map (Ty.rename π)) (renameGiven π given) (s.rename π)
        st')
  | [], _, _, _, _, _ => by
    simp only [arguments, map_nil]
    exact .pure rfl
  | _ :: _, [], _, _, _, _ => by
    simp only [arguments, renameGiven, map_cons, map_nil]
    exact .pure rfl
  | parameter :: parameters, (anchor, argument) :: later, number, s, st, st' => by
    simp only [arguments, renameGiven, map_cons, Ty.fit_rename]
    cases argument.fit parameter s with
    | fits s' => exact arguments_rename π parameters later (number + 1) s' st st'
    | clashes s' => exact .refuse _ _ _
    | endless t s' => exact .endless ..

@[simp] theorem isNullary_rename (r : Nat → Nat) (t : Ty) :
    isNullary (t.rename r) = isNullary t := by
  cases t with
  | link input output terminal =>
    simp [isNullary]
  | _ => rfl

@[simp] theorem arityMatches_rename (r : Nat → Nat) (callee : Ty) (parameters : List Ty)
    (given : List (Token × Ty)) :
    arityMatches (callee.rename r) (parameters.map (Ty.rename r)) (renameGiven r given)
      = arityMatches callee parameters given := by
  have hnil : (renameGiven r given).map (·.2.isNil) = given.map (·.2.isNil) := by
    rw [renameGiven, map_map]
    exact map_congr_left fun g _ => Ty.isNil_rename r g.2
  have hlength : (renameGiven r given).length = given.length := length_map _
  simp [arityMatches, arity, hnil, hlength]

/-- **Permuting the numbers of variables goes through a call.** -/
theorem alike_call_perm (π : Equiv.Perm Nat) (paren : Token) (callee : Ty)
    (given : List (Token × Ty)) (st : State) :
    Alike (call Ty.fit paren callee given st)
      (call Ty.fit paren (callee.rename π) (renameGiven π given) st) := by
  unfold call
  rw [Ty.signature?_rename]
  cases callee.signature? with
  | none =>
    simp
    split
    · exact .ok ⟨1, (Ty.rename_id _).symm⟩ _ _
    · exact .refuse _ _ _
  | some signature =>
    obtain ⟨parameters, result⟩ := signature
    simp only [Option.map_some, arityMatches_rename]
    refine .bind (R := fun _ _ => True) ?_ fun t t' _ => ?_
    · unfold require
      split
      · exact .pure trivial
      · exact .refuse _ _ _
    · refine .bind (arguments_rename π parameters given 1 .empty t t') fun _ _ h => ?_
      rw [h, Subst.apply_rename]
      exact .pure ⟨π, rfl⟩

/-! ## Fresh variables -/

/-- A renaming of the variables of a function to variables that neither it nor its arguments
have. -/
structure Fresh (r : Nat → Nat) (callee : Ty) (given : List (Token × Ty)) : Prop where
  injective : ∀ v ∈ callee.vars, ∀ w ∈ callee.vars, r v = r w → v = w
  notCallee : ∀ v ∈ callee.vars, r v ∉ callee.vars
  notGiven : ∀ v ∈ callee.vars, ∀ g ∈ given, r v ∉ g.2.vars

/-- A function has no variable in common with its arguments. -/
def Apart (callee : Ty) (given : List (Token × Ty)) : Prop :=
  ∀ v ∈ callee.vars, ∀ g ∈ given, v ∉ g.2.vars

/-- A map that is injective on finitely many numbers agrees there with a permutation. -/
theorem exists_perm (f : Nat → Nat) (l : List Nat) (h : ∀ v ∈ l, ∀ w ∈ l, f v = f w → v = w) :
    ∃ π : Equiv.Perm Nat, ∀ v ∈ l, π v = f v := by
  have hfinite : Cardinal.mk {v | v ∈ l} < Cardinal.mk Nat := by
    rw [Cardinal.mk_nat]
    exact (finite_toSet l).lt_aleph0
  obtain ⟨π, hπ⟩ := Cardinal.extend_function_of_lt
    (⟨fun v => f v.1, fun v w hvw => Subtype.ext (h v.1 v.2 w.1 w.2 hvw)⟩ : {v | v ∈ l} ↪ Nat)
    hfinite ⟨Equiv.refl Nat⟩
  exact ⟨π, fun v hv => hπ ⟨v, hv⟩⟩

/-- **A call does not depend on the variables of a function apart from its arguments.** -/
theorem alike_call_of_apart {r} (hapart : Apart callee given)
    (hinj : ∀ v ∈ callee.vars, ∀ w ∈ callee.vars, r v = r w → v = w)
    (hr : Apart (callee.rename r) given) (paren : Token) (st : State) :
    Alike (call Ty.fit paren callee given st) (call Ty.fit paren (callee.rename r) given st) := by
  -- the renaming on the variables of the function, nothing on those of the arguments
  let used := given.flatMap (·.2.vars)
  let f v := if v ∈ used then v else r v
  have hnot : ∀ v ∈ callee.vars, v ∉ used ∧ r v ∉ used := by
    intro v hv
    have hrv : r v ∈ (callee.rename r).vars := by
      rw [Ty.vars_rename]
      exact mem_map_of_mem hv
    exact ⟨fun h => by
        obtain ⟨g, hg, hvg⟩ := mem_flatMap.mp h
        exact hapart v hv g hg hvg,
      fun h => by
        obtain ⟨g, hg, hvg⟩ := mem_flatMap.mp h
        exact hr (r v) hrv g hg hvg⟩
  have hf : ∀ v ∈ callee.vars, f v = r v := fun v hv => if_neg (hnot v hv).1
  have hfused : ∀ v ∈ used, f v = v := fun v hv => if_pos hv
  obtain ⟨π, hπ⟩ := exists_perm f (callee.vars ++ used) (by
    intro v hv w hw hvw
    rcases mem_append.mp hv with hv | hv <;> rcases mem_append.mp hw with hw | hw
    · rw [hf v hv, hf w hw] at hvw
      exact hinj v hv w hw hvw
    · rw [hf v hv, hfused w hw] at hvw
      exact absurd (hvw ▸ hw) (hnot v hv).2
    · rw [hfused v hv, hf w hw] at hvw
      exact absurd (hvw ▸ hv) (hnot w hw).2
    · rwa [hfused v hv, hfused w hw] at hvw)
  have hcallee : callee.rename π = callee.rename r :=
    Ty.rename_congr fun v hv => (hπ v (mem_append_left _ hv)).trans (hf v hv)
  have hgiven : renameGiven π given = given := by
    refine (map_congr_left fun g hg => ?_).trans (map_id given)
    have hid : g.2.rename π = g.2.rename id := Ty.rename_congr fun v hv => by
      have hu : v ∈ used := mem_flatMap.mpr ⟨g, hg, hv⟩
      exact (hπ v (mem_append_right _ hu)).trans (hfused v hu)
    rw [hid, Ty.rename_id]
    rfl
  have h := alike_call_perm π paren callee given st
  rwa [hcallee, hgiven] at h

/-- A number above those of all variables of a function and its arguments. -/
def bound (callee : Ty) (given : List (Token × Ty)) : Nat :=
  (callee.vars ++ given.flatMap (·.2.vars)).foldr max 0 + 1

/-- The function with a new variable for each of its variables. -/
def freshCopy (callee : Ty) (given : List (Token × Ty)) : Ty :=
  callee.rename (· + bound callee given)

theorem le_foldr_max : ∀ {l : List Nat} {v : Nat}, v ∈ l → v ≤ l.foldr max 0
  | first :: later, v, h => by
    rw [foldr_cons]
    rcases mem_cons.mp h with rfl | h
    · exact le_max_left _ _
    · exact le_trans (le_foldr_max h) (le_max_right _ _)

theorem fresh_bound (callee : Ty) (given : List (Token × Ty)) :
    Fresh (· + bound callee given) callee given := by
  have hlt : ∀ v, ∀ w ∈ callee.vars ++ given.flatMap (·.2.vars), v + bound callee given ≠ w := by
    intro v w hw heq
    have hle := le_foldr_max hw
    simp only [bound] at heq
    omega
  refine ⟨fun v _ w _ h => Nat.add_right_cancel h, fun v _ h => ?_, fun v _ g hg h => ?_⟩
  · exact hlt v _ (mem_append_left _ h) rfl
  · exact hlt v _ (mem_append_right _ (mem_flatMap.mpr ⟨g, hg, h⟩)) rfl

theorem Fresh.apart {r} (h : Fresh r callee given) : Apart (callee.rename r) given := by
  intro w hw g hg
  rw [Ty.vars_rename] at hw
  obtain ⟨v, hv, rfl⟩ := mem_map.mp hw
  exact h.notGiven v hv g hg

/-- **All copies of a function with new variables are called alike.** -/
theorem alike_call_freshCopy {r} (h : Fresh r callee given) (paren : Token) (st : State) :
    Alike (call Ty.fit paren (freshCopy callee given) given st)
      (call Ty.fit paren (callee.rename r) given st) := by
  have hback : (freshCopy callee given).rename (fun w => r (w - bound callee given))
      = callee.rename r := by
    rw [freshCopy, Ty.rename_rename]
    exact Ty.rename_congr fun v _ => congrArg r (Nat.add_sub_cancel v _)
  have hapart : Apart (freshCopy callee given) given := (fresh_bound callee given).apart
  have hinj : ∀ v ∈ (freshCopy callee given).vars, ∀ w ∈ (freshCopy callee given).vars,
      r (v - bound callee given) = r (w - bound callee given) → v = w := by
    intro v hv w hw hvw
    rw [freshCopy, Ty.vars_rename] at hv hw
    obtain ⟨v', hv', rfl⟩ := mem_map.mp hv
    obtain ⟨w', hw', rfl⟩ := mem_map.mp hw
    rw [Nat.add_sub_cancel, Nat.add_sub_cancel] at hvw
    rw [h.injective v' hv' w' hw' hvw]
  have hcall := alike_call_of_apart hapart hinj (by rw [hback]; exact h.apart) paren st
  rwa [hback] at hcall

/-- **A call depends on the variables of the function exactly where it is not called as a copy of it
with new variables is.**  A copy with new variables never does, nor does a function that has no
variable in common with its arguments. -/
theorem call_rename_iff (paren : Token) (callee : Ty) (given : List (Token × Ty)) (st : State) :
    ((∀ r, Fresh r callee given →
        Alike (call Ty.fit paren callee given st) (call Ty.fit paren (callee.rename r) given st)) ↔
      Alike (call Ty.fit paren callee given st)
        (call Ty.fit paren (freshCopy callee given) given st)) ∧
    (∀ r, Fresh r callee given → Alike (call Ty.fit paren (freshCopy callee given) given st)
        (call Ty.fit paren (callee.rename r) given st)) ∧
    (Apart callee given → ∀ r, Fresh r callee given → Alike (call Ty.fit paren callee given st)
        (call Ty.fit paren (callee.rename r) given st)) := by
  refine ⟨⟨fun h => ?_, fun h r hr => ?_⟩, fun r hr => ?_, fun hapart r hr => ?_⟩
  · exact h _ (fresh_bound callee given)
  · exact h.trans (alike_call_freshCopy hr paren st)
  · exact alike_call_freshCopy hr paren st
  · exact alike_call_of_apart hapart hr.injective hr.apart paren st

/-- The type of a function that gives the first of two arguments. -/
def firstType : Ty := .function [.var 6, .var 7] (.var 6)

/-- That function itself, and a number. -/
def firstAndNumber : List (Token × Ty) :=
  [(⟨.identifier, "first", none, ⟨3, 14⟩⟩, firstType),
    (⟨.number, "1", some (.number "1"), ⟨3, 21⟩⟩, .number)]

/-- The parenthesis that opens the call. -/
def firstParen : Token := ⟨.opening .round, "(", none, ⟨3, 13⟩⟩

/-- With the variables it has, the function applied to itself gives a function that takes a
function; with new ones it gives itself. -/
theorem first_of_first : Fresh (· + 2) firstType firstAndNumber ∧
      ¬ Alike (call Ty.fit firstParen firstType firstAndNumber ⟨Checker.start, []⟩)
        (call Ty.fit firstParen (firstType.rename (· + 2)) firstAndNumber ⟨Checker.start, []⟩) := by
  refine ⟨⟨by decide, by decide, by decide⟩, fun h => ?_⟩
  have hown : call Ty.fit firstParen firstType firstAndNumber ⟨Checker.start, []⟩
      = .ok (.function [firstType, .number] firstType) ⟨Checker.start, []⟩ := by rfl
  have hnew : call Ty.fit firstParen (firstType.rename (· + 2)) firstAndNumber ⟨Checker.start, []⟩
      = .ok firstType ⟨Checker.start, []⟩ := by rfl
  rw [hown, hnew] at h
  cases h with
  | ok h =>
    obtain ⟨ρ, h⟩ := h
    exact Ty.noConfusion (Ty.link.inj h).1

end Check

end Offside
