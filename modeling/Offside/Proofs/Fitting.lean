import Offside.Proofs.Pinning

/-!
# Proofs/Fitting — what a declaration takes, a call takes

A value is compared with the type that it is declared with by `accepts`, and with that of a
parameter by `fit`.  The two go through options differently: `accepts` takes them from the expected
type one by one, and tries the whole of what is left each time; `fit` takes all of them at once, or
one from both sides.  Where the expected type has no variables, what is accepted fits and binds
nothing (`fit_of_accepts`).
-/

namespace Offside

open Subst (seen stripMaybe)

namespace Ty

/-! ## Options -/

theorem closed_stripMaybe : ∀ {e}, e.Closed → (stripMaybe e).Closed
  | maybe inner, h => closed_stripMaybe (e := inner) h
  | number, h | text, h | boolean, h | nil, h | var _, h | list _, h | record _, h | custom _ _, h
  | link _ _ _, h => h

/-- What takes an option of a type takes the type. -/
theorem accepts_of_maybe {e inner : Ty} (he : e.Closed) (h : e.accepts (maybe inner) = true) :
    e.accepts inner = true := by
  induction e using induct with
  | maybe type ih =>
    rcases accepts_cases h with hagree | ⟨_, ⟨rfl⟩, hnil | hinner⟩
    · exact accepts_of_inner (accepts_of_compatible hagree)
    · cases hnil
    · exact accepts_of_inner (ih he hinner)
  | var id => cases he
  | _ => cases h

/-- **A type without options is taken as such**: what is left of the expected one agrees with it. -/
theorem compatible_stripMaybe {e a} (ha : IsPlain a) (h : e.accepts a = true) :
    (stripMaybe e).compatible a = true := by
  induction e using induct with
  | maybe type ih =>
    rcases accepts_cases h with hagree | ⟨_, ⟨rfl⟩, rfl | hinner⟩
    · cases a with
      | var | maybe => exact ha.elim
      | _ => cases hagree
    · exact ha.elim
    · exact ih hinner
  | _ => exact h

/-! ## Comparisons -/

variable {a e : Ty} {s : Subst}

/-- A type without variables is compared as it is. -/
theorem against_of_closed (he : e.Closed) (through : Bool) (compare : Ty → Fit) :
    s.against a e through compare = compare (seen through e) := by
  have hshape : (seen through e).isVar = false := by
    cases through with
    | false => exact (closed_iff.mp he).1
    | true => exact (closed_iff.mp (closed_stripMaybe he)).1
  rw [Subst.against, (Subst.Exposes.shape hshape).eq]

/-- An argument without options is compared with a shape that it is alike to. -/
theorem against_of_accepts (he : e.Closed) (h : e.accepts a = true) (ha : IsPlain a) {compare r}
    (hcompare : ∀ shape, Alike (fun x y => x.Closed ∧ x.accepts y = true) shape a →
      compare shape = r) : s.against a e true compare = r := by
  rw [against_of_closed he]
  obtain ⟨hvar, hchildren⟩ := closed_iff.mp (closed_stripMaybe he)
  rcases compatible_iff.mp (compatible_stripMaybe ha h) with hv | hv | halike
  · cases hvar.symm.trans hv
  · cases a with
    | var => exact ha.elim
    | _ => cases hv
  · exact hcompare _ (halike.imp fun x hx _ _ hagree =>
      ⟨hchildren x hx, accepts_of_compatible hagree⟩)

/-- Comparisons that bind nothing, one after the other. -/
theorem fitEach_of_fits :
    ∀ {compares}, (∀ compare ∈ compares, compare s = .fits s) → fitEach compares s = .fits s
  | [], _ => rfl
  | compare :: later, h => by
    obtain ⟨hfirst, hlater⟩ := List.forall_mem_cons.mp h
    rw [fitEach, hfirst]
    exact fitEach_of_fits hlater

theorem fit_eq_fits (he : e.Closed) (h : e.accepts a = true) (s : Subst) : a.fit e s = .fits s := by
  induction a using induct generalizing e with
  | var id => rw [fit, against_of_closed he]
  | nil =>
    rw [fit, against_of_closed he]
    have hshape : (e.isNil || e.isMaybe) = true := by
      rcases accepts_cases h with hagree | ⟨inner, rfl, -⟩
      · cases e with
        | nil => rfl
        | var => cases he
        | _ => cases hagree
      · rfl
    exact if_pos hshape
  | maybe inner ih =>
    rw [fit, against_of_closed he]
    rcases accepts_cases h with hagree | ⟨type, rfl, hnil | hinner⟩
    · cases e with
      | maybe type => exact ih he (accepts_of_compatible hagree)
      | var => cases he
      | _ => cases hagree
    · cases hnil
    · exact ih (e := type) he (accepts_of_maybe he hinner)
  | number | text | boolean =>
    rw [fit]
    refine against_of_accepts he h trivial fun shape halike => ?_
    cases halike
    rfl
  | list element ih =>
    rw [fit]
    refine against_of_accepts he h trivial fun shape halike => ?_
    cases halike with
    | list helement => exact ih helement.1 helement.2
  | record fields ih =>
    rw [fit]
    refine against_of_accepts he h trivial fun shape halike => ?_
    cases halike with
    | @record types _ hfinds =>
      simp only [hfinds.length, beq_self_eq_true, if_true, fitFields_eq]
      refine fitEach_of_fits (List.forall_mem_map.mpr fun f hf => ?_)
      obtain ⟨other, hother, hclosed, haccepts⟩ := hfinds.found f hf
      rw [fitField, hother]
      exact ih _ (mem_of_lookup hother) hclosed haccepts
  | custom name arguments ih =>
    rw [fit]
    refine against_of_accepts he h trivial fun shape halike => ?_
    cases halike with
    | custom _ htypes =>
      simp only [htypes.length_eq, beq_self_eq_true, Bool.and_self, if_true, fitAll_eq]
      refine fitEach_of_fits (List.forall_mem_map.mpr fun p hp => ?_)
      obtain ⟨hclosed, haccepts⟩ := (List.forall₂_iff_zip.mp htypes.flip).2 hp
      exact ih _ (List.of_mem_zip hp).1 hclosed haccepts
  | link input output terminal ih ih' =>
    rw [fit]
    refine against_of_accepts he h trivial fun shape halike => ?_
    cases halike with
    | link _ hinput houtput =>
      simp only [beq_self_eq_true, if_true, ih hinput.1 hinput.2, Fit.andThen,
        ih' houtput.1 houtput.2]

/-- **A call refuses nothing that a declaration takes.**  Where a type without variables accepts a
type, an argument of that type fits a parameter of the first one, whatever is bound already, and
nothing more is bound.  Recursion on the parameter ends with the same, once it goes deep enough. -/
theorem fit_of_accepts {expected actual : Ty} (hfree : expected.vars = [])
    (h : expected.accepts actual = true) (s : Subst) :
    actual.fit expected s = .fits s ∧
      ∃ depth, ∀ n, depth ≤ n → pinWithin n actual expected s = .fits s := by
  have hfits := fit_eq_fits hfree h s
  refine ⟨hfits, ?_⟩
  rw [← hfits]
  refine (limit_pinWithin actual expected s).reached ?_
  rw [hfits]
  exact id

/-- A parameter that is an option of an option, and an argument that is an option of a record whose
fields are partly known. -/
def optionalOption : Ty := maybe (maybe (record [("name", maybe text), ("size", number)]))

@[inherit_doc optionalOption]
def partlyKnown : Ty := maybe (record [("size", var 7), ("name", maybe (var 8))])

theorem fit_partlyKnown : optionalOption.vars = [] ∧ optionalOption.accepts partlyKnown = true ∧
    partlyKnown.fit optionalOption ⟨[(7, text)]⟩ = .fits ⟨[(7, text)]⟩ ∧ ∃ depth, ∀ n, depth ≤ n →
        pinWithin n partlyKnown optionalOption ⟨[(7, text)]⟩ = .fits ⟨[(7, text)]⟩ :=
  ⟨rfl, rfl, fit_of_accepts rfl rfl _⟩

end Ty

end Offside
