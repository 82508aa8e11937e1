import Offside.Proofs.Agreement
import Offside.Ty.Fit

/-!
# Proofs/Circle — when following bindings has no end

From a parameter type there is one way to go: from a bound variable to what it is bound to, and
from an option to what it is an option of (`Subst.Leads`).  Following it ends at a free variable or
at a shape, unless it comes back to a type that it has met (`Subst.Circular`).

* `circular_of_expose` — the look-ups that `Subst.expose` allows itself are enough: it gives up
  only at a circle.
* `circular_of_fit` — a comparison that gives up has met one.
-/

namespace Offside

open List

namespace Subst

open Relation (ReflTransGen TransGen)

variable {s : Subst} {t u bound : Ty} {through : Bool} {id : Nat}

/-! ## The way from a type -/

/-- Whether a variable takes what it is compared with: it is bound to nothing, or to a variable. -/
def IsFree (s : Subst) (id : Nat) : Prop := ∀ bound, s.get? id = some bound → bound.isVar = true

/-- One step from a type towards a shape. -/
inductive Leads (s : Subst) : Ty → Ty → Prop
  | binding {id : Nat} {bound : Ty} (h : s.get? id = some bound) (hb : bound.isVar = false) :
      Leads s (.var id) bound
  | option (inner : Ty) : Leads s (.maybe inner) inner

/-- **Following the type comes back to where it was.** -/
def Circular (s : Subst) (t : Ty) : Prop :=
  ∃ u, ReflTransGen (Leads s) t u ∧ TransGen (Leads s) u u

theorem leads_unique : Relator.RightUnique (Leads s) := by
  intro t u v hu hv
  cases hu with
  | binding h _ =>
    cases hv with
    | binding h' _ => exact Option.some.inj (h.symm.trans h')
  | option inner =>
    cases hv
    rfl

/-- On a circle every step stays on it. -/
theorem transGen_of_cycle (hu : TransGen (Leads s) t t) (h : Leads s t u) :
    TransGen (Leads s) u u := by
  obtain ⟨w, hw, hrest⟩ := TransGen.head'_iff.mp hu
  obtain rfl := leads_unique h hw
  exact TransGen.tail' hrest h

/-- A type with a circle ahead leads further, with the circle still ahead. -/
theorem Circular.step (h : Circular s t) : ∃ u, Leads s t u ∧ Circular s u := by
  obtain ⟨w, htw, hw⟩ := h
  rcases ReflTransGen.cases_head htw with rfl | ⟨u, htu, huw⟩
  · obtain ⟨u, htu, -⟩ := TransGen.head'_iff.mp hw
    exact ⟨u, htu, u, .refl, transGen_of_cycle hw htu⟩
  · exact ⟨u, htu, w, huw, hw⟩

/-! ## What `expose` finds -/

theorem leads_stripMaybe : ∀ t : Ty, ReflTransGen (Leads s) t (stripMaybe t)
  | .maybe inner => .head (.option inner) (leads_stripMaybe inner)
  | .number | .text | .boolean | .nil | .var _ | .list _ | .record _ | .custom _ _
  | .link _ _ _ => .refl

@[simp] theorem isMaybe_stripMaybe : ∀ t : Ty, (stripMaybe t).isMaybe = false
  | .maybe inner => isMaybe_stripMaybe inner
  | .number | .text | .boolean | .nil | .var _ | .list _ | .record _ | .custom _ _
  | .link _ _ _ => rfl

/-- The end of the way from a type, where it has one. -/
inductive Ends (s : Subst) (t : Ty) : Exposed → Prop
  | free {id : Nat} (hr : ReflTransGen (Leads s) t (.var id)) (hf : IsFree s id) :
      Ends s t (.free id)
  | shape {u : Ty} (hr : ReflTransGen (Leads s) t u) (hv : u.isVar = false)
      (hm : u.isMaybe = false) : Ends s t (.shape u)

theorem Ends.head {x} (h : ReflTransGen (Leads s) t u) (hx : Ends s u x) : Ends s t x := by
  cases hx with
  | free hr hf => exact .free (h.trans hr) hf
  | shape hr hv hm => exact .shape (h.trans hr) hv hm

/-- A variable is free, or bound to a type that is no variable. -/
theorem isFree_or_bound (s : Subst) (id : Nat) :
    IsFree s id ∨ ∃ bound, s.get? id = some bound ∧ bound.isVar = false := by
  cases h : s.get? id with
  | none => exact .inl fun bound hb => by rw [h] at hb; cases hb
  | some bound =>
    cases hb : bound.isVar with
    | true =>
      refine .inl fun other ho => ?_
      rw [h] at ho
      rwa [← Option.some.inj ho]
    | false => exact .inr ⟨bound, rfl, hb⟩

/-- How the look-ups from a type run. -/
inductive Exposes (s : Subst) (through : Bool) : Nat → Ty → Exposed → Prop
  | free {n id : Nat} {t : Ty} (ht : seen through t = .var id) (hf : IsFree s id) :
      Exposes s through n t (.free id)
  | shape {n : Nat} {t : Ty} (ht : (seen through t).isVar = false) :
      Exposes s through n t (.shape (seen through t))
  | endless {id : Nat} {t bound : Ty} (ht : seen through t = .var id)
      (hget : s.get? id = some bound) (hb : bound.isVar = false) : Exposes s through 0 t .endless
  | further {n id : Nat} {t bound : Ty} {x : Exposed} (ht : seen through t = .var id)
      (hget : s.get? id = some bound) (hb : bound.isVar = false) (h : Exposes s through n bound x) :
      Exposes s through (n + 1) t x

theorem Exposes.eq {n x} (h : Exposes s through n t x) : s.expose through n t = x := by
  induction h with
  | @free n id t ht hf =>
    unfold expose
    simp only [ht]
    cases hget : s.get? id with
    | none => rfl
    | some bound =>
      have hb := hf bound hget
      cases bound <;> first | rfl | exact Bool.noConfusion hb
  | @shape n t ht =>
    unfold expose
    cases h : seen through t <;> first | rfl | (rw [h] at ht; exact Bool.noConfusion ht)
  | @endless id t bound ht hget hb =>
    unfold expose
    simp only [ht, hget]
    cases bound <;> first | rfl | exact Bool.noConfusion hb
  | @further n id t bound x ht hget hb _ ih =>
    rw [expose]
    simp only [ht, hget]
    cases bound <;> first | exact ih | exact Bool.noConfusion hb

/-- Where the way from a type begins: at an end, or at a variable that is bound to a type. -/
theorem seen_cases (s : Subst) (through : Bool) (t : Ty) :
    (∃ id, seen through t = .var id ∧ IsFree s id) ∨ (seen through t).isVar = false ∨
      ∃ id bound, seen through t = .var id ∧ s.get? id = some bound ∧ bound.isVar = false := by
  cases h : seen through t with
  | var id =>
    rcases isFree_or_bound s id with hf | ⟨bound, hget, hb⟩
    · exact .inl ⟨id, rfl, hf⟩
    · exact .inr (.inr ⟨id, bound, rfl, hget, hb⟩)
  | _ => exact .inr (.inl rfl)

/-- `expose` makes the look-ups that there are. -/
theorem exposes_expose (s : Subst) (through : Bool) (n : Nat) (t : Ty) :
    Exposes s through n t (s.expose through n t) := by
  suffices h : ∃ x, Exposes s through n t x by
    obtain ⟨x, hx⟩ := h
    exact hx.eq ▸ hx
  rcases seen_cases s through t with ⟨id, ht, hf⟩ | ht | ⟨id, bound, ht, hget, hb⟩
  · exact ⟨_, .free ht hf⟩
  · exact ⟨_, .shape ht⟩
  · cases n with
    | zero => exact ⟨_, .endless ht hget hb⟩
    | succ n => exact ⟨_, .further ht hget hb (exposes_expose s through n bound)⟩

theorem Exposes.reaches (ht : seen true t = .var id) : ReflTransGen (Leads s) t (.var id) :=
  ht ▸ leads_stripMaybe t

/-- What the look-ups find is the end of the way. -/
theorem Exposes.ends {n x} (h : Exposes s true n t x) (hx : x ≠ .endless) : Ends s t x := by
  induction h with
  | free ht hf => exact .free (reaches ht) hf
  | shape ht => exact .shape (leads_stripMaybe _) ht (isMaybe_stripMaybe _)
  | endless => exact absurd rfl hx
  | further ht hget hb _ ih => exact (ih hx).head ((reaches ht).tail (.binding hget hb))

/-- The variables that have a binding. -/
def keys (s : Subst) : List Nat := s.bindings.map (·.1)

theorem mem_keys (h : s.get? id = some bound) : id ∈ s.keys := by
  obtain ⟨before, after, hb, -⟩ := lookup_eq_some_iff.mp h
  rw [keys, hb]
  simp

theorem size_ne_zero (h : s.get? id = some bound) : s.size ≠ 0 := by
  intro h0
  have hpos := length_pos_of_mem (mem_keys h)
  rw [keys, length_map] at hpos
  exact absurd h0 (Nat.ne_of_gt hpos)

/-- A search that gives up after `n` look-ups has met `n + 1` bound variables, each ahead of the
ones before it. -/
theorem Exposes.chain {n} (h : Exposes s true n t .endless) :
    ∃ ids : List Nat, ids.length = n + 1 ∧ ids ⊆ s.keys ∧
      (∀ id ∈ ids, ReflTransGen (Leads s) t (.var id)) ∧
      ids.Pairwise fun a b => TransGen (Leads s) (.var a) (.var b) := by
  generalize hx : Exposed.endless = x at h
  induction h with
  | free | shape => cases hx
  | @endless id _ _ ht hget hb =>
    refine ⟨[id], rfl, by simpa using mem_keys hget, ?_, pairwise_singleton _ _⟩
    exact forall_mem_singleton.mpr (reaches ht)
  | @further _ id _ _ _ ht hget hb _ ih =>
    obtain ⟨ids, hlen, hsub, hreach, hpair⟩ := ih hx
    have hstep : Leads s (.var id) _ := .binding hget hb
    refine ⟨id :: ids, by rw [length_cons, hlen], ?_, ?_, ?_⟩
    · exact cons_subset.mpr ⟨mem_keys hget, hsub⟩
    · refine forall_mem_cons.mpr ⟨reaches ht, fun other hother => ?_⟩
      exact ((reaches ht).tail hstep).trans (hreach other hother)
    · exact pairwise_cons.mpr ⟨fun other ho => .head' hstep (hreach other ho), hpair⟩

/-- **Look-ups are only exhausted on a circle**: there are more of them than bound variables, so
one of these is met twice. -/
theorem circular_of_expose (h : s.expose true s.size t = .endless) : Circular s t := by
  have hexposes := exposes_expose s true s.size t
  obtain ⟨ids, hlen, hsub, hreach, hpair⟩ := (h ▸ hexposes).chain
  by_contra hc
  have hne : ids.Pairwise (· ≠ ·) := by
    refine hpair.imp_of_mem fun {a b} ha _ hab e => hc ⟨.var a, hreach a ha, ?_⟩
    exact e ▸ hab
  have hle := (subperm_of_subset hne hsub).length_le
  rw [hlen, keys, length_map] at hle
  exact Nat.not_succ_le_self _ hle

/-- Options apart, a single look-up comes to an end. -/
theorem expose_false_ne_endless (t : Ty) : s.expose false s.size t ≠ .endless := by
  intro h
  have hexposes := h ▸ exposes_expose s false s.size t
  generalize hn : s.size = n at hexposes
  cases hexposes with
  | endless _ hget _ => exact size_ne_zero hget hn
  | @further _ _ _ bound _ _ _ hb hexposes =>
    cases hexposes with
    | @endless id _ _ ht | @further _ id _ _ _ ht =>
      rw [show bound = .var id from ht] at hb
      cases hb

/-! ## Comparisons -/

/-- A comparison against a type gives up at a circle, or where the comparison of its shape does. -/
theorem circular_of_against {s' a e compare} (h : s.against a e through compare = .endless t s') :
    Circular s' t ∨ ∃ u, compare u = .endless t s' := by
  unfold against at h
  cases hx : s.expose through s.size e with
  | free id => rw [hx] at h; cases h
  | shape u => rw [hx] at h; exact .inr ⟨u, h⟩
  | endless =>
    rw [hx] at h
    cases h
    cases through with
    | true => exact .inl (circular_of_expose hx)
    | false => exact absurd hx (expose_false_ne_endless _)

end Subst

namespace Ty

open Subst (Circular circular_of_against)

variable {s' : Subst}

/-- A run of comparisons gives up where one of them does. -/
theorem endless_of_fitEach {t} : ∀ (fs : List (Subst → Fit)) (s : Subst),
    fitEach fs s = .endless t s' → ∃ f ∈ fs, ∃ s, f s = .endless t s'
  | [], s, h => by cases h
  | f :: fs, s, h => by
    rw [fitEach] at h
    cases hf : f s with
    | fits s'' =>
      rw [hf] at h
      obtain ⟨g, hg, hs⟩ := endless_of_fitEach fs s'' h
      exact ⟨g, mem_cons_of_mem _ hg, hs⟩
    | clashes s'' => rw [hf] at h; cases h
    | endless u s'' =>
      rw [hf] at h
      cases h
      exact ⟨f, mem_cons_self, s, hf⟩

theorem lookup_comparisonsOfFields (key : String) : ∀ fields : List (String × Ty),
    (comparisonsOfFields fields).lookup key = (fields.lookup key).map Ty.fit
  | [] => rfl
  | (name, type) :: later => by
    rw [comparisonsOfFields, lookup_cons, lookup_cons, lookup_comparisonsOfFields key later]
    cases key == name <;> rfl

/-- The comparison of an expected field with the fields of a record. -/
def fitField (compare : Ty → Comparison) (fields : List (String × Ty)) (expected : String × Ty) :
    Subst → Fit :=
  match fields.lookup expected.1 with
  | some type => compare type expected.2
  | none => .clashes

/-- The fields of a record are compared one by one. -/
theorem fitFields_eq (fields types : List (String × Ty)) :
    fitFields (comparisonsOfFields fields) types = fitEach (types.map (fitField fit fields)) := by
  unfold fitFields
  congr 2
  funext ⟨key, type⟩
  simp only [fitField, lookup_comparisonsOfFields]
  cases fields.lookup key <;> rfl

theorem comparisons_eq_map : ∀ types : List Ty, comparisons types = types.map Ty.fit
  | [] => rfl
  | type :: later => by rw [comparisons, comparisons_eq_map later, map_cons]

/-- Types are compared one by one. -/
theorem fitAll_eq (arguments types : List Ty) : fitAll (comparisons arguments) types
      = fitEach ((arguments.zip types).map fun p => p.1.fit p.2) := by
  rw [fitAll, comparisons_eq_map, zipWith_map_left, ← map_uncurry_zip_eq_zipWith]
  rfl

/-- Options of a parameter are gone through for an argument that is none. -/
def goesThrough : Ty → Bool
  | var _ | nil | maybe _ => false
  | _ => true

/-- Where an argument meets a shape of its own kind, the parts of both that are compared in turn.  A
field that the argument lacks has no part there. -/
def pairs? : Ty → Ty → Option (List (Option Ty × Ty))
  | var _, _ => some []
  | nil, shape => if shape.isNil || shape.isMaybe then some [] else none
  | number, number | text, text | boolean, boolean => some []
  | maybe type, maybe shape | list type, list shape => some [(type, shape)]
  | record fields, record shapes =>
    if fields.length == shapes.length then some (shapes.map fun p => (fields.lookup p.1, p.2))
    else none
  | custom name types, custom other shapes =>
    if name == other && types.length == shapes.length then
      some ((types.zip shapes).map fun p => (some p.1, p.2))
    else none
  | link input output terminal, link input' output' terminal' =>
    if terminal == terminal' then some [(input, input'), (output, output')] else none
  | _, _ => none

/-- The comparison of two parts. -/
def fitPair : Option Ty × Ty → Subst → Fit
  | (some type, shape) => type.fit shape
  | (none, _) => .clashes

@[simp] theorem fitEach_singleton (f : Subst → Fit) (s : Subst) : fitEach [f] s = f s := by
  rw [fitEach]
  cases f s <;> rfl

/-- **Comparing an argument is comparing parts**, whatever its kind. -/
theorem fit_eq (a e : Ty) (s : Subst) : a.fit e s = s.against a e a.goesThrough fun shape =>
    match a.pairs? shape with
    | some pairs => fitEach (pairs.map fitPair) s
    | none => .clashes s := by
  cases a <;> rw [fit] <;> congr 1 <;> funext shape
  case nil => cases shape <;> rfl
  case maybe | list =>
    cases shape <;> first | rfl | exact (fitEach_singleton _ s).symm
  case record fields =>
    cases shape with
    | record shapes =>
      simp only [pairs?, fitFields_eq]
      split
      · simp only [map_map]
        congr 2
        funext p
        rw [Function.comp, fitField]
        cases fields.lookup p.1 <;> rfl
      · rfl
    | _ => rfl
  case custom name types =>
    cases shape with
    | custom other shapes =>
      simp only [pairs?, fitAll_eq]
      split
      · simp only [map_map]
        rfl
      · rfl
    | _ => rfl
  case link input output terminal =>
    cases shape with
    | link input' output' terminal' =>
      simp only [pairs?]
      split
      · exact congrArg _ (funext fun s => (fitEach_singleton _ s).symm)
      · rfl
    | _ => rfl
  all_goals cases shape <;> rfl

/-- What is compared in turn are the types that both are made of. -/
theorem children_of_pairs? {a shape : Ty} {pairs : List (Option Ty × Ty)}
    (h : a.pairs? shape = some pairs) :
    ∀ p ∈ pairs, (∀ type ∈ p.1, type ∈ a.children) ∧ p.2 ∈ shape.children := by
  unfold pairs? at h
  split at h <;> try split at h
  all_goals cases h
  case h_6 | h_7 => exact forall_mem_singleton.mpr ⟨by simp [children], by simp [children]⟩
  case h_8 =>
    refine forall_mem_map.mpr fun p hp => ⟨fun type hl => ?_, mem_map_of_mem hp⟩
    exact mem_map_of_mem (mem_of_lookup hl)
  case h_9 =>
    refine forall_mem_map.mpr fun p hp => ⟨fun type hl => ?_, (of_mem_zip hp).2⟩
    exact Option.some.inj hl ▸ (of_mem_zip hp).1
  case h_10 => simp [children]
  all_goals exact forall_mem_nil _

/-- **A comparison that gives up has met a circle**, and says where. -/
theorem circular_of_fit (a e : Ty) (s : Subst) {t} (h : a.fit e s = .endless t s') :
    Circular s' t := by
  induction a using induct_children generalizing e s t s' with
  | step a ih =>
    rw [fit_eq] at h
    rcases circular_of_against h with hc | ⟨shape, hshape⟩
    · exact hc
    · cases hpairs : a.pairs? shape with
      | none => rw [hpairs] at hshape; cases hshape
      | some pairs =>
        rw [hpairs] at hshape
        obtain ⟨f, hf, s'', hs⟩ := endless_of_fitEach _ s hshape
        obtain ⟨⟨part, _⟩, hp, rfl⟩ := mem_map.mp hf
        cases part with
        | none => cases hs
        | some part => exact ih part ((children_of_pairs? hpairs _ hp).1 part rfl) _ _ hs

end Ty

end Offside
