import Offside.Proofs.Resolution
import Offside.Proofs.Walk

/-!
# Proofs/Invariants — properties that every type of a check has

The types of a check stand in many places: bound in the open scopes, noted as the type of answers,
recorded, found for an expression, named by a fault.  There are few ways to come to a new one, and
`Ty.Lasting` lists them.  A property that these ways keep is kept where arguments are compared
(`Ty.allTypes_fit`) and where bindings are applied, and it holds of every written type.
-/

namespace Offside

open List

/-! ## Properties that last -/

namespace Ty

/-- Whether a type is that of a function. -/
def isLink : Ty → Bool
  | link _ _ _ => true
  | _ => false

/-- **A property of types that type checking keeps.** -/
structure Lasting (P : Ty → Prop) : Prop where
  fresh : ∀ id, P (var id)
  child : ∀ {t}, P t → ∀ c ∈ t.children, P c
  /-- Types are put together, but for the single links of a function type. -/
  plain : ∀ {t}, t.isVar = false → t.isLink = false → (∀ c ∈ t.children, P c) → P t
  function : ∀ {parameters result}, (∀ p ∈ parameters, P p) → P result →
    P (function parameters result)
  /-- What variables stand for is put in their place. -/
  mapVars : ∀ {t f}, P t → (∀ v ∈ t.vars, P (f v)) → P (t.mapVars f)

namespace Lasting

variable {P : Ty → Prop}

section

variable (hP : Lasting P)
include hP

theorem atom {t} (hvar : t.isVar = false) (hlink : t.isLink = false) (h : t.children = []) : P t :=
  hP.plain hvar hlink (h ▸ forall_mem_nil _)

theorem list {element} (h : P element) : P (list element) :=
  hP.plain rfl rfl (forall_mem_singleton.mpr h)

theorem maybe {inner} (h : P inner) : P (maybe inner) :=
  hP.plain rfl rfl (forall_mem_singleton.mpr h)

theorem record {fields} (h : ∀ f ∈ fields, P f.2) : P (record fields) :=
  hP.plain rfl rfl (forall_mem_map.mpr h)

theorem custom (name : String) {arguments} (h : ∀ t ∈ arguments, P t) :
    P (custom name arguments) := hP.plain rfl rfl h

/-- The parameters and the result of a function are parts of its type. -/
theorem unlink {t} (h : P t) : (∀ p ∈ t.unlink.1, P p) ∧ P t.unlink.2 := by
  induction t using induct with
  | link input output terminal _ ih =>
    obtain ⟨hinput, houtput⟩ := forall_mem_cons.mp (hP.child h)
    have houtput := forall_mem_singleton.mp houtput
    cases terminal with
    | true => exact ⟨forall_mem_singleton.mpr hinput, houtput⟩
    | false => exact ⟨forall_mem_cons.mpr ⟨hinput, (ih houtput).1⟩, (ih houtput).2⟩
  | _ => exact ⟨forall_mem_nil _, h⟩

theorem signature? {t result parameters} (h : P t) (ht : t.signature? = some (parameters, result)) :
    (∀ p ∈ parameters, P p) ∧ P result := by
  cases t with
  | link input output terminal =>
    have hparts := hP.unlink h
    rwa [Option.some.inj ht] at hparts
  | _ => cases ht

end

mutual

/-- Written types have such a property. -/
theorem resolve (hP : Lasting P) : ∀ type : TypeExpr, P type.resolve
  | .named name [] => by
    rw [TypeExpr.resolve]
    split <;> exact hP.atom rfl rfl rfl
  | .named name (first :: later) =>
    hP.custom name.lexeme (forall_mem_cons.mpr ⟨hP.resolve first, hP.resolveAll later⟩)
  | .list _ element => hP.list (hP.resolve element)
  | .record _ fields => hP.record (hP.resolveFields fields)
  | .function _ parameters result => hP.function (hP.resolveAll parameters) (hP.resolve result)
  | .maybe inner => hP.maybe (hP.resolve inner)

theorem resolveAll (hP : Lasting P) : ∀ types : List TypeExpr, ∀ t ∈ TypeExpr.resolveAll types, P t
  | [] => forall_mem_nil _
  | first :: later => forall_mem_cons.mpr ⟨hP.resolve first, hP.resolveAll later⟩

theorem resolveFields (hP : Lasting P) : ∀ fields : List (Token × TypeExpr),
    ∀ f ∈ TypeExpr.resolveFields fields, P f.2
  | [] => forall_mem_nil _
  | (_, type) :: later => forall_mem_cons.mpr ⟨hP.resolve type, hP.resolveFields later⟩

end

end Lasting

end Ty

/-! ## Bindings -/

namespace Subst

/-- A property holds of all types that are bound. -/
def AllTypes (P : Ty → Prop) (s : Subst) : Prop := ∀ b ∈ s.bindings, P b.2

variable {P : Ty → Prop} {s : Subst}

theorem AllTypes.get? (h : s.AllTypes P) {id bound} (hget : s.get? id = some bound) : P bound := by
  obtain ⟨before, after, hbindings, -⟩ := lookup_eq_some_iff.mp hget
  exact h (id, bound) (by rw [hbindings]; simp)

theorem AllTypes.insert (h : s.AllTypes P) (id : Nat) {type} (ht : P type) :
    (s.insert id type).AllTypes P :=
  forall_mem_cons.mpr ⟨ht, fun b hb => h b (mem_of_mem_filter hb)⟩

/-- What bindings stand for keeps a property, also where they lead back to themselves. -/
theorem AllTypes.applyTo (hP : Ty.Lasting P) (h : s.AllTypes P) : ∀ (depth : Nat) {t : Ty}, P t →
    P (s.applyTo depth t)
  | 0, _, ht => ht
  | depth + 1, t, ht => by
    rw [applyTo_eq_mapVars]
    refine hP.mapVars ht fun x _ => ?_
    rcases s.settled_or_bound x with hsettled | ⟨bound, hget, hne⟩
    · rw [applyTo_settled hsettled]
      exact hP.fresh x
    · rw [applyTo_bound hget hne]
      exact h.applyTo hP depth (h.get? hget)

end Subst

/-- A property holds of all types in the outcome of a comparison. -/
def Fit.AllTypes (P : Ty → Prop) : Fit → Prop
  | .fits s | .clashes s => s.AllTypes P
  | .endless type s => P type ∧ s.AllTypes P

namespace Ty

variable {P : Ty → Prop} {s : Subst}

theorem allTypes_stripMaybe (hchild : ∀ {t}, P t → ∀ c ∈ t.children, P c) {t} (h : P t) :
    P (Subst.stripMaybe t) := by
  induction t using induct with
  | maybe inner ih => exact ih (forall_mem_singleton.mp (hchild h))
  | _ => exact h

theorem allTypes_seen (hchild : ∀ {t}, P t → ∀ c ∈ t.children, P c) (through : Bool) {t} (h : P t) :
    P (Subst.seen through t) := by
  cases through with
  | true => exact allTypes_stripMaybe hchild h
  | false => exact h

/-- What a type comes to is a part of it, or of a type that is bound. -/
theorem allTypes_exposes (hchild : ∀ {t}, P t → ∀ c ∈ t.children, P c) (hs : s.AllTypes P)
    {through n t type} (h : s.Exposes through n t (.shape type)) (ht : P t) : P type := by
  generalize hx : Subst.Exposed.shape type = x at h
  induction h with
  | free | endless => cases hx
  | shape =>
    cases hx
    exact allTypes_seen hchild through ht
  | further _ hget _ _ ih => exact ih (hs.get? hget) hx

theorem allTypes_against (hchild : ∀ {t}, P t → ∀ c ∈ t.children, P c) (hs : s.AllTypes P)
    {actual expected} (ha : P actual) (he : P expected) (through : Bool) {compare}
    (h : ∀ type, P type → (compare type).AllTypes P) :
    (s.against actual expected through compare).AllTypes P := by
  unfold Subst.against
  cases hx : s.expose through s.size expected with
  | free id => exact hs.insert id ha
  | shape type =>
    exact h type (allTypes_exposes hchild hs (hx ▸ s.exposes_expose through s.size expected) he)
  | endless => exact ⟨he, hs⟩

theorem allTypes_andThen {first : Fit} {second : Subst → Fit} (hf : first.AllTypes P)
    (h : ∀ s, s.AllTypes P → (second s).AllTypes P) : (first.andThen second).AllTypes P := by
  cases first with
  | fits s => exact h s hf
  | clashes s | endless type s => exact hf

theorem allTypes_fitEach {α : Type} {f} : ∀ (items : List α) {s : Subst},
    s.AllTypes P → (∀ x ∈ items, ∀ s, s.AllTypes P → (f x s).AllTypes P) →
      (fitEach (items.map f) s).AllTypes P
  | [], _, hs, _ => hs
  | _ :: later, s, hs, h => by
    obtain ⟨hx, hlater⟩ := forall_mem_cons.mp h
    exact allTypes_andThen (hx s hs) fun s' hs' => allTypes_fitEach later hs' hlater

/-- **Comparing an argument binds parts of the types compared, and nothing else.** -/
theorem allTypes_fit (hchild : ∀ {t}, P t → ∀ c ∈ t.children, P c) {actual expected} (ha : P actual)
    (he : P expected) (hs : s.AllTypes P) : (actual.fit expected s).AllTypes P := by
  induction actual using induct_children generalizing expected s with
  | step actual ih =>
    rw [fit_eq]
    refine allTypes_against hchild hs ha he _ fun shape hshape => ?_
    cases hpairs : actual.pairs? shape with
    | none => exact hs
    | some pairs =>
      refine allTypes_fitEach pairs hs fun ⟨part, expected⟩ hp s hs => ?_
      obtain ⟨hpart, hexpected⟩ := children_of_pairs? hpairs _ hp
      cases part with
      | none => exact hs
      | some part =>
        exact ih part (hpart part rfl) (hchild ha _ (hpart part rfl)) (hchild hshape _ hexpected) hs

end Ty

end Offside
