import Mathlib.Data.List.Forall2
import Mathlib.Data.List.Nodup
import Mathlib.Data.List.Perm.Subperm
import Mathlib.Logic.Relation
import Offside.Ty.Basic

/-!
# Proofs/Agreement — the algebra of types

Records are compared by their number of fields and by looking the names of the first one up in the
second.  Where the names in a record differ (`Distinct`), that is as good as comparing both ways:

* `equal` is identity up to the order of the fields of records, at any depth
  (`reordered_of_equal`, `Reordered.equal`), and so an equivalence;
* `compatible` is reflexive and symmetric, and the same as `equal` where there are no variables;
* `accepts` orders the types without variables by how many options are around them.

Both comparisons are alike in one layer (`Alike`), so that each law is shown for a layer and follows
for types by induction over what they are made of (`induct_children`).
-/

namespace Offside.Ty

open List

/-! ## What a type is made of -/

mutual

/-- A type and every type that it is made of. -/
def parts : Ty → List Ty
  | number => [number]
  | text => [text]
  | boolean => [boolean]
  | nil => [nil]
  | var id => [var id]
  | list element => list element :: element.parts
  | maybe inner => maybe inner :: inner.parts
  | record fields => record fields :: partsFields fields
  | custom name arguments => custom name arguments :: partsAll arguments
  | link input output terminal => link input output terminal :: (input.parts ++ output.parts)

/-- What the types of fields are made of. -/
def partsFields : List (String × Ty) → List Ty
  | [] => []
  | (_, type) :: later => type.parts ++ partsFields later

/-- What types are made of. -/
def partsAll : List Ty → List Ty
  | [] => []
  | type :: later => type.parts ++ partsAll later

end

@[simp] theorem partsFields_eq : ∀ fields : List (String × Ty),
    partsFields fields = fields.flatMap fun f => f.2.parts
  | [] => rfl
  | _ :: later => by simp [partsFields, partsFields_eq later]

@[simp] theorem partsAll_eq : ∀ types : List Ty, partsAll types = types.flatMap parts
  | [] => rfl
  | _ :: later => by simp [partsAll, partsAll_eq later]

@[simp] theorem varsFields_eq : ∀ fields : List (String × Ty),
    varsFields fields = fields.flatMap fun p => p.2.vars
  | [] => rfl
  | _ :: later => by simp [varsFields, varsFields_eq later]

@[simp] theorem varsAll_eq : ∀ types : List Ty, varsAll types = types.flatMap vars
  | [] => rfl
  | _ :: later => by simp [varsAll, varsAll_eq later]

/-- The types that a type is directly made of. -/
def children : Ty → List Ty
  | number | text | boolean | nil | var _ => []
  | list element => [element]
  | maybe inner => [inner]
  | record fields => fields.map Prod.snd
  | custom _ arguments => arguments
  | link input output _ => [input, output]

/-- **Induction over what types are made of**, for laws that are the same for all kinds of types. -/
@[elab_as_elim] theorem induct_children {motive : Ty → Prop}
    (step : ∀ type, (∀ child ∈ type.children, motive child) → motive type) (type : Ty) :
    motive type := by
  induction type using induct with
  | number | text | boolean | nil | var => exact step _ (forall_mem_nil _)
  | list _ ih | maybe _ ih => exact step _ (forall_mem_singleton.mpr ih)
  | record _ ih => exact step _ (forall_mem_map.mpr ih)
  | custom _ _ ih => exact step _ ih
  | link _ _ _ ih ih' =>
    exact step _ (forall_mem_cons.mpr ⟨ih, forall_mem_singleton.mpr ih'⟩)

theorem parts_eq (type : Ty) : type.parts = type :: type.children.flatMap parts := by
  cases type with
  | number | text | boolean | nil | var => rfl
  | list | maybe => simp [parts, children]
  | record => rw [parts, partsFields_eq, children, flatMap_map]
  | custom | link => simp [parts, children]

variable {type a b c : Ty} {others : List (String × Ty)} {name : String}

theorem forall_parts {P : Ty → Prop} : (∀ part ∈ type.parts, P part) ↔
    P type ∧ ∀ child ∈ type.children, ∀ part ∈ child.parts, P part := by
  rw [parts_eq, forall_mem_cons, forall_mem_flatMap]

theorem vars_eq (h : type.isVar = false) : type.vars = type.children.flatMap vars := by
  cases type with
  | number | text | boolean | nil => rfl
  | var => cases h
  | list | maybe => simp [vars, children]
  | record => rw [vars, varsFields_eq, children, flatMap_map]
  | custom | link => simp [vars, children]

/-- A record has no two fields of one name. -/
def DistinctNames : Ty → Prop
  | record fields => (fields.map Prod.fst).Nodup
  | _ => True

instance : DecidablePred DistinctNames
  | record fields => inferInstanceAs (Decidable (fields.map Prod.fst).Nodup)
  | number | text | boolean | nil | var _ | list _ | maybe _ | custom _ _ | link _ _ _ =>
    isTrue trivial

/-- The record types in a type have distinct names. -/
def Distinct (type : Ty) : Prop := ∀ part ∈ type.parts, part.DistinctNames

instance : DecidablePred Distinct := fun type => decidableBAll _ type.parts

theorem distinct_iff :
    type.Distinct ↔ type.DistinctNames ∧ ∀ child ∈ type.children, child.Distinct := forall_parts

/-- There is no variable in a type. -/
abbrev Closed (type : Ty) : Prop := type.vars = []

theorem closed_iff : type.Closed ↔ type.isVar = false ∧ ∀ child ∈ type.children, child.Closed := by
  cases h : type.isVar with
  | true =>
    cases type with
    | var => simp [Closed, vars]
    | _ => cases h
  | false => simp [Closed, vars_eq h]

/-! ## Fields -/

/-- Where names differ, a field is found by its name. -/
theorem lookup_of_mem : ∀ {fields : List (String × Ty)},
    (fields.map Prod.fst).Nodup → (name, type) ∈ fields → fields.lookup name = some type
  | (key, other) :: later, hnodup, hmem => by
    obtain ⟨hkey, hlater⟩ := nodup_cons.mp hnodup
    rcases mem_cons.mp hmem with heq | hbehind
    · obtain ⟨rfl, rfl⟩ := Prod.mk.inj heq
      exact lookup_cons_self
    · have hne : (name == key) = false :=
        beq_eq_false_iff_ne.mpr fun h => hkey (h ▸ mem_map.mpr ⟨_, hbehind, rfl⟩)
      rw [lookup_cons, hne]
      exact lookup_of_mem hlater hbehind

/-- What is found by its name is one of the fields. -/
theorem mem_of_lookup {fields : List (String × Ty)}
    (h : fields.lookup name = some type) : (name, type) ∈ fields := by
  obtain ⟨before, after, rfl, -⟩ := lookup_eq_some_iff.mp h
  exact mem_append_right _ mem_cons_self

/-- **As many names that are all found are the same names exactly if they differ.** -/
theorem same_names_iff {declared found : List String} (hlength : declared.length = found.length)
    (hsubset : declared ⊆ found) (hfound : found.Nodup) :
    (∀ name, name ∈ declared ↔ name ∈ found) ↔ declared.Nodup := by
  refine ⟨fun hsame => ?_, fun hdeclared => ?_⟩
  · have hsub : found.Subperm declared := hfound.subperm fun name => (hsame name).mpr
    exact (hsub.perm_of_length_le (Nat.le_of_eq hlength)).nodup_iff.mp hfound
  · have hsub : declared.Subperm found := hdeclared.subperm hsubset
    exact fun name => (hsub.perm_of_length_le (Nat.le_of_eq hlength.symm)).mem_iff

/-- **How records are compared**: there are as many fields, and every one of the first is found by
its name among the second, with a type that is related. -/
structure Finds (related : Ty → Ty → Prop) (fields others : List (String × Ty)) : Prop where
  length : fields.length = others.length
  found : ∀ f ∈ fields, ∃ other, others.lookup f.1 = some other ∧ related f.2 other

namespace Finds

variable {related related' related'' : Ty → Ty → Prop} {xs ys zs : List (String × Ty)}

theorem subset (h : Finds related xs ys) : xs.map Prod.fst ⊆ ys.map Prod.fst := by
  intro name hname
  obtain ⟨f, hf, rfl⟩ := mem_map.mp hname
  obtain ⟨other, hother, -⟩ := h.found f hf
  exact mem_map.mpr ⟨_, mem_of_lookup hother, rfl⟩

/-- Where the names of the first record differ, the second one has the same names. -/
theorem perm (h : Finds related xs ys) (ha : (xs.map Prod.fst).Nodup) :
    (xs.map Prod.fst).Perm (ys.map Prod.fst) :=
  (ha.subperm h.subset).perm_of_length_le (by simp [h.length])

/-- The field that is found for one of the first record. -/
theorem of_mem (h : Finds related xs ys) (ha : (xs.map Prod.fst).Nodup) {other}
    (hother : (name, other) ∈ ys) : ∃ type, xs.lookup name = some type ∧ related type other := by
  have hmem : name ∈ xs.map Prod.fst :=
    (h.perm ha).mem_iff.mpr (mem_map.mpr ⟨_, hother, rfl⟩)
  obtain ⟨⟨_, type⟩, hf, rfl⟩ := mem_map.mp hmem
  obtain ⟨found, hfound, hrelated⟩ := h.found _ hf
  rw [lookup_of_mem ((h.perm ha).nodup_iff.mp ha) hother] at hfound
  cases hfound
  exact ⟨type, lookup_of_mem ha hf, hrelated⟩

/-- **What is found one way is found the other way**, where the names of the first record differ:
then there is no field that was not looked for. -/
theorem symm (h : Finds related xs ys) (ha : (xs.map Prod.fst).Nodup)
    (hrelated : ∀ f ∈ xs, ∀ other, related f.2 other → related' other f.2) :
    Finds related' ys xs := by
  refine ⟨h.length.symm, fun g hg => ?_⟩
  obtain ⟨type, htype, hrel⟩ := h.of_mem ha hg
  exact ⟨type, htype, hrelated _ (mem_of_lookup htype) _ hrel⟩

theorem imp (h : Finds related xs ys)
    (hrelated : ∀ f ∈ xs, ∀ g ∈ ys, related f.2 g.2 → related' f.2 g.2) : Finds related' xs ys := by
  refine ⟨h.length, fun f hf => ?_⟩
  obtain ⟨other, hother, hrel⟩ := h.found f hf
  exact ⟨other, hother, hrelated f hf _ (mem_of_lookup hother) hrel⟩

/-- The fields of the first record in the order of the second. -/
theorem exists_perm (h : Finds related xs ys) (ha : (xs.map Prod.fst).Nodup) :
    ∃ mid, xs.Perm mid ∧ Forall₂ (fun f g => f.1 = g.1 ∧ related f.2 g.2) mid ys := by
  have hnames :
      (ys.map fun g => (g.1, (xs.lookup g.1).getD g.2)).map Prod.fst = ys.map Prod.fst := by
    rw [map_map]
    rfl
  have hnodup := (h.perm ha).nodup_iff.mp ha
  rw [← hnames] at hnodup
  have hsubset : (ys.map fun g => (g.1, (xs.lookup g.1).getD g.2)) ⊆ xs := by
    intro f hf
    obtain ⟨g, hg, rfl⟩ := mem_map.mp hf
    obtain ⟨type, htype, -⟩ := h.of_mem ha hg
    rw [htype]
    exact mem_of_lookup htype
  refine ⟨ys.map fun g => (g.1, (xs.lookup g.1).getD g.2), .symm ?_, ?_⟩
  · have hsub := (Nodup.of_map Prod.fst hnodup).subperm hsubset
    exact hsub.perm_of_length_le (by simp [h.length])
  · refine forall₂_map_left_iff.mpr (forall₂_same.mpr fun g hg => ⟨rfl, ?_⟩)
    obtain ⟨type, htype, hrelated⟩ := h.of_mem ha hg
    rwa [htype]

theorem trans (h : Finds related xs ys) (h' : Finds related' ys zs)
    (hrelated : ∀ f ∈ xs, ∀ x y, related f.2 x → related' x y → related'' f.2 y) :
    Finds related'' xs zs := by
  refine ⟨h.length.trans h'.length, fun f hf => ?_⟩
  obtain ⟨x, hx, hrel⟩ := h.found f hf
  obtain ⟨y, hy, hrel'⟩ := h'.found _ (mem_of_lookup hx)
  exact ⟨y, hy, hrelated f hf x y hrel hrel'⟩

/-- Fields in another order are found, where their names differ. -/
theorem of_perm (h : xs.Perm ys) (ha : (xs.map Prod.fst).Nodup)
    (hrelated : ∀ f ∈ xs, related f.2 f.2) : Finds related xs ys := by
  refine ⟨h.length_eq, fun f hf => ⟨f.2, ?_, hrelated f hf⟩⟩
  exact lookup_of_mem ((h.map Prod.fst).nodup_iff.mp ha) (h.mem_iff.mp hf)

end Finds

/-! ## One layer -/

section

variable {α β γ : Type}

theorem forall₂_imp {related related' : α → β → Prop} {as : List α} {bs : List β}
    (h : Forall₂ related as bs)
    (himp : ∀ a ∈ as, ∀ b ∈ bs, related a b → related' a b) : Forall₂ related' as bs := by
  induction h with
  | nil => exact .nil
  | cons hfirst _ ih =>
    exact .cons (himp _ mem_cons_self _ mem_cons_self hfirst)
      (ih fun a ha b hb => himp a (mem_cons_of_mem _ ha) b (mem_cons_of_mem _ hb))

theorem forall₂_trans {related : α → β → Prop} {related' : β → γ → Prop} {related'' : α → γ → Prop}
    {as : List α} {bs : List β} (h : Forall₂ related as bs) :
    ∀ {cs : List γ}, Forall₂ related' bs cs →
      (∀ a ∈ as, ∀ b c, related a b → related' b c → related'' a c) → Forall₂ related'' as cs := by
  induction h with
  | nil =>
    rintro _ ⟨⟩ _
    exact .nil
  | cons hfirst _ ih =>
    rintro _ (_ | ⟨hfirst', hlater'⟩) htrans
    obtain ⟨hhead, htail⟩ := forall_mem_cons.mp htrans
    exact .cons (hhead _ _ hfirst hfirst') (ih hlater' htail)

end

/-- **How types are compared, in one layer**: they are of one kind, and what they are made of is
related. -/
inductive Alike (related : Ty → Ty → Prop) : Ty → Ty → Prop
  | number : Alike related number number
  | text : Alike related text text
  | boolean : Alike related boolean boolean
  | nil : Alike related nil nil
  | list {a b : Ty} (h : related a b) : Alike related (list a) (list b)
  | maybe {a b : Ty} (h : related a b) : Alike related (maybe a) (maybe b)
  | record {a b : List (String × Ty)} (h : Finds related a b) :
      Alike related (record a) (record b)
  | custom (name : String) {a b : List Ty} (h : Forall₂ related a b) :
      Alike related (custom name a) (custom name b)
  | link (terminal : Bool) {a b a' b' : Ty} (h : related a b) (h' : related a' b') :
      Alike related (link a a' terminal) (link b b' terminal)

namespace Alike

variable {related related' related'' : Ty → Ty → Prop}

theorem imp (h : Alike related a b)
    (himp : ∀ x ∈ a.children, ∀ y ∈ b.children, related x y → related' x y) :
    Alike related' a b := by
  cases h with
  | number => exact .number
  | text => exact .text
  | boolean => exact .boolean
  | nil => exact .nil
  | list h => exact .list (himp _ (.head _) _ (.head _) h)
  | maybe h => exact .maybe (himp _ (.head _) _ (.head _) h)
  | record h =>
    exact .record <| h.imp fun f hf g hg =>
      himp _ (mem_map_of_mem hf) _ (mem_map_of_mem hg)
  | custom name h => exact .custom name (forall₂_imp h himp)
  | link terminal h h' =>
    exact .link terminal (himp _ (.head _) _ (.head _) h)
      (himp _ (.tail _ (.head _)) _ (.tail _ (.head _)) h')

theorem symm (h : Alike related a b) (ha : a.DistinctNames)
    (hsymm : ∀ x ∈ a.children, ∀ y, related x y → related' y x) : Alike related' b a := by
  cases h with
  | number => exact .number
  | text => exact .text
  | boolean => exact .boolean
  | nil => exact .nil
  | list h => exact .list (hsymm _ (.head _) _ h)
  | maybe h => exact .maybe (hsymm _ (.head _) _ h)
  | record h => exact .record (h.symm ha fun f hf => hsymm _ (mem_map_of_mem hf))
  | custom name h =>
    exact .custom name (.flip (forall₂_imp h fun x hx y _ => hsymm x hx y))
  | link terminal h h' =>
    exact .link terminal (hsymm _ (.head _) _ h) (hsymm _ (.tail _ (.head _)) _ h')

theorem trans (h : Alike related a b) (h' : Alike related' b c)
    (htrans : ∀ x ∈ a.children, ∀ y z, related x y → related' y z → related'' x z) :
    Alike related'' a c := by
  cases h with
  | number => cases h'; exact .number
  | text => cases h'; exact .text
  | boolean => cases h'; exact .boolean
  | nil => cases h'; exact .nil
  | list h =>
    cases h' with
    | list h' => exact .list (htrans _ (.head _) _ _ h h')
  | maybe h =>
    cases h' with
    | maybe h' => exact .maybe (htrans _ (.head _) _ _ h h')
  | record h =>
    cases h' with
    | record h' => exact .record (h.trans h' fun f hf => htrans _ (mem_map_of_mem hf))
  | custom name h =>
    cases h' with
    | custom _ h' => exact .custom name (forall₂_trans h h' htrans)
  | link terminal hinput houtput =>
    cases h' with
    | link _ hinput' houtput' =>
      exact .link terminal (htrans _ (.head _) _ _ hinput hinput')
        (htrans _ (.tail _ (.head _)) _ _ houtput houtput')

theorem refl (hvar : a.isVar = false) (ha : a.DistinctNames)
    (hrefl : ∀ x ∈ a.children, related x x) : Alike related a a := by
  cases a with
  | number => exact .number
  | text => exact .text
  | boolean => exact .boolean
  | nil => exact .nil
  | var => cases hvar
  | list => exact .list (hrefl _ (.head _))
  | maybe => exact .maybe (hrefl _ (.head _))
  | record => exact .record (.of_perm (.refl _) ha fun f hf => hrefl _ (mem_map_of_mem hf))
  | custom name => exact .custom name (forall₂_same.mpr hrefl)
  | link _ _ terminal =>
    exact .link terminal (hrefl _ (.head _)) (hrefl _ (.tail _ (.head _)))

/-- What the first type is made of is related to something that the second one is made of. -/
theorem exists_child (h : Alike related a b) : ∀ x ∈ a.children, ∃ y ∈ b.children, related x y := by
  cases h with
  | number | text | boolean | nil => exact forall_mem_nil _
  | list h | maybe h => exact forall_mem_singleton.mpr ⟨_, .head _, h⟩
  | record h =>
    refine forall_mem_map.mpr fun f hf => ?_
    obtain ⟨other, hother, hrelated⟩ := h.found f hf
    exact ⟨other, mem_map_of_mem (mem_of_lookup hother), hrelated⟩
  | custom name h =>
    intro x hx
    obtain ⟨i, hi, rfl⟩ := mem_iff_getElem.mp hx
    exact ⟨_, get_mem _ _, h.get hi (h.length_eq ▸ hi)⟩
  | link terminal h h' =>
    exact forall_mem_cons.mpr ⟨⟨_, .head _, h⟩, forall_mem_singleton.mpr ⟨_, .tail _ (.head _), h'⟩⟩

/-- Names are distinct in both records or in none. -/
theorem distinctNames (h : Alike related a b) (ha : a.DistinctNames) : b.DistinctNames := by
  cases h with
  | record h => exact (h.perm ha).nodup_iff.mp ha
  | _ => trivial

end Alike

/-! ## Equality and compatibility in layers -/

theorem equalFields_iff : ∀ {fields}, equalFields fields others = true ↔
      ∀ f ∈ fields, ∃ other, others.lookup f.1 = some other ∧ f.2.equal other = true
  | [] => by simp [equalFields]
  | (key, type) :: later => by
    rw [equalFields, Bool.and_eq_true, equalFields_iff, forall_mem_cons]
    cases others.lookup key with
    | none | some other => simp

theorem compatibleFields_iff : ∀ {fields},
    compatibleFields fields others = true ↔
      ∀ f ∈ fields, ∃ other, others.lookup f.1 = some other ∧ f.2.compatible other = true
  | [] => by simp [compatibleFields]
  | (key, type) :: later => by
    rw [compatibleFields, Bool.and_eq_true, compatibleFields_iff, forall_mem_cons]
    cases others.lookup key with
    | none | some other => simp

theorem compatible_record_iff {fields} :
    (record fields).compatible (record others) = true ↔
      Finds (compatible · · = true) fields others := by
  rw [compatible, Bool.and_eq_true, beq_iff_eq, compatibleFields_iff]
  exact ⟨fun h => ⟨h.1, h.2⟩, fun h => ⟨h.length, h.found⟩⟩

theorem equalAll_iff :
    ∀ {types others}, equalAll types others = true ↔ Forall₂ (equal · · = true) types others
  | [], [] => by simp [equalAll]
  | [], _ :: _ => by simp [equalAll]
  | _ :: _, [] => by simp [equalAll]
  | _ :: _, _ :: _ => by rw [equalAll, Bool.and_eq_true, equalAll_iff, forall₂_cons]

theorem compatibleAll_iff : ∀ {types others},
    compatibleAll types others = true ↔ Forall₂ (compatible · · = true) types others
  | [], [] => by simp [compatibleAll]
  | [], _ :: _ => by simp [compatibleAll]
  | _ :: _, [] => by simp [compatibleAll]
  | _ :: _, _ :: _ => by
    rw [compatibleAll, Bool.and_eq_true, compatibleAll_iff, forall₂_cons]

/-- **Types are equal if they are one variable, or alike in what is equal.** -/
theorem equal_iff : a.equal b = true ↔ (a.isVar = true ∧ b = a) ∨ Alike (equal · · = true) a b := by
  constructor
  · intro h
    fun_cases equal a b with
    | case1 => exact .inr .number
    | case2 => exact .inr .text
    | case3 => exact .inr .boolean
    | case4 => exact .inr .nil
    | case5 => exact .inl ⟨rfl, congrArg var (beq_iff_eq.mp h).symm⟩
    | case6 => exact .inr (.list h)
    | case7 => exact .inr (.maybe h)
    | case8 =>
      rw [equal, Bool.and_eq_true, beq_iff_eq, equalFields_iff] at h
      exact .inr (.record ⟨h.1, h.2⟩)
    | case9 =>
      rw [equal, Bool.and_eq_true, beq_iff_eq, equalAll_iff] at h
      obtain ⟨rfl, harguments⟩ := h
      exact .inr (.custom _ harguments)
    | case10 =>
      rw [equal, Bool.and_eq_true, Bool.and_eq_true, beq_iff_eq] at h
      obtain ⟨⟨rfl, hinput⟩, houtput⟩ := h
      exact .inr (.link _ hinput houtput)
    | case11 => simp_all [equal]
  · rintro (⟨hvar, rfl⟩ | h)
    · cases b with
      | var id => exact beq_self_eq_true id
      | _ => cases hvar
    · cases h with
      | number | text | boolean | nil => rfl
      | list h | maybe h => exact h
      | record h =>
        simpa only [equal, Bool.and_eq_true, beq_iff_eq, equalFields_iff] using ⟨h.1, h.2⟩
      | custom _ h => simpa only [equal, Bool.and_eq_true, beq_self_eq_true, true_and, equalAll_iff]
      | link _ h h' => simp only [equal, beq_self_eq_true, h, h', Bool.and_self]

/-- **Types are compatible if one of them is a variable, or alike in what is compatible.** -/
theorem compatible_iff : a.compatible b = true ↔
    a.isVar = true ∨ b.isVar = true ∨ Alike (compatible · · = true) a b := by
  constructor
  · intro h
    fun_cases compatible a b with
    | case1 => exact .inl rfl
    | case2 => exact .inr (.inl rfl)
    | case3 => exact .inr (.inr .number)
    | case4 => exact .inr (.inr .text)
    | case5 => exact .inr (.inr .boolean)
    | case6 => exact .inr (.inr .nil)
    | case7 => exact .inr (.inr (.list h))
    | case8 => exact .inr (.inr (.maybe h))
    | case9 => exact .inr (.inr (.record (compatible_record_iff.mp h)))
    | case10 =>
      rw [compatible, Bool.and_eq_true, beq_iff_eq, compatibleAll_iff] at h
      obtain ⟨rfl, harguments⟩ := h
      exact .inr (.inr (.custom _ harguments))
    | case11 =>
      rw [compatible, Bool.and_eq_true, Bool.and_eq_true, beq_iff_eq] at h
      obtain ⟨⟨rfl, hinput⟩, houtput⟩ := h
      exact .inr (.inr (.link _ hinput houtput))
    | case12 => simp_all [compatible]
  · rintro (hvar | hvar | h)
    · cases a with
      | var id => rfl
      | _ => cases hvar
    · cases b with
      | var id => cases a <;> rfl
      | _ => cases hvar
    · cases h with
      | number | text | boolean | nil => rfl
      | list h | maybe h => exact h
      | record h => exact compatible_record_iff.mpr h
      | custom _ h =>
        simpa only [compatible, Bool.and_eq_true, beq_self_eq_true, true_and, compatibleAll_iff]
      | link _ h h' => simp only [compatible, beq_self_eq_true, h, h', Bool.and_self]

/-! ## Equality is an equivalence -/

/-- A type equals itself, if the names in its records differ. -/
theorem equal_self (h : type.Distinct) : type.equal type = true := by
  induction type using induct_children with
  | step type ih =>
    obtain ⟨hnames, hchildren⟩ := distinct_iff.mp h
    cases hvar : type.isVar with
    | true => exact equal_iff.mpr (.inl ⟨hvar, rfl⟩)
    | false =>
      exact equal_iff.mpr (.inr (.refl hvar hnames fun x hx => ih x hx (hchildren x hx)))

theorem equal_symm (ha : a.Distinct) (h : a.equal b = true) : b.equal a = true := by
  induction a using induct_children generalizing b with
  | step a ih =>
    obtain ⟨hnames, hchildren⟩ := distinct_iff.mp ha
    rcases equal_iff.mp h with ⟨-, rfl⟩ | halike
    · exact h
    · exact equal_iff.mpr (.inr (halike.symm hnames fun x hx _ => ih x hx (hchildren x hx)))

theorem equal_trans (h : a.equal b = true) (h' : b.equal c = true) : a.equal c = true := by
  induction a using induct_children generalizing b c with
  | step a ih =>
    rcases equal_iff.mp h with ⟨-, rfl⟩ | halike
    · exact h'
    · rcases equal_iff.mp h' with ⟨-, rfl⟩ | halike'
      · exact h
      · exact equal_iff.mpr (.inr (halike.trans halike' fun x hx _ _ => ih x hx))

theorem distinct_of_equal (ha : a.Distinct) (h : a.equal b = true) : b.Distinct := by
  induction b using induct_children generalizing a with
  | step b ih =>
    obtain ⟨hnames, hchildren⟩ := distinct_iff.mp ha
    rcases equal_iff.mp h with ⟨-, rfl⟩ | halike
    · exact ha
    · refine distinct_iff.mpr ⟨halike.distinctNames hnames, fun y hy => ?_⟩
      have hback : Alike (fun y x => x.equal y = true) b a := halike.symm hnames fun _ _ _ h => h
      obtain ⟨x, hx, hequal⟩ := hback.exists_child y hy
      exact ih y hy (hchildren x hx) hequal

/-! ## Fields in another order -/

/-- Some record in a type, at any depth, has its fields in another order. -/
inductive Reordering : Ty → Ty → Prop
  | fields {a b : List (String × Ty)} (h : a.Perm b) : Reordering (record a) (record b)
  | list {a b : Ty} (h : Reordering a b) : Reordering (list a) (list b)
  | maybe {a b : Ty} (h : Reordering a b) : Reordering (maybe a) (maybe b)
  | field (before after : List (String × Ty)) (key : String) {a b : Ty} (h : Reordering a b) :
      Reordering (record (before ++ (key, a) :: after)) (record (before ++ (key, b) :: after))
  | argument (name : String) (before after : List Ty) {a b : Ty} (h : Reordering a b) :
      Reordering (custom name (before ++ a :: after)) (custom name (before ++ b :: after))
  | input (output : Ty) (terminal : Bool) {a b : Ty} (h : Reordering a b) :
      Reordering (link a output terminal) (link b output terminal)
  | output (input : Ty) (terminal : Bool) {a b : Ty} (h : Reordering a b) :
      Reordering (link input a terminal) (link input b terminal)

/-- Types with the fields of their records in other orders. -/
abbrev Reordered : Ty → Ty → Prop := Relation.ReflTransGen Reordering

/-- Fields that equal each other in order, where names differ, are found by their names. -/
theorem finds_of_forall₂ {a b} (ha : (a.map Prod.fst).Nodup)
    (h : Forall₂ (fun f g => f.1 = g.1 ∧ f.2.equal g.2 = true) a b) :
    Finds (equal · · = true) a b := by
  have hnames : a.map Prod.fst = b.map Prod.fst := forall₂_eq_eq_eq ▸ rel_map (fun _ _ h => h.1) h
  rw [hnames] at ha
  refine ⟨h.length_eq, fun f hf => ?_⟩
  obtain ⟨i, hi, rfl⟩ := mem_iff_getElem.mp hf
  obtain ⟨hname, hequal⟩ := h.get hi (h.length_eq ▸ hi)
  exact ⟨_, lookup_of_mem ha (hname ▸ get_mem _ _), hequal⟩

/-- **Another order of the fields does not make another type.** -/
theorem Reordering.equal (h : Reordering a b) (ha : a.Distinct) : a.equal b = true := by
  induction h with
  | fields h =>
    obtain ⟨hnodup, hfields⟩ := distinct_iff.mp ha
    exact equal_iff.mpr (.inr (.record (.of_perm h hnodup fun f hf =>
      equal_self (hfields _ (mem_map_of_mem hf)))))
  | list _ ih | maybe _ ih => exact ih ((distinct_iff.mp ha).2 _ (.head _))
  | field before after key _ ih =>
    obtain ⟨hnodup, hfields⟩ := distinct_iff.mp ha
    obtain ⟨hbefore, hrest⟩ := forall_mem_append.mp (forall_mem_map.mp hfields)
    obtain ⟨hfirst, hafter⟩ := forall_mem_cons.mp hrest
    refine equal_iff.mpr (.inr (.record (finds_of_forall₂ hnodup (rel_append ?_
      (.cons ⟨rfl, ih hfirst⟩ ?_)))))
    · exact forall₂_same.mpr fun f hf => ⟨rfl, equal_self (hbefore f hf)⟩
    · exact forall₂_same.mpr fun f hf => ⟨rfl, equal_self (hafter f hf)⟩
  | argument name before after _ ih =>
    obtain ⟨hbefore, hrest⟩ := forall_mem_append.mp (distinct_iff.mp ha).2
    obtain ⟨hfirst, hafter⟩ := forall_mem_cons.mp hrest
    refine equal_iff.mpr (.inr (.custom name (rel_append ?_ (.cons (ih hfirst) ?_))))
    · exact forall₂_same.mpr fun type htype => equal_self (hbefore type htype)
    · exact forall₂_same.mpr fun type htype => equal_self (hafter type htype)
  | input _ terminal _ ih =>
    obtain ⟨hinput, houtput⟩ := forall_mem_cons.mp (distinct_iff.mp ha).2
    exact equal_iff.mpr (.inr (.link terminal (ih hinput) (equal_self (houtput _ (.head _)))))
  | output _ terminal _ ih =>
    obtain ⟨hinput, houtput⟩ := forall_mem_cons.mp (distinct_iff.mp ha).2
    exact equal_iff.mpr (.inr (.link terminal (equal_self hinput) (ih (houtput _ (.head _)))))

/-! ### Equal types differ in the order of fields alone -/

/-- What is made of items that are changed one by one is changed step by step. -/
theorem reordered_items {α : Type} {change : α → α → Prop} {make : List α → Ty}
    (hmake : ∀ before after a b, change a b →
      Reordering (make (before ++ a :: after)) (make (before ++ b :: after)))
    {items others : List α} (h : Forall₂ (Relation.ReflTransGen change) items others) :
    ∀ before, Reordered (make (before ++ items)) (make (before ++ others)) := by
  induction h with
  | nil => exact fun _ => .refl
  | @cons a b items others hfirst _ ih =>
    intro before
    have hstep : Reordered (make (before ++ a :: items)) (make (before ++ b :: items)) :=
      hfirst.lift (fun item => make (before ++ item :: items)) (hmake before items)
    have hrest := ih (before ++ [b])
    rw [← append_cons, ← append_cons] at hrest
    exact hstep.trans hrest

theorem reordered_of_equal (ha : a.Distinct) (h : a.equal b = true) : Reordered a b := by
  induction a using induct_children generalizing b with
  | step a ih =>
    obtain ⟨hnames, hchildren⟩ := distinct_iff.mp ha
    rcases equal_iff.mp h with ⟨-, rfl⟩ | halike
    · exact .refl
    · have hinside : Alike Reordered a b :=
        halike.imp fun x hx _ _ => ih x hx (hchildren x hx)
      cases hinside with
      | number | text | boolean | nil => exact .refl
      | list hin => exact hin.lift Ty.list fun _ _ => .list
      | maybe hin => exact hin.lift Ty.maybe fun _ _ => .maybe
      | record hin =>
        -- The fields are brought into the order of the other record before they are changed.
        obtain ⟨mid, hperm, hmid⟩ := hin.exists_perm hnames
        have hmake : ∀ before after (f g : String × Ty), f.1 = g.1 ∧ Reordering f.2 g.2 →
            Reordering (record (before ++ f :: after)) (record (before ++ g :: after)) := by
          rintro before after ⟨key, _⟩ ⟨_, _⟩ ⟨rfl, hchange⟩
          exact .field before after key hchange
        refine .head (.fields hperm) (reordered_items hmake (hmid.imp ?_) [])
        rintro ⟨key, _⟩ ⟨_, _⟩ ⟨rfl, htype⟩
        exact htype.lift (Prod.mk key) fun _ _ h => ⟨rfl, h⟩
      | custom name hin =>
        exact reordered_items (fun before after _ _ => .argument name before after) hin []
      | @link terminal input input' output output' hin hout =>
        have hfirst : Reordered (link input output terminal) (link input' output terminal) :=
          hin.lift (link · output terminal) fun _ _ h => .input output terminal h
        have hsecond : Reordered (link input' output terminal) (link input' output' terminal) :=
          hout.lift (link input' · terminal) fun _ _ h => .output input' terminal h
        exact hfirst.trans hsecond

theorem Reordered.equal (h : Reordered a b) (ha : a.Distinct) : a.equal b = true := by
  induction h with
  | refl => exact equal_self ha
  | tail _ hstep ih => exact equal_trans ih (hstep.equal (distinct_of_equal ha ih))

/-- Equality with a third type is the same for equal types. -/
theorem equal_congr (ha : a.Distinct) (h : a.equal b = true) :
    a.equal c = b.equal c ∧ c.equal a = c.equal b := by
  have h' : b.equal a = true := equal_symm ha h
  exact ⟨Bool.eq_iff_iff.mpr ⟨equal_trans h', equal_trans h⟩,
    Bool.eq_iff_iff.mpr ⟨(equal_trans · h), (equal_trans · h')⟩⟩

/-! ## Compatibility -/

/-- Equal types agree. -/
theorem compatible_of_equal (h : a.equal b = true) : a.compatible b = true := by
  induction a using induct_children generalizing b with
  | step a ih =>
    rcases equal_iff.mp h with ⟨hvar, -⟩ | halike
    · exact compatible_iff.mpr (.inl hvar)
    · exact compatible_iff.mpr (.inr (.inr (halike.imp fun x hx _ _ => ih x hx)))

theorem compatible_self (ha : a.Distinct) : a.compatible a = true :=
  compatible_of_equal (equal_self ha)

theorem compatible_symm (ha : a.Distinct) (h : a.compatible b = true) : b.compatible a = true := by
  induction a using induct_children generalizing b with
  | step a ih =>
    obtain ⟨hnames, hchildren⟩ := distinct_iff.mp ha
    rcases compatible_iff.mp h with hvar | hvar | halike
    · exact compatible_iff.mpr (.inr (.inl hvar))
    · exact compatible_iff.mpr (.inl hvar)
    · exact compatible_iff.mpr (.inr (.inr
        (halike.symm hnames fun x hx _ => ih x hx (hchildren x hx))))

/-- **Without variables, types agree only where they are equal.** -/
theorem equal_of_compatible (ha : a.Closed) (hb : b.Closed)
    (h : a.compatible b = true) : a.equal b = true := by
  induction a using induct_children generalizing b with
  | step a ih =>
    obtain ⟨hvar, hchildren⟩ := closed_iff.mp ha
    obtain ⟨hvar', hchildren'⟩ := closed_iff.mp hb
    rcases compatible_iff.mp h with h | h | halike
    · cases hvar.symm.trans h
    · cases hvar'.symm.trans h
    · exact equal_iff.mpr (.inr
        (halike.imp fun x hx y hy => ih x hx (hchildren x hx) (hchildren' y hy)))

theorem compatible_eq_equal (ha : a.Closed) (hb : b.Closed) : a.compatible b = a.equal b :=
  Bool.eq_iff_iff.mpr ⟨equal_of_compatible ha hb, compatible_of_equal⟩

/-- A type without variables hands agreement on. -/
theorem compatible_trans (hb : b.Closed) (h : a.compatible b = true)
    (h' : b.compatible c = true) : a.compatible c = true := by
  induction a using induct_children generalizing b c with
  | step a ih =>
    obtain ⟨hvar, hchildren⟩ := closed_iff.mp hb
    rcases compatible_iff.mp h with ha | hb' | halike
    · exact compatible_iff.mpr (.inl ha)
    · cases hvar.symm.trans hb'
    · rcases compatible_iff.mp h' with hb' | hc | halike'
      · cases hvar.symm.trans hb'
      · exact compatible_iff.mpr (.inr (.inl hc))
      · have hclosed : Alike (fun y z => y.Closed ∧ y.compatible z = true) b c :=
          halike'.imp fun y hy _ _ hyz => ⟨hchildren y hy, hyz⟩
        exact compatible_iff.mpr (.inr (.inr
          (halike.trans hclosed fun x hx _ _ hxy hyz => ih x hx hyz.1 hxy hyz.2)))

/-! ## Acceptance -/

/-- A type takes what it agrees with. -/
theorem accepts_of_compatible (h : a.compatible b = true) : a.accepts b = true := by
  cases a with
  | maybe inner => rw [accepts, h, Bool.true_or]
  | _ => exact h

/-- What more a type takes, it takes as an option. -/
theorem accepts_cases (h : a.accepts b = true) : a.compatible b = true ∨
    ∃ inner, a = maybe inner ∧ (b = nil ∨ inner.accepts b = true) := by
  cases a with
  | maybe inner =>
    rw [accepts, Bool.or_eq_true, Bool.or_eq_true] at h
    rcases h with h | h | h
    · exact .inl h
    · cases b with
      | nil => exact .inr ⟨inner, rfl, .inl rfl⟩
      | _ => cases h
    · exact .inr ⟨inner, rfl, .inr h⟩
  | _ => exact .inl h

@[simp] theorem accepts_nil (inner : Ty) : (maybe inner).accepts nil = true := by
  rw [accepts, isNil, Bool.true_or, Bool.or_true]

theorem accepts_of_inner {inner} (h : inner.accepts b = true) : (maybe inner).accepts b = true := by
  rw [accepts, h, Bool.or_true, Bool.or_true]

/-- **Acceptance is transitive on types without variables.** -/
theorem accepts_trans (ha : a.Closed) (hb : b.Closed) (hc : c.Closed)
    (h : a.accepts b = true) (h' : b.accepts c = true) : a.accepts c = true := by
  induction a using induct generalizing b with
  | maybe inner ih =>
    rcases accepts_cases h with hagree | ⟨_, ⟨rfl⟩, rfl | hinner⟩
    · rcases accepts_cases h' with hagree' | ⟨inner', rfl, rfl | hinner'⟩
      · exact accepts_of_compatible (compatible_trans hb hagree hagree')
      · exact accepts_nil inner
      · have hfirst : inner.accepts inner' = true := accepts_of_compatible hagree
        exact accepts_of_inner (ih (b := inner') ha hb hfirst hinner')
    · cases c with
      | nil => exact accepts_nil inner
      | var => cases hc
      | _ => cases h'
    · exact accepts_of_inner (ih ha hb hinner h')
  | var id => cases ha
  | _ =>
    rcases accepts_cases h with hagree | ⟨_, hoption, -⟩
    · rcases accepts_cases h' with hagree' | ⟨inner', rfl, -⟩
      · exact accepts_of_compatible (compatible_trans hb hagree hagree')
      · cases hagree
    · cases hoption

/-- The number of options around a type. -/
def options : Ty → Nat
  | maybe inner => inner.options + 1
  | _ => 0

theorem options_of_equal (h : a.equal b = true) : a.options = b.options := by
  induction a using induct_children generalizing b with
  | step a ih =>
    rcases equal_iff.mp h with ⟨-, rfl⟩ | halike
    · rfl
    · cases halike with
      | maybe h => exact congrArg (· + 1) (ih _ (.head _) h)
      | _ => rfl

/-- **What a type takes has no more options around it, and as many only if it is equal.** -/
theorem options_of_accepts (ha : a.Closed) (hb : b.Closed) (h : a.accepts b = true) :
    b.options ≤ a.options ∧ (b.options = a.options → a.equal b = true) := by
  induction a using induct with
  | maybe inner ih =>
    rcases accepts_cases h with hagree | ⟨_, ⟨rfl⟩, rfl | hinner⟩
    · have hequal := equal_of_compatible ha hb hagree
      exact ⟨Nat.le_of_eq (options_of_equal hequal).symm, fun _ => hequal⟩
    · exact ⟨Nat.zero_le _, fun hsame => absurd hsame (Nat.succ_ne_zero _).symm⟩
    · obtain ⟨hle, -⟩ := ih ha hinner
      exact ⟨Nat.le_succ_of_le hle, fun hsame =>
        absurd hsame (Nat.ne_of_lt (Nat.lt_succ_of_le hle))⟩
  | _ =>
    rcases accepts_cases h with hagree | ⟨_, hoption, -⟩
    · have hequal := equal_of_compatible ha hb hagree
      exact ⟨Nat.le_of_eq (options_of_equal hequal).symm, fun _ => hequal⟩
    · cases hoption

theorem accepts_antisymm (ha : a.Closed) (hb : b.Closed) (h : a.accepts b = true)
    (h' : b.accepts a = true) : a.equal b = true := by
  obtain ⟨hle, hequal⟩ := options_of_accepts ha hb h
  obtain ⟨hle', -⟩ := options_of_accepts hb ha h'
  exact hequal (Nat.le_antisymm hle hle')

/-! ## The laws -/

/-- **The algebra of types.**  Where the names in every record differ, equality is an equivalence,
which sees no order of fields and nothing less than that, and compatibility is reflexive and
symmetric.  Without variables the two are the same, and acceptance is an order up to equality. -/
theorem laws_of_agreement :
    Equivalence (fun a b : {type : Ty // type.Distinct} => (a.1 == b.1) = true) ∧
      (∀ a b : Ty, a.Distinct → Reordered a b →
        ∀ c : Ty, (a == c) = (b == c) ∧ (c == a) = (c == b)) ∧
      (∀ a b : Ty, a.Distinct → (a == b) = true → Reordered a b) ∧
      (∀ a : Ty, a.Distinct → a.compatible a = true) ∧
      (∀ a b : Ty, a.Distinct → b.Distinct → a.compatible b = b.compatible a) ∧
      (∀ a b : Ty, a.Closed → b.Closed → a.compatible b = (a == b)) ∧
      (∀ a : Ty, a.Distinct → a.accepts a = true) ∧
      (∀ a b c : Ty, a.Closed → b.Closed → c.Closed → a.accepts b = true → b.accepts c = true →
        a.accepts c = true) ∧
      ∀ a b : Ty, a.Closed → b.Closed → a.accepts b = true → b.accepts a = true →
        (a == b) = true := by
  refine ⟨⟨fun a => equal_self a.2, fun {a _} h => equal_symm a.2 h, equal_trans⟩, ?_, ?_, ?_, ?_,
    ?_, ?_, ?_, ?_⟩
  · exact fun a b ha h c => equal_congr ha (h.equal ha)
  · exact fun a b ha h => reordered_of_equal ha h
  · exact fun a ha => compatible_self ha
  · exact fun a b ha hb => Bool.eq_iff_iff.mpr ⟨compatible_symm ha, compatible_symm hb⟩
  · exact fun a b ha hb => compatible_eq_equal ha hb
  · exact fun a ha => accepts_of_compatible (compatible_self ha)
  · exact fun a b c ha hb hc h h' => accepts_trans ha hb hc h h'
  · exact fun a b ha hb h h' => accepts_antisymm ha hb h h'

/-- A record in a list in a record, and the same with the fields of both in the other order. -/
def pointsRecord : Ty :=
  record [("points", list (record [("x", number), ("y", text)])), ("next", maybe nil)]

@[inherit_doc pointsRecord]
def turnedRecord : Ty :=
  record [("next", maybe nil), ("points", list (record [("y", text), ("x", number)]))]

theorem laws_pointsRecord : pointsRecord.Distinct ∧ pointsRecord.Closed ∧
    Reordered pointsRecord turnedRecord ∧ (pointsRecord == turnedRecord) = true ∧
      turnedRecord.compatible pointsRecord = true ∧
      (maybe turnedRecord).accepts pointsRecord = true ∧
      pointsRecord.accepts (maybe turnedRecord) = false := by
  obtain ⟨hequivalence, hreordered, -, -, hsymm, hclosed, hself, htrans, -⟩ := laws_of_agreement
  have hdistinct : pointsRecord.Distinct ∧ turnedRecord.Distinct := by decide
  have hfree : pointsRecord.Closed ∧ turnedRecord.Closed := ⟨rfl, rfl⟩
  have hturned : Reordered pointsRecord turnedRecord :=
    .head (.field [] _ "points" (.list (.fields (.swap _ _ _)))) (.single (.fields (.swap _ _ _)))
  have hequal : (pointsRecord == turnedRecord) = true :=
    (hreordered _ _ hdistinct.1 hturned pointsRecord).2.symm.trans
      (hequivalence.refl ⟨pointsRecord, hdistinct.1⟩)
  have hagree : turnedRecord.compatible pointsRecord = true := by
    rw [hsymm _ _ hdistinct.2 hdistinct.1, hclosed _ _ hfree.1 hfree.2, hequal]
  have hoption : (maybe turnedRecord).accepts turnedRecord = true :=
    accepts_of_inner (hself _ hdistinct.2)
  refine ⟨hdistinct.1, hfree.1, hturned, hequal, hagree, ?_, rfl⟩
  exact htrans _ _ _ hfree.2 hfree.2 hfree.1 hoption (accepts_of_compatible hagree)

end Offside.Ty
