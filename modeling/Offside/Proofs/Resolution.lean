import Mathlib.Data.List.Chain
import Offside.Proofs.Pinning
import Offside.Proofs.Renaming

/-!
# Proofs/Resolution — applying bindings

`Subst.apply` follows as many bindings in a row as there are.  Along the way from a type every
variable that is followed is a bound one, and where no binding leads back to itself they all differ
(`Acyclic.length_le`), so there are enough: what comes out has no variable left to follow, and to
apply the bindings again changes nothing.

Where bindings do lead back to themselves, their number is what ends the recursion:
`limit_applyWithin` says that for all bindings it comes to `Subst.apply` at some depth.

`apply_resolves` puts both together.
-/

namespace Offside.Subst

open List
open Relation (TransGen)

variable {s : Subst} {t : Ty} {x : Nat}

/-! ## Bindings that lead nowhere back -/

/-- Another bound variable, `x`, occurs in the type that `y` is bound to. -/
def DependsOn (s : Subst) (y x : Nat) : Prop :=
  x ≠ y ∧ (s.get? x).isSome ∧ ∃ bound, s.get? y = some bound ∧ x ∈ bound.vars

/-- **No binding leads back to itself**, except that a variable may be bound to just itself. -/
structure Acyclic (s : Subst) : Prop where
  irrefl : ∀ x, ¬ TransGen s.DependsOn x x
  self : ∀ x bound, s.get? x = some bound → x ∈ bound.vars → bound = .var x

/-- A variable is not followed: it is not bound, or bound to itself. -/
def Settled (s : Subst) (x : Nat) : Prop := ∀ bound, s.get? x = some bound → bound = .var x

theorem beq_var_iff {bound : Ty} : (bound == .var x) = true ↔ bound = .var x := by
  cases bound <;> simp [BEq.beq, Ty.equal]

/-- A variable is settled, or bound to a type that is followed. -/
theorem settled_or_bound (s : Subst) (x : Nat) :
    s.Settled x ∨ ∃ bound, s.get? x = some bound ∧ bound ≠ .var x := by
  by_cases h : s.Settled x
  · exact .inl h
  · obtain ⟨bound, hx⟩ := not_forall.mp h
    obtain ⟨hget, hne⟩ := Classical.not_imp.mp hx
    exact .inr ⟨bound, hget, hne⟩

/-- Bindings that lead from each variable to greater ones never lead back. -/
theorem acyclic_of_ascending
    (h : ∀ p ∈ s.bindings, p.2 = .var p.1 ∨ ∀ x ∈ p.2.vars, p.1 < x) : s.Acyclic := by
  have hmem : ∀ {y bound}, s.get? y = some bound → bound = .var y ∨ ∀ x ∈ bound.vars, y < x := by
    intro y bound hget
    obtain ⟨before, after, hbindings, -⟩ := lookup_eq_some_iff.mp hget
    exact h (y, bound) (by rw [hbindings]; simp)
  refine ⟨fun x hx => ?_, fun y bound hget hy => (hmem hget).resolve_right fun hless =>
    Nat.lt_irrefl y (hless y hy)⟩
  have hless : s.DependsOn ≤ (· < ·) := by
    rintro y x ⟨hne, -, bound, hget, hx⟩
    rcases hmem hget with rfl | hless
    · exact absurd (mem_singleton.mp hx) hne
    · exact hless x hx
  exact Nat.lt_irrefl x (Relation.transGen_minimal hless x x hx)

/-! ## One step of applying bindings -/

theorem applyTo_settled (h : s.Settled x) : ∀ depth, s.applyTo depth (.var x) = .var x
  | 0 => rfl
  | depth + 1 => by
    rw [applyTo, Ty.mapVars]
    cases hget : s.get? x with
    | none => rfl
    | some bound => exact if_pos (beq_var_iff.mpr (h bound hget))

theorem applyTo_bound {bound} (hget : s.get? x = some bound) (hne : bound ≠ .var x) (depth : Nat) :
    s.applyTo (depth + 1) (.var x) = s.applyTo depth bound := by
  rw [applyTo, Ty.mapVars, hget]
  exact if_neg fun h => hne (beq_var_iff.mp h)

/-- **Bindings are applied to a type by applying them to its variables.** -/
theorem applyTo_eq_mapVars (s : Subst) (depth : Nat) (t : Ty) :
    s.applyTo depth t = t.mapVars fun x => s.applyTo depth (.var x) := by
  cases depth with
  | zero => exact t.mapVars_var.symm
  | succ depth => rfl

theorem apply_eq_mapVars (s : Subst) (t : Ty) :
    s.apply t = t.mapVars fun x => s.apply (.var x) := s.applyTo_eq_mapVars s.size t

/-- What is settled stays. -/
theorem applyTo_of_settled (h : ∀ x ∈ t.vars, s.Settled x) (depth : Nat) :
    s.applyTo depth t = t := by
  rw [applyTo_eq_mapVars]
  exact (Ty.mapVars_congr fun x hx => applyTo_settled (h x hx) depth).trans t.mapVars_var

/-! ## The bindings followed from a type -/

/-- Variables that are followed one after the other, beginning at a type. -/
def Trail (s : Subst) : Ty → List Nat → Prop
  | _, [] => True
  | t, x :: later => x ∈ t.vars ∧ ∃ bound, s.get? x = some bound ∧ bound ≠ .var x ∧
      Trail s bound later

/-- What is followed next after a variable is another one. -/
theorem Acyclic.dependsOn (h : s.Acyclic) {y bound later} (hget : s.get? y = some bound)
    (hne : bound ≠ .var y) (htrail : s.Trail bound (x :: later)) : s.DependsOn y x := by
  obtain ⟨hx, next, hnext, -, -⟩ := htrail
  refine ⟨fun e => hne (h.self y bound hget (e ▸ hx)), ?_, bound, hget, hx⟩
  rw [hnext]
  rfl

theorem Acyclic.isChain (h : s.Acyclic) : ∀ {trail t}, s.Trail t trail → trail.IsChain s.DependsOn
  | [], _, _ => .nil
  | [_], _, _ => .singleton _
  | _ :: _ :: _, _, ⟨_, _, hget, hne, htrail⟩ =>
    .cons_cons (h.dependsOn hget hne htrail) (h.isChain htrail)

theorem Trail.subset_keys : ∀ {trail t}, s.Trail t trail → trail ⊆ s.keys
  | [], _, _ => nil_subset _
  | _ :: _, _, ⟨_, _, hget, _, htrail⟩ =>
    cons_subset.mpr ⟨mem_keys hget, htrail.subset_keys⟩

/-- **The bindings followed in a row are at most as many as there are**: each is met once. -/
theorem Acyclic.length_le (h : s.Acyclic) {trail} (htrail : s.Trail t trail) :
    trail.length ≤ s.size := by
  have hahead : trail.Pairwise (TransGen s.DependsOn) :=
    ((h.isChain htrail).imp fun _ _ => TransGen.single).pairwise
  have hnodup : trail.Nodup := hahead.imp fun {x y} hxy => by
    rintro rfl
    exact h.irrefl x hxy
  have hle := (subperm_of_subset hnodup htrail.subset_keys).length_le
  rwa [keys, length_map] at hle

/-- Every trail from a type is at most this long. -/
def Reach (s : Subst) (depth : Nat) (t : Ty) : Prop :=
  ∀ trail, s.Trail t trail → trail.length ≤ depth

theorem Reach.bound {depth bound} (h : s.Reach (depth + 1) t) (hx : x ∈ t.vars)
    (hget : s.get? x = some bound) (hne : bound ≠ .var x) : s.Reach depth bound :=
  fun trail htrail => Nat.le_of_succ_le_succ (h (x :: trail) ⟨hx, bound, hget, hne, htrail⟩)

theorem Reach.settled (h : s.Reach 0 t) (hx : x ∈ t.vars) : s.Settled x := by
  rcases s.settled_or_bound x with hsettled | ⟨bound, hget, hne⟩
  · exact hsettled
  · exact absurd (h [x] ⟨hx, bound, hget, hne, trivial⟩) (Nat.not_succ_le_zero 0)

/-- **With enough depth nothing is left to follow.** -/
theorem Reach.settled_applyTo :
    ∀ {depth t}, s.Reach depth t → ∀ x ∈ (s.applyTo depth t).vars, s.Settled x
  | 0, _, h => fun _ hx => h.settled hx
  | depth + 1, t, h => by
    intro x hx
    rw [applyTo_eq_mapVars, Ty.vars_mapVars] at hx
    obtain ⟨y, hy, hx⟩ := mem_flatMap.mp hx
    rcases s.settled_or_bound y with hsettled | ⟨bound, hget, hne⟩
    · rw [applyTo_settled hsettled] at hx
      rwa [mem_singleton.mp hx]
    · rw [applyTo_bound hget hne] at hx
      exact (h.bound hy hget hne).settled_applyTo x hx

/-- More depth than enough changes nothing. -/
theorem Reach.applyTo_succ :
    ∀ {depth t}, s.Reach depth t → s.applyTo (depth + 1) t = s.applyTo depth t
  | 0, _, h => applyTo_of_settled (fun _ hx => h.settled hx) 1
  | depth + 1, t, h => by
    rw [applyTo_eq_mapVars, applyTo_eq_mapVars s (depth + 1) t]
    refine Ty.mapVars_congr fun x hx => ?_
    rcases s.settled_or_bound x with hsettled | ⟨bound, hget, hne⟩
    · rw [applyTo_settled hsettled, applyTo_settled hsettled]
    · rw [applyTo_bound hget hne, applyTo_bound hget hne, (h.bound hx hget hne).applyTo_succ]

/-- **A bound variable stands for what its binding stands for.** -/
theorem Acyclic.apply_var (h : s.Acyclic) {bound} (hget : s.get? x = some bound) :
    s.apply (.var x) = s.apply bound := by
  by_cases hself : bound = .var x
  · rw [hself]
  · have hreach : s.Reach s.size (.var x) := fun _ => h.length_le
    obtain ⟨depth, hdepth⟩ := Nat.exists_eq_succ_of_ne_zero (size_ne_zero hget)
    rw [hdepth] at hreach
    rw [apply, apply, hdepth, applyTo_bound hget hself,
      (hreach.bound mem_cons_self hget hself).applyTo_succ]

/-! ## The recursion -/

/-- Applies bindings by recursion into the type and into what its variables are bound to, at most
`n` calls deep; `depth` is the number of bindings that may still be followed in a row. -/
def applyWithin (s : Subst) : Nat → Nat → Ty → Option Ty
  | 0, _, _ => none
  | n + 1, depth, .var x =>
    match s.get? x with
    | some bound =>
      if depth != 0 && bound != .var x then s.applyWithin n (depth - 1) bound else some (.var x)
    | none => some (.var x)
  | n + 1, depth, .list element => (s.applyWithin n depth element).map .list
  | n + 1, depth, .maybe inner => (s.applyWithin n depth inner).map .maybe
  | n + 1, depth, .record fields =>
    (fields.mapM fun p => (s.applyWithin n depth p.2).map (p.1, ·)).map .record
  | n + 1, depth, .custom name arguments =>
    (arguments.mapM (s.applyWithin n depth)).map (.custom name)
  | n + 1, depth, .link input output terminal =>
    (s.applyWithin n depth input).bind fun input =>
      (s.applyWithin n depth output).map fun output => .link input output terminal
  | _ + 1, _, other => some other

/-- Tries whose results are put into a larger one. -/
theorem limit_map {α β : Type} {tries a} (h : Limit (· = none) tries (some a)) (f : α → β) :
    Limit (· = none) (fun n => (tries n).map f) (some (f a)) :=
  h.map (Option.map f) fun _ => Option.map_eq_none_iff

/-- Tries for the parts of a list come to what each of them comes to. -/
theorem limit_mapM {α β : Type} {f : Nat → α → Option β} {g : α → β} : ∀ (xs : List α),
    (∀ x ∈ xs, Limit (· = none) (fun n => f n x) (some (g x))) →
      Limit (· = none) (fun n => xs.mapM (f n)) (some (xs.map g))
  | [], _ => .const
  | x :: later, h => by
    obtain ⟨hx, hlater⟩ := forall_mem_cons.mp h
    simp only [mapM_cons, map_cons, bind_pure_comp, Option.map_eq_map]
    exact hx.bind (g := fun y => some (y :: later.map g)) fun y =>
      limit_map (limit_mapM later hlater) (y :: ·)

/-- The recursion into a type ends where it ends at the variables of the type. -/
theorem limit_of_vars {depth f}
    (h : ∀ x, Limit (· = none) (fun n => s.applyWithin n depth (.var x)) (some (f x))) (t : Ty) :
    Limit (· = none) (fun n => s.applyWithin n depth t) (some (t.mapVars f)) := by
  induction t using Ty.induct with
  | var x => exact h x
  | number | text | boolean | nil => exact .delay rfl .const
  | list element ih => exact .delay rfl (limit_map ih Ty.list)
  | maybe inner ih => exact .delay rfl (limit_map ih Ty.maybe)
  | record fields ih =>
    rw [Ty.mapVars, Ty.mapVarsFields_eq]
    refine .delay rfl (limit_map (limit_mapM fields fun p hp => ?_) Ty.record)
    exact limit_map (ih p hp) (p.1, ·)
  | custom name arguments ih =>
    rw [Ty.mapVars, Ty.mapVarsAll_eq]
    exact .delay rfl (limit_map (limit_mapM arguments ih) (Ty.custom name))
  | link input output terminal ihi iho =>
    refine .delay rfl (ihi.bind (g := fun i => some (Ty.link i (output.mapVars f) terminal))
      fun i => ?_)
    exact limit_map iho (Ty.link i · terminal)

theorem applyWithin_zero (n : Nat) (x : Nat) :
    s.applyWithin (n + 1) 0 (.var x) = some (.var x) := by
  rw [applyWithin]
  cases s.get? x <;> rfl

theorem applyWithin_settled (h : s.Settled x) (n depth : Nat) :
    s.applyWithin (n + 1) depth (.var x) = some (.var x) := by
  rw [applyWithin]
  cases hget : s.get? x with
  | none => rfl
  | some bound =>
    have hself : (bound != .var x) = false := by simp [bne, beq_var_iff.mpr (h bound hget)]
    simp only [hself, Bool.and_false, Bool.false_eq_true, if_false]

theorem applyWithin_bound {bound} (hget : s.get? x = some bound) (hne : bound ≠ .var x)
    (n depth : Nat) : s.applyWithin (n + 1) (depth + 1) (.var x) = s.applyWithin n depth bound := by
  have hother : (bound != .var x) = true := by simpa [bne] using fun h => hne (beq_var_iff.mp h)
  rw [applyWithin, hget]
  simp only [hother]
  rfl

/-- **The recursion ends for all bindings**, also for those that lead back to themselves, and comes
to what `applyTo` gives. -/
theorem limit_applyWithin (s : Subst) (depth : Nat) (t : Ty) :
    Limit (· = none) (fun n => s.applyWithin n depth t) (some (s.applyTo depth t)) := by
  -- only a variable takes from the depth, so the types it is bound to have the smaller one
  induction depth generalizing t with
  | zero =>
    rw [applyTo_eq_mapVars]
    refine limit_of_vars (fun x => .delay rfl ?_) t
    simp only [applyWithin_zero]
    exact .const
  | succ depth ih =>
    rw [applyTo_eq_mapVars]
    refine limit_of_vars (fun x => .delay rfl ?_) t
    rcases s.settled_or_bound x with hsettled | ⟨bound, hget, hne⟩
    · simp only [applyWithin_settled hsettled, applyTo_settled hsettled]
      exact .const
    · simp only [applyWithin_bound hget hne, applyTo_bound hget hne]
      exact ih bound

/-! ## What comes out -/

/-- **Applying bindings resolves a type completely.**  Where no binding leads back to itself, except
for variables that are bound to just themselves, no variable in the result has another binding, to
apply the bindings once more changes nothing, and the result has in place of every bound variable
what its binding resolves to.  And for all bindings the recursion into a type and into what its
variables are bound to comes to the result at some depth. -/
theorem apply_resolves (s : Subst) : (s.Acyclic → ∀ t : Ty,
      (∀ x ∈ (s.apply t).vars, ∀ bound, s.get? x = some bound → bound = .var x) ∧
      s.apply (s.apply t) = s.apply t ∧
      s.apply t = t.mapVars fun x => (s.get? x).elim (.var x) s.apply) ∧
    ∀ t : Ty, ∃ depth, ∀ n, depth ≤ n → s.applyWithin n s.size t = some (s.apply t) := by
  refine ⟨fun h t => ?_, fun t => (s.limit_applyWithin s.size t).reached (Option.some_ne_none _)⟩
  have hreach : s.Reach s.size t := fun _ => h.length_le
  refine ⟨hreach.settled_applyTo, applyTo_of_settled hreach.settled_applyTo _, ?_⟩
  rw [apply_eq_mapVars]
  refine Ty.mapVars_congr fun x _ => ?_
  cases hget : s.get? x with
  | none => exact applyTo_settled (fun bound hbound => by rw [hget] at hbound; cases hbound) _
  | some bound => exact h.apply_var hget

/-- Four bindings that are followed in a row, through types of all kinds, and a variable that is
bound to itself. -/
def nestedBindings : Subst :=
  ⟨[(0, .list (.var 1)), (1, .link (.var 2) (.maybe (.var 3)) true), (2, .var 2),
    (3, .record [("size", .custom "Box" [.var 4])]), (4, .text)]⟩

theorem apply_resolves_nestedBindings : nestedBindings.Acyclic ∧ nestedBindings.apply (.var 0)
        = .list (.link (.var 2) (.maybe (.record [("size", .custom "Box" [.text])])) true) ∧
      (∀ x ∈ (nestedBindings.apply (.var 0)).vars,
        ∀ bound, nestedBindings.get? x = some bound → bound = .var x) ∧
      nestedBindings.apply (nestedBindings.apply (.var 0)) = nestedBindings.apply (.var 0) ∧
      ∃ depth, ∀ n, depth ≤ n → nestedBindings.applyWithin n nestedBindings.size (.var 0)
          = some (nestedBindings.apply (.var 0)) := by
  have hacyclic : nestedBindings.Acyclic :=
    acyclic_of_ascending (by simp [nestedBindings, Ty.vars, Ty.varsFields, Ty.varsAll])
  obtain ⟨hresolved, hended⟩ := apply_resolves nestedBindings
  obtain ⟨hvars, hagain, -⟩ := hresolved hacyclic (.var 0)
  exact ⟨hacyclic, rfl, hvars, hagain, hended (.var 0)⟩

end Offside.Subst
