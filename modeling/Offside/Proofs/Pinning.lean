import Mathlib.Order.Lattice
import Offside.Proofs.Circle

/-!
# Proofs/Pinning — comparing by recursion on the parameter

`Ty.fit` recurs on the argument and looks up as many bindings as there are.  The plain way to
compare recurs on the parameter instead, and into whatever a variable is bound to; nothing bounds
how deep that goes.  `Ty.pinWithin` is that way with a bound on the depth, and `limit_pinWithin`
says that `Ty.fit` is what it comes to as the bound grows: the same outcome from some depth on, and
none at any depth exactly where `Ty.fit` gives up.
-/

namespace Offside

/-! ## Tries -/

/-- **What tries of growing length come to.**  Every try gives the final answer or gives up, and
from some length on they give the answer, unless that is to give up. -/
structure Limit {β : Type} (gaveUp : β → Prop) (tries : Nat → β) (final : β) : Prop where
  agrees : ∀ n, tries n = final ∨ gaveUp (tries n)
  reached : ¬ gaveUp final → ∃ n, ∀ m, n ≤ m → tries m = final

namespace Limit

variable {β : Type} {gaveUp : β → Prop} {tries : Nat → β} {final : β}

theorem const : Limit gaveUp (fun _ => final) final :=
  ⟨fun _ => .inl rfl, fun _ => ⟨0, fun _ _ => rfl⟩⟩

theorem never (h : ∀ n, gaveUp (tries n)) (hf : gaveUp final) : Limit gaveUp tries final :=
  ⟨fun n => .inr (h n), fun hn => absurd hf hn⟩

/-- The shortest try may be left out if it gives up. -/
theorem delay (h0 : gaveUp (tries 0)) (h : Limit gaveUp (fun n => tries (n + 1)) final) :
    Limit gaveUp tries final := by
  refine ⟨fun n => ?_, fun hf => ?_⟩
  · cases n with
    | zero => exact .inr h0
    | succ n => exact h.agrees n
  · obtain ⟨n, hn⟩ := h.reached hf
    refine ⟨n + 1, fun m hm => ?_⟩
    obtain ⟨k, rfl⟩ := Nat.exists_eq_add_of_le' hm
    exact hn (k + n) (Nat.le_add_left n k)

theorem gaveUp_of_final (h : Limit gaveUp tries final) (hf : gaveUp final) (n : Nat) :
    gaveUp (tries n) := by
  rcases h.agrees n with e | e
  · rwa [e]
  · exact e

/-- **A try of two parts comes to what its parts come to**, where to give up in the first part is
to give up. -/
theorem seq {γ : Type} {gaveUp' : γ → Prop} {f : Nat → β → γ} {g : β → γ}
    (h : Limit gaveUp tries final) (hf : ∀ n b, gaveUp b → gaveUp' (f n b))
    (hg : gaveUp final → gaveUp' (g final))
    (hnext : ¬ gaveUp final → Limit gaveUp' (fun n => f n final) (g final)) :
    Limit gaveUp' (fun n => f n (tries n)) (g final) := by
  by_cases hfinal : gaveUp final
  · exact .never (fun n => hf n _ (h.gaveUp_of_final hfinal n)) (hg hfinal)
  refine ⟨fun n => ?_, fun hr => ?_⟩
  · rcases h.agrees n with e | e
    · rw [e]
      exact (hnext hfinal).agrees n
    · exact .inr (hf n _ e)
  · obtain ⟨n, hn⟩ := h.reached hfinal
    obtain ⟨k, hk⟩ := (hnext hfinal).reached hr
    refine ⟨max n k, fun m hm => ?_⟩
    rw [hn m (le_trans (le_max_left n k) hm)]
    exact hk m (le_trans (le_max_right n k) hm)

theorem map {γ : Type} {gaveUp'} (f : β → γ) (hf : ∀ b, gaveUp' (f b) ↔ gaveUp b)
    (h : Limit gaveUp tries final) : Limit gaveUp' (fun n => f (tries n)) (f final) :=
  h.seq (fun _ b => (hf b).mpr) (hf final).mpr fun _ => .const

theorem bind {α γ : Type} {tries : Nat → Option α} {final : Option α} {f : Nat → α → Option γ}
    {g : α → Option γ} (h : Limit (· = none) tries final)
    (hf : ∀ a, Limit (· = none) (fun n => f n a) (g a)) :
    Limit (· = none) (fun n => (tries n).bind (f n)) (final.bind g) := by
  refine h.seq (f := fun n a => a.bind (f n)) (g := (·.bind g)) ?_ ?_ fun hfinal => ?_
  · rintro _ _ rfl
    rfl
  · rintro rfl
    rfl
  · cases final with
    | none => exact absurd rfl hfinal
    | some a => exact hf a

/-- **Some try ends exactly if the answer is not to give up.** -/
theorem exists_iff (h : Limit gaveUp tries final) : (∃ n, ¬ gaveUp (tries n)) ↔ ¬ gaveUp final := by
  refine ⟨fun ⟨n, hn⟩ hf => hn (h.gaveUp_of_final hf n), fun hf => ?_⟩
  obtain ⟨n, hn⟩ := h.reached hf
  exact ⟨n, by rwa [hn n le_rfl]⟩

end Limit

namespace Fit

variable {r : Fit}

/-- The comparison gave up. -/
def IsEndless : Fit → Prop
  | endless _ _ => True
  | _ => False

theorem IsEndless.andThen (h : r.IsEndless) (f : Subst → Fit) : (r.andThen f).IsEndless := by
  cases r with
  | endless t s => trivial
  | _ => exact h.elim

theorem limit_andThen {p : Nat → Fit} {f : Nat → Subst → Fit} {g : Subst → Fit}
    (hp : Limit IsEndless p r) (hf : ∀ s, Limit IsEndless (fun n => f n s) (g s)) :
    Limit IsEndless (fun n => (p n).andThen (f n)) (r.andThen g) := by
  refine hp.seq (f := fun n a => a.andThen (f n)) (g := (·.andThen g)) ?_ (·.andThen g) fun h => ?_
  · exact fun n _ h => h.andThen (f n)
  · cases r with
    | fits s => exact hf s
    | clashes s => exact .const
    | endless t s => exact absurd trivial h

end Fit

namespace Ty

open Subst Relation Fit

variable {r : Fit}

/-- A run of comparisons comes to the run of what they come to. -/
theorem limit_fitEach {β : Type} {f : Nat → β → Subst → Fit} {g : β → Subst → Fit} :
    ∀ (items : List β), (∀ x ∈ items, ∀ s, Limit IsEndless (fun n => f n x s) (g x s)) →
      ∀ s, Limit IsEndless (fun n => fitEach (items.map (f n)) s) (fitEach (items.map g) s)
  | [], _, _ => .const
  | x :: later, h, s =>
    limit_andThen (h x List.mem_cons_self s)
      (limit_fitEach later fun y hy => h y (List.mem_cons_of_mem _ hy))

/-! ## Recursion on the parameter -/

/-- Compares by recursion on the parameter, and into what its variables are bound to, at most `n`
calls deep; a comparison that needs more is endless. -/
def pinWithin : Nat → Ty → Comparison
  | 0, _, expected, s => .endless expected s
  | n + 1, actual, var id, s =>
    match s.get? id with
    | none => .fits (s.insert id actual)
    | some bound =>
      if bound.isVar then .fits (s.insert id actual) else pinWithin n actual bound s
  | n + 1, actual, expected, s =>
    if actual.isVar then .fits s
    else match expected, actual with
    | list type, list element => pinWithin n element type s
    | maybe _, nil => .fits s
    | maybe type, maybe inner => pinWithin n inner type s
    | maybe type, other => pinWithin n other type s
    | record types, record fields =>
      if fields.length == types.length then
        fitEach (types.map (fitField (pinWithin n) fields)) s
      else .clashes s
    | link input' output' terminal', link input output terminal =>
      if terminal' == terminal then
        (pinWithin n input input' s).andThen (pinWithin n output output')
      else .clashes s
    | custom name' types, custom name arguments =>
      if name' == name && types.length == arguments.length then
        fitEach ((arguments.zip types).map fun p => pinWithin n p.1 p.2) s
      else .clashes s
    | number, _ | text, _ | boolean, _ | nil, _ => .when (expected.compatible actual) s
    | _, _ => .clashes s

/-- A type that is compared with what an option is an option of: no variable, no nil and no option
itself. -/
def IsPlain : Ty → Prop
  | var _ | nil | maybe _ => False
  | _ => True

section Steps

variable {a t u : Ty} {s : Subst} {n id : Nat}

theorem pinWithin_free (h : IsFree s id) :
    pinWithin (n + 1) a (.var id) s = .fits (s.insert id a) := by
  rw [pinWithin]
  cases hget : s.get? id with
  | none => rfl
  | some bound => exact if_pos (h bound hget)

theorem pinWithin_bound {bound} (h : s.get? id = some bound) (hb : bound.isVar = false) :
    pinWithin (n + 1) a (.var id) s = pinWithin n a bound s := by
  rw [pinWithin, h]
  exact if_neg (by rw [hb]; exact Bool.false_ne_true)

/-- A plain argument is compared with whatever the parameter leads to. -/
theorem pinWithin_leads (ha : IsPlain a) (h : Leads s t u) :
    pinWithin (n + 1) a t s = pinWithin n a u s := by
  cases h with
  | binding hget hb => exact pinWithin_bound hget hb
  | option inner => cases a <;> first | rfl | exact ha.elim

theorem pinWithin_circular (ha : IsPlain a) : ∀ (n : Nat) (t : Ty), Circular s t →
    (pinWithin n a t s).IsEndless
  | 0, _, _ => trivial
  | n + 1, t, h => by
    obtain ⟨u, hu, hc⟩ := h.step
    rw [pinWithin_leads ha hu]
    exact pinWithin_circular ha n u hc

theorem limit_of_leads (ha : IsPlain a) (h : ReflTransGen (Leads s) t u)
    (hu : Limit IsEndless (fun n => pinWithin n a u s) r) :
    Limit IsEndless (fun n => pinWithin n a t s) r := by
  induction h using ReflTransGen.head_induction_on with
  | refl => exact hu
  | head hab _ ih =>
    refine .delay trivial ?_
    simp only [pinWithin_leads ha hab]
    exact ih

theorem limit_free (h : IsFree s id) :
    Limit IsEndless (fun n => pinWithin n a (.var id) s) (.fits (s.insert id a)) := by
  refine .delay trivial ?_
  simp only [pinWithin_free h]
  exact .const

end Steps

/-! ## Following the bindings first

Both ways of comparing come to the same once the parameter's bindings are followed: for a plain
argument through options, and for any other by at most one look-up. -/

theorem limit_against (a e : Ty) (s : Subst) (ha : IsPlain a) {compare}
    (h : ∀ u : Ty, u.isVar = false → u.isMaybe = false →
      Limit IsEndless (fun n => pinWithin n a u s) (compare u)) :
    Limit IsEndless (fun n => pinWithin n a e s) (s.against a e true compare) := by
  unfold Subst.against
  have hends := (exposes_expose s true s.size e).ends
  cases hx : s.expose true s.size e with
  | endless => exact .never (fun n => pinWithin_circular ha n e (circular_of_expose hx)) trivial
  | free id =>
    rw [hx] at hends
    cases hends Exposed.noConfusion with
    | free hr hf => exact limit_of_leads ha hr (limit_free hf)
  | shape u =>
    rw [hx] at hends
    cases hends Exposed.noConfusion with
    | shape hr hv hm => exact limit_of_leads ha hr (h u hv hm)

theorem limit_against_direct (a e : Ty) (s : Subst) {compare}
    (h : ∀ u : Ty, u.isVar = false → Limit IsEndless (fun n => pinWithin n a u s) (compare u)) :
    Limit IsEndless (fun n => pinWithin n a e s) (s.against a e false compare) := by
  unfold Subst.against
  rcases seen_cases s false e with ⟨id, he, hf⟩ | he | ⟨id, bound, he, hget, hb⟩
  · rw [(Exposes.free he hf).eq, show e = .var id from he]
    exact limit_free hf
  · rw [(Exposes.shape he).eq]
    exact h e he
  · obtain ⟨n, hn⟩ := Nat.exists_eq_succ_of_ne_zero (size_ne_zero hget)
    rw [hn, (Exposes.further he hget hb (.shape hb)).eq, show e = .var id from he]
    refine .delay trivial ?_
    simp only [pinWithin_bound hget hb]
    exact h bound hb

/-! ## The two ways agree -/

/-- A comparison that is decided at once. -/
theorem limit_of_succ {a u s} (h : ∀ n, pinWithin (n + 1) a u s = r) :
    Limit IsEndless (fun n => pinWithin n a u s) r :=
  .delay trivial (by simp only [h]; exact .const)

theorem limit_fitField {f : Nat → Ty → Comparison} {fields : List (String × Ty)}
    (h : ∀ p ∈ fields, ∀ e s, Limit IsEndless (fun n => f n p.2 e s) (p.2.fit e s))
    (expected : String × Ty) (s : Subst) :
    Limit IsEndless (fun n => fitField (f n) fields expected s)
      (fitField fit fields expected s) := by
  unfold fitField
  cases hl : fields.lookup expected.1 with
  | none => exact .const
  | some type =>
    obtain ⟨before, after, hb, -⟩ := List.lookup_eq_some_iff.mp hl
    exact h (expected.1, type) (by rw [hb]; simp) expected.2 s

/-- **`Ty.fit` is what recursion on the parameter comes to.** -/
theorem limit_pinWithin (a e : Ty) (s : Subst) :
    Limit IsEndless (fun n => pinWithin n a e s) (a.fit e s) := by
  induction a using Ty.induct generalizing e s with
  | var id =>
    rw [fit]
    refine limit_against_direct _ e s fun u hu => limit_of_succ fun n => ?_
    cases u <;> first | rfl | exact Bool.noConfusion hu
  | nil =>
    rw [fit]
    refine limit_against_direct _ e s fun u hu => limit_of_succ fun n => ?_
    cases u <;> first | rfl | exact Bool.noConfusion hu
  | maybe inner ih =>
    rw [fit]
    refine limit_against_direct _ e s fun u hu => ?_
    cases u with
    | maybe type => exact .delay trivial (ih type s)
    | var _ => exact Bool.noConfusion hu
    | _ => exact limit_of_succ fun n => rfl
  | number | text | boolean =>
    rw [fit]
    refine limit_against _ e s (by trivial) fun u hu hm => limit_of_succ fun n => ?_
    cases u <;> first | rfl | exact Bool.noConfusion hu | exact Bool.noConfusion hm
  | list element ih =>
    rw [fit]
    refine limit_against (.list element) e s trivial fun u hu hm => ?_
    cases u with
    | list type => exact .delay trivial (ih type s)
    | var _ => exact Bool.noConfusion hu
    | maybe _ => exact Bool.noConfusion hm
    | _ => exact limit_of_succ fun n => rfl
  | record fields ih =>
    rw [fit]
    refine limit_against (.record fields) e s trivial fun u hu hm => ?_
    cases u with
    | record types =>
      refine .delay trivial ?_
      simp only [pinWithin, isVar, Bool.false_eq_true, if_false]
      split
      · rw [fitFields_eq]
        exact limit_fitEach types (fun expected _ s => limit_fitField ih expected s) s
      · exact .const
    | var _ => exact Bool.noConfusion hu
    | maybe _ => exact Bool.noConfusion hm
    | _ => exact limit_of_succ fun n => rfl
  | custom name arguments ih =>
    rw [fit]
    refine limit_against (.custom name arguments) e s trivial fun u hu hm => ?_
    cases u with
    | custom other types =>
      refine .delay trivial ?_
      simp only [pinWithin, isVar, Bool.false_eq_true, if_false, Bool.beq_comm]
      split
      · rw [fitAll_eq]
        exact limit_fitEach _ (fun p hp s => ih p.1 (List.of_mem_zip hp).1 p.2 s) s
      · exact .const
    | var _ => exact Bool.noConfusion hu
    | maybe _ => exact Bool.noConfusion hm
    | _ => exact limit_of_succ fun n => rfl
  | link input output terminal ihi iho =>
    rw [fit]
    refine limit_against (.link input output terminal) e s trivial fun u hu hm => ?_
    cases u with
    | link input' output' terminal' =>
      refine .delay trivial ?_
      simp only [pinWithin, isVar, Bool.false_eq_true, if_false, Bool.beq_comm]
      split
      · exact limit_andThen (ihi input' s) (iho output')
      · exact .const
    | var _ => exact Bool.noConfusion hu
    | maybe _ => exact Bool.noConfusion hm
    | _ => exact limit_of_succ fun n => rfl

end Ty

end Offside
