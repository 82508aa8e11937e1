import Mathlib.Data.List.Basic
import Offside.Proofs.Walk
import Offside.Scope.Tree

/-!
# Proofs/Isolation — what a change to one scope can change for the others

Scopes are changed one at a time, while names are looked up through all the scopes around.  In every
tree that changes have built (`Built`) the scope around another one is older (`Ordered`), so the way
outwards ends (`path_eq`), and a name is looked up along it (`lookup?_eq`).

From this follows what a binding can be seen from: the scope that it is made in and those inside it,
up to the next one that declares the same name (`Sees`).  `changes_are_isolated` is the result.  A
checker keeps the scopes seen from where it stands (`checkerIn`), and changes them as the tree does.
-/

namespace Offside.Scope.Tree

open List

variable {tree : Tree} {s t : Nat} {name : String}

/-! ## Trees that changes have built -/

/-- A change to one scope of a tree. -/
inductive Change where
  | child (kind : Kind)
  | declare (name : String) (binding : Binding)
  | define (name : String) (binding : Binding)
  | setAnswer (type : Ty)

/-- The tree once a scope has been changed. -/
def change (tree : Tree) (s : Nat) : Change → Tree
  | .child kind => (tree.child s kind).1
  | .declare name binding => (tree.declare s name binding).1
  | .define name binding => tree.define s name binding
  | .setAnswer type => tree.setAnswer s type

/-- A scope of this number has been made. -/
def Has (tree : Tree) (s : Nat) : Prop := s < tree.nodes.length

instance : Decidable (tree.Has s) := inferInstanceAs (Decidable (s < _))

/-- **A tree that changes to its scopes have built.** -/
inductive Built : Tree → Prop
  | root : Built root
  | change {tree : Tree} {s : Nat} (h : Built tree) (hs : tree.Has s) (c : Change) :
      Built (tree.change s c)

/-- The scope around another one is older. -/
def Ordered (tree : Tree) : Prop := ∀ t outer, tree.parent? t = some outer → outer < t

variable (f : Scope → Scope)

@[simp] theorem scope?_update :
    (tree.update s f).scope? t = if s = t then (tree.scope? t).map f else tree.scope? t := by
  rw [scope?, scope?, update, getElem?_modify]
  split <;> cases tree.nodes[t]? <;> rfl

@[simp] theorem parent?_update : (tree.update s f).parent? t = tree.parent? t := by
  rw [parent?, parent?, update, getElem?_modify]
  split <;> cases tree.nodes[t]? <;> rfl

variable (kind : Kind)

theorem has_child : (tree.child s kind).1.Has t ↔ t ≤ tree.nodes.length := by
  rw [Has, child, length_append]
  exact Nat.lt_succ_iff

theorem nodes_child (ht : tree.Has t) :
    (tree.child s kind).1.nodes[t]? = tree.nodes[t]? := getElem?_append_left ht

@[simp] theorem child_number : (tree.child s kind).2 = tree.nodes.length := rfl

@[simp] theorem nodes_new :
    (tree.child s kind).1.nodes[tree.nodes.length]? = some (.empty kind, some s) :=
  getElem?_concat_length

theorem Ordered.update (h : tree.Ordered) : (tree.update s f).Ordered := by
  intro t outer ht
  rw [parent?_update] at ht
  exact h t outer ht

theorem Ordered.child (h : tree.Ordered) (hs : tree.Has s) : (tree.child s kind).1.Ordered := by
  intro t outer ht
  by_cases hold : tree.Has t
  · rw [parent?, nodes_child kind hold] at ht
    exact h t outer ht
  · obtain ⟨node, hnode, -⟩ := Option.bind_eq_some_iff.mp ht
    have hle := (has_child kind).mp (List.getElem?_eq_some_iff.mp hnode).1
    have hnew : t = tree.nodes.length := Nat.le_antisymm hle (Nat.not_lt.mp hold)
    subst hnew
    rw [parent?, nodes_new] at ht
    cases ht
    exact hs

/-- **A change keeps the scopes in order.** -/
theorem Ordered.change (h : tree.Ordered) (hs : tree.Has s) (c : Change) :
    (tree.change s c).Ordered := by
  cases c with
  | child kind => exact h.child kind hs
  | declare name binding =>
    rw [Tree.change, declare]
    split
    · exact h
    · exact h.update _
  | define name binding | setAnswer type => exact h.update _

theorem Built.ordered (h : Built tree) : tree.Ordered := by
  induction h with
  | root =>
    intro t outer ht
    cases t <;> cases ht
  | change _ hs c ih => exact ih.change hs c

/-! ## The way outwards -/

theorem scope?_eq (ht : tree.Has t) : tree.scope? t = some tree.nodes[t].1 := by
  rw [scope?, getElem?_eq_getElem ht, Option.map_some]

/-- The way outwards ends before the bound on it is met. -/
theorem pathTo_eq (h : tree.Ordered) : ∀ {n m t}, t < n → t < m → tree.pathTo n t = tree.pathTo m t
  | n + 1, m + 1, t, hn, hm => by
    rw [pathTo, pathTo]
    cases ht : tree.parent? t with
    | none => rfl
    | some outer =>
      have houter := h t outer ht
      exact congrArg (t :: ·) (pathTo_eq h (by omega) (by omega))

theorem path_eq (h : tree.Ordered) (ht : tree.Has t) :
    tree.path t = t :: (tree.parent? t).elim [] tree.path := by
  rw [path, pathTo_eq h ht t.lt_succ_self, pathTo]
  cases hparent : tree.parent? t with
  | none => rfl
  | some outer =>
    have houter := h t outer hparent
    exact congrArg (t :: ·) (pathTo_eq h houter (Nat.lt_trans houter ht))

/-- What a scope holds does not change the way outwards. -/
@[simp] theorem path_update : (tree.update s f).path t = tree.path t := by
  have hpath (n t : Nat) : (tree.update s f).pathTo n t = tree.pathTo n t := by
    induction n generalizing t with
    | zero => rfl
    | succ n ih => simp only [pathTo, parent?_update, funext ih]
  unfold path
  rw [hpath, update, length_modify]

/-- The scopes seen from a scope are this one and those seen from the scope around it. -/
theorem scopes_eq (h : tree.Ordered) (ht : tree.Has t) :
    tree.scopes t = tree.nodes[t].1 :: (tree.parent? t).elim [] tree.scopes := by
  unfold scopes
  rw [path_eq h ht, filterMap_cons, scope?_eq ht]
  cases tree.parent? t <;> rfl

/-- A new scope is seen from none of the others. -/
theorem scopes_child (h : tree.Ordered) (hs : tree.Has s) (ht : tree.Has t) :
    (tree.child s kind).1.scopes t = tree.scopes t := by
  induction t using Nat.strongRecOn with
  | ind t ih =>
    have ht' : (tree.child s kind).1.Has t := (has_child kind).mpr (Nat.le_of_lt ht)
    have hnode := nodes_child (s := s) kind ht
    rw [getElem?_eq_getElem ht, getElem?_eq_getElem ht', Option.some_inj] at hnode
    rw [scopes_eq h ht, scopes_eq (h.child kind hs) ht', hnode, parent?, nodes_child kind ht,
      ← parent?]
    cases hout : tree.parent? t with
    | none => rfl
    | some outer =>
      have houter := h t outer hout
      exact congrArg _ (ih outer houter (Nat.lt_trans houter ht))

/-- From a new scope are seen this one and those seen from the scope around it. -/
theorem scopes_new (h : tree.Ordered) (hs : tree.Has s) :
    (tree.child s kind).1.scopes (tree.child s kind).2 = .empty kind :: tree.scopes s := by
  have hnew : (tree.child s kind).1.Has tree.nodes.length := (has_child kind).mpr (Nat.le_refl _)
  have hnode : (tree.child s kind).1.nodes[tree.nodes.length] = (.empty kind, some s) := by
    rw [← Option.some_inj, ← getElem?_eq_getElem hnew, nodes_new]
  rw [child_number, scopes_eq (h.child kind hs) hnew, hnode, parent?, nodes_new]
  exact congrArg _ (scopes_child kind h hs hs)

/-! ## Looking names up -/

/-- A name is looked up in one scope after another, on the way outwards. -/
theorem lookup?_eq : tree.lookup? t name =
    (tree.path t).findSome? fun u => (tree.scope? u).bind (·.get? name) := by
  rw [lookup?, Offside.lookup?, scopes, ← head?_filterMap, filterMap_filterMap, head?_filterMap]

/-- **The binding of a name in one scope is what another scope would see of it**: the one is around
the other, and no scope on the way to it, itself excluded, declares the name. -/
structure Sees (tree : Tree) (name : String) (s t : Nat) : Prop where
  inside : s ∈ tree.path t
  clear : ∀ u ∈ (tree.path t).takeWhile (· != s), tree.declares u name = false

instance : Decidable (tree.Sees name s t) :=
  decidable_of_iff (s ∈ tree.path t ∧
    ∀ u ∈ (tree.path t).takeWhile (· != s), tree.declares u name = false)
    ⟨fun h => ⟨h.1, h.2⟩, fun h => ⟨h.inside, h.clear⟩⟩

theorem sees_iff : tree.Sees name s t ↔ s ∈ tree.path t ∧
    ∀ u ∈ (tree.path t).takeWhile (· != s), (tree.scope? u).bind (·.get? name) = none := by
  have hdeclares (u : Nat) :
      tree.declares u name = false ↔ (tree.scope? u).bind (·.get? name) = none := by
    rw [declares]
    cases tree.scope? u with
    | none => simp
    | some scope => exact Option.isSome_eq_false_iff.trans Option.isNone_iff_eq_none
  simp only [← hdeclares]
  exact ⟨fun h => ⟨h.inside, h.clear⟩, fun h => ⟨h.1, h.2⟩⟩

/-! ## What a change changes -/

/-- On a way, something new in one place is found unless something is found before. -/
theorem findSome?_new {binding : Binding} {found : Nat → Option Binding} (way : List Nat) :
    (way.findSome? fun u => if s = u then some binding else found u) =
      if s ∈ way ∧ ∀ u ∈ way.takeWhile (· != s), found u = none then some binding
      else way.findSome? found := by
  induction way with
  | nil => simp
  | cons u way ih =>
    by_cases hu : s = u
    · simp [hu]
    · cases hfound : found u <;> simp [hu, Ne.symm hu, hfound, ih]

/-- **One tree comes from another by binding a name in a scope**, as far as looking names up and the
answers recorded can tell. -/
def Binds (tree after : Tree) (s : Nat) (name : String) (binding : Binding) : Prop :=
  ∀ t, tree.Has t → (∀ other, after.lookup? t other =
      if other = name ∧ tree.Sees name s t then some binding else tree.lookup? t other) ∧
    after.answer? t = tree.answer? t

/-- A new binding is seen from where its scope is seen from; the others see what they saw. -/
theorem binds_define (hs : tree.Has s) (name : String) (binding : Binding) :
    tree.Binds (tree.define s name binding) s name binding := by
  refine fun t _ => ⟨fun other => ?_, ?_⟩
  · rw [lookup?_eq, lookup?_eq, define, path_update]
    by_cases hother : other = name
    · have hfound (u : Nat) :
        ((tree.update s (·.define name binding)).scope? u).bind (·.get? name) =
          if s = u then some binding else (tree.scope? u).bind (·.get? name) := by
        rw [scope?_update]
        split
        · next hu => simp [← hu, scope?_eq hs]
        · rfl
      simp only [hother, true_and, sees_iff, hfound, findSome?_new]
    · have hkept (u : Nat) :
        ((tree.update s (·.define name binding)).scope? u).bind (·.get? other) =
          (tree.scope? u).bind (·.get? other) := by
        rw [scope?_update]
        split <;> cases tree.scope? u <;> simp [hother]
      simp only [hother, false_and, if_false, hkept]
  · rw [answer?, define, scope?_update]
    split
    · cases hscope : tree.scope? t <;> simp [answer?, hscope, Scope.define]
    · rfl

theorem declare_eq_false_iff (name : String) (binding : Binding) :
    (tree.declare s name binding).2 = false ↔ tree.declares s name = true := by
  unfold declare
  split <;> simp [*]

theorem lookup?_setAnswer (type : Ty) (name : String) :
    (tree.setAnswer s type).lookup? t name = tree.lookup? t name := by
  have hkept (u : Nat) : ((tree.update s (·.setAnswer type)).scope? u).bind (·.get? name) =
      (tree.scope? u).bind (·.get? name) := by
    rw [scope?_update]
    split <;> cases tree.scope? u <;> rfl
  simp only [lookup?_eq, setAnswer, path_update, hkept]

theorem answer?_setAnswer (type : Ty) (ht : tree.Has t) :
    (tree.setAnswer s type).answer? t = if t = s then some type else tree.answer? t := by
  rw [answer?, setAnswer, scope?_update]
  by_cases hst : s = t
  · rw [if_pos hst, if_pos hst.symm, scope?_eq ht]
    rfl
  · rw [if_neg hst, if_neg (Ne.symm hst), answer?]

/-- **A change to one scope is seen only where it must be.**  Binding a name in a scope changes what
is looked up under that name from that scope and from the scopes inside it that see its binding, to
the binding given, and nothing else.  Declaring a name fails exactly when the scope itself declares
it, and then leaves the tree as it was.  Recording the type of the answers of a scope changes that
type alone.  A new scope changes nothing for the others, and sees what the scope around it sees. -/
theorem changes_are_isolated (h : Built tree) (hs : tree.Has s) :
    (∀ name binding, tree.Binds (tree.define s name binding) s name binding) ∧
    (∀ name binding, ((tree.declare s name binding).2 = false ↔ tree.declares s name = true) ∧
      ((tree.declare s name binding).2 = false → (tree.declare s name binding).1 = tree) ∧
      ((tree.declare s name binding).2 = true →
        tree.Binds (tree.declare s name binding).1 s name binding)) ∧
    (∀ type t, tree.Has t → (∀ name, (tree.setAnswer s type).lookup? t name = tree.lookup? t name) ∧
      (tree.setAnswer s type).answer? t = if t = s then some type else tree.answer? t) ∧
    (∀ kind, (∀ t, tree.Has t →
        (∀ name, (tree.child s kind).1.lookup? t name = tree.lookup? t name) ∧
        (tree.child s kind).1.answer? t = tree.answer? t) ∧
      (∀ name, (tree.child s kind).1.lookup? (tree.child s kind).2 name = tree.lookup? s name) ∧
      (tree.child s kind).1.answer? (tree.child s kind).2 = none) := by
  have hordered := h.ordered
  refine ⟨binds_define hs, fun name binding => ⟨declare_eq_false_iff name binding, ?_, ?_⟩,
    fun type t ht => ⟨lookup?_setAnswer type, answer?_setAnswer type ht⟩,
    fun kind => ⟨fun t ht => ⟨fun name => ?_, ?_⟩, fun name => ?_, ?_⟩⟩
  · intro hfailed
    rw [declare, if_pos ((declare_eq_false_iff name binding).mp hfailed)]
  · intro hdone
    have hnew : ¬ tree.declares s name = true := by
      rw [← declare_eq_false_iff name binding, hdone]
      exact Bool.noConfusion
    rw [declare, if_neg hnew]
    exact binds_define hs name binding
  · rw [lookup?, scopes_child kind hordered hs ht, lookup?]
  · rw [answer?, scope?, nodes_child kind ht, answer?, scope?]
  · rw [lookup?, scopes_new kind hordered hs]
    rfl
  · rw [child_number, answer?, scope?, nodes_new]
    rfl

/-- A number bound to a name in the outermost scope, a text in a block inside it, and in this block
a function and beside it an empty block. -/
def shadowed : Tree :=
  let block := (root.child 0 .block).1
  let function := (block.child 1 .function).1
  let beside := (function.child 0 .block).1
  (beside.define 0 "x" ⟨false, .number⟩).define 1 "x" ⟨false, .text⟩

theorem changes_are_isolated_shadowed : Built shadowed ∧ shadowed.Has 0 ∧
    (shadowed.define 0 "x" ⟨true, .boolean⟩).lookup? 3 "x" = some ⟨true, .boolean⟩ ∧
    (shadowed.define 0 "x" ⟨true, .boolean⟩).lookup? 2 "x" = some ⟨false, .text⟩ := by
  have hroot : root.Has 0 := by decide
  have hblock := Built.change .root hroot (.child .block)
  have hfunction := Built.change hblock (s := 1) (by decide) (.child .function)
  have hbeside := Built.change hfunction (s := 0) (by decide) (.child .block)
  have hnumber := Built.change hbeside (s := 0) (by decide) (.define "x" ⟨false, .number⟩)
  have hbuilt : Built shadowed := .change hnumber (s := 1) (by decide) (.define "x" ⟨false, .text⟩)
  have hbinds := (changes_are_isolated hbuilt (s := 0) (by decide)).1 "x" ⟨true, .boolean⟩
  refine ⟨hbuilt, by decide, ?_, ?_⟩
  · exact ((hbinds 3 (by decide)).1 "x").trans (if_pos ⟨rfl, by decide⟩)
  · exact ((hbinds 2 (by decide)).1 "x").trans ((if_neg fun h => absurd h.2 (by decide)).trans rfl)

/-! ## The scopes that a checker has open

A checker keeps the scopes that are open, which are those seen from one scope of the tree.  What it
does to them is what the tree does to that scope. -/

/-- **A checker that stands in a scope of a tree**: this scope and those around it are open. -/
def checkerIn (tree : Tree) (s : Nat) (c : Check.State) : Check.State :=
  { c with scopes := tree.scopes s }

variable {c : Check.State} {α : Type}

@[simp] theorem lookup?_checkerIn :
    Offside.lookup? (tree.checkerIn s c).scopes name = tree.lookup? s name := rfl

/-- The innermost function scope that is open is that of the innermost function. -/
@[simp] theorem function?_checkerIn : Check.function? (tree.checkerIn s c) =
    .ok ((tree.function? s).bind tree.scope?) (tree.checkerIn s c) := by
  rw [Check.function?, checkerIn, scopes, find?_filterMap]
  rfl

section

variable (h : tree.Ordered) (hs : tree.Has s)
include h hs

/-- A walk inside a scope starts in a new scope of the tree. -/
theorem inScope_checkerIn (walk : Check α) : Check.inScope kind walk (tree.checkerIn s c) =
    Check.leave (walk ((tree.child s kind).1.checkerIn (tree.child s kind).2 c)) := by
  rw [Check.inScope_eq, checkerIn, checkerIn, scopes_new kind h hs]

/-- Once a scope is left, the checker stands in the scope around it. -/
theorem leave_checkerIn {outer} (hparent : tree.parent? s = some outer) (a : α) :
    Check.leave (.ok a (tree.checkerIn s c)) = .ok a (tree.checkerIn outer c) := by
  rw [Check.leave, checkerIn, scopes_eq h hs, hparent]
  rfl

/-- The way outwards leads to older and older scopes. -/
theorem pairwise_path : (tree.path s).Pairwise (· > ·) := by
  induction s using Nat.strongRecOn with
  | ind s ih =>
    rw [path_eq h hs]
    cases hparent : tree.parent? s with
    | none => simp
    | some outer =>
      have houter := h s outer hparent
      have hhas : tree.Has outer := Nat.lt_trans houter hs
      have hpath := ih outer houter hhas
      refine .cons (fun u hu => ?_) hpath
      simp only [Option.elim, path_eq h hhas] at hu hpath
      rcases mem_cons.mp hu with rfl | hu
      · exact houter
      · exact Nat.lt_trans (rel_of_pairwise_cons hpath hu) houter

/-- A change to a scope is a change to the first of the scopes seen from it. -/
theorem scopes_update : (tree.update s f).scopes s = (tree.scopes s).modifyHead f := by
  have hpath := pairwise_path h hs
  unfold scopes
  rw [path_update]
  rw [path_eq h hs] at hpath ⊢
  rw [filterMap_cons, filterMap_cons, scope?_update, if_pos rfl, scope?_eq hs]
  refine congrArg (f _ :: ·) (filterMap_congr fun u hu => ?_)
  rw [scope?_update, if_neg (Nat.ne_of_gt (rel_of_pairwise_cons hpath hu))]

/-- Binding a name in the innermost scope is binding it in the scope that the checker stands in. -/
theorem define_checkerIn (name : String) (binding : Binding) :
    Check.define name binding (tree.checkerIn s c) =
      .ok () ((tree.define s name binding).checkerIn s c) := by
  unfold Check.define checkerIn define
  rw [scopes_update _ h hs]

theorem innermost_checkerIn :
    Check.innermost (tree.checkerIn s c) = .ok tree.nodes[s].1 (tree.checkerIn s c) := by
  rw [Check.innermost, checkerIn, scopes_eq h hs]
  rfl

/-- A name is declared unless the scope that the checker stands in declares it. -/
theorem declare_checkerIn (name : Token) (binding : Binding) :
    Check.declare name binding (tree.checkerIn s c) = if tree.declares s name.lexeme then
        .error (.refused ⟨name, .duplicateDeclaration name.lexeme⟩) (tree.checkerIn s c)
      else .ok () ((tree.declare s name.lexeme binding).1.checkerIn s c) := by
  rw [declare, declares, scope?_eq hs, Option.any_some]
  have hinnermost := innermost_checkerIn (c := c) h hs
  by_cases hdeclared : tree.nodes[s].1.declares name.lexeme = true
  · rw [if_pos hdeclared]
    refine Check.bind_error ((Check.bind_ok hinnermost).trans ?_)
    rw [if_pos hdeclared]
    rfl
  · rw [if_neg hdeclared, if_neg hdeclared, ← define_checkerIn h hs]
    refine Check.bind_ok (a := ()) ((Check.bind_ok hinnermost).trans ?_)
    rw [if_neg hdeclared]
    rfl

omit h hs in
/-- The type of answers is recorded in the first function on a way. -/
theorem setAnswerIn_filterMap (type : Ty) (scope : Nat → Option Scope) {p : Nat → Bool}
    (hp : ∀ u, p u = (scope u).any (·.kind = .function)) {way : List Nat}
    (hway : way.Pairwise (· > ·)) : Check.setAnswerIn type (way.filterMap scope) = way.filterMap
      fun u => if way.find? p = some u then (scope u).map (·.setAnswer type) else scope u := by
  induction way with
  | nil => rfl
  | cons u way ih =>
    obtain ⟨hfirst, hway⟩ := pairwise_cons.mp hway
    by_cases hkind : p u = true
    · have hrest : way.filterMap scope = way.filterMap fun v => if some u = some v then
          (scope v).map (·.setAnswer type) else scope v :=
        filterMap_congr fun v hv => (if_neg (by simpa using Nat.ne_of_gt (hfirst v hv))).symm
      rw [find?_cons_of_pos hkind, filterMap_cons, filterMap_cons, if_pos rfl, ← hrest]
      rw [hp] at hkind
      cases hscope : scope u with
      | none => simp [hscope] at hkind
      | some found => exact if_pos (by simpa [hscope] using hkind)
    · have hne : way.find? p ≠ some u := fun hfound => hkind (find?_some hfound)
      rw [find?_cons_of_neg hkind, filterMap_cons, filterMap_cons, if_neg hne]
      rw [hp] at hkind
      cases hscope : scope u with
      | none => exact ih hway
      | some found =>
        rw [← ih hway]
        exact if_neg (by simpa [hscope] using hkind)

/-- The type of answers is recorded in the scope of the innermost function, if there is one. -/
theorem setAnswer_checkerIn (type : Ty) : Check.setAnswer type (tree.checkerIn s c) =
    .ok () (((tree.function? s).elim tree (tree.setAnswer · type)).checkerIn s c) := by
  have hanswers := setAnswerIn_filterMap type tree.scope? (fun _ => rfl) (pairwise_path h hs)
  unfold Check.setAnswer checkerIn scopes
  rw [hanswers, ← function?]
  cases tree.function? s with
  | none => simp
  | some u => simp [setAnswer, ← scope?_update]

end

end Offside.Scope.Tree
