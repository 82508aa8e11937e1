import Offside.Proofs.Locality

/-!
# Proofs/Trailing — where an expression goes on

An expression is read as far as it goes.  Read by itself, it ends with its tokens; in front of
others it ends there too, unless the first of those can go on with it.  Then it becomes another: it
is larger, whatever it becomes (`Tails`).  What can go on with an expression is an operator between
two operands, a question mark or the beginning of a call or of a member access, and that is all
(`local_nested`).
-/

namespace Offside

open List Token

namespace Parser

open Cursor (Flat)

variable {α γ : Type} {v : List Sight} {k : Nat} {s : State} {K inner outer : List Kind}

/-- Run in a state like the first, a parser gives the same as it has given there, up to places,
unless it has come to the end of the tokens and what follows is of a kind in `K`: then it gives
something larger, or nothing. -/
structure Tails [SizeOf γ] (b : Bool) (v : List Sight) (k : Nat) (K : List Kind)
    (view : α → γ) (p p' : Parser α) (s s' : State) : Prop where
  same : Mirrors b true v k (fun t => Inside t ∨ next v ∉ K) view p p' s s'
  grows : Alike b v k s s' → ∀ a t, p s = .ok a t → t.cursor.rest = [] → next v ∈ K →
    ∀ a' t', p' s' = .ok a' t' → sizeOf (view a) < sizeOf (view a')

namespace Tails

variable {δ β ε : Type} [SizeOf γ] [SizeOf δ] {view : α → γ} {view' : β → δ} {p p' q q' : Parser α}
  {b b₁ : Bool} {s' : State} {viewed : β → ε} {f' f : β → Parser α}

/-- Where tokens are left nothing goes on. -/
theorem inside (h : Tails b v k K view p p' s s') : Mirrors b true v k Inside view p p' s s' :=
  h.same.weaken fun _ => .inl

theorem loosen (h : Tails false v k K view p p' s s') : Tails b v k K view p p' s s' :=
  ⟨h.same.loosen, fun hs => h.grows hs.loosen⟩

theorem never (h : s.cursor.Flat → ∀ a t, p s ≠ .ok a t) : Tails b v k K view p p' s s' :=
  ⟨⟨fun hs a t hok => absurd hok (h hs a t), fun hs a t hok => absurd hok (h hs.left a t)⟩,
    fun hs a t hok => absurd hok (h hs.left a t)⟩

theorem pure {a a'} (h : view a' = view a) (hs : Inside s) :
    Tails true v k K view (Pure.pure a) (Pure.pure a') s s' := by
  refine ⟨.pure h, fun _ c t hok hrest => ?_⟩
  cases hok
  exact absurd hrest hs

/-- What is read in the same way wherever it ends does not go on. -/
theorem exact (h : Mirrors b true v k Anywhere view p p' s s') : Tails b v k [] view p p' s s' :=
  ⟨h.weaken fun _ _ => trivial, fun _ _ _ _ _ hnext => absurd hnext not_mem_nil⟩

theorem bind {H p p'} (hp : Mirrors b b₁ v k H viewed p p' s s')
    (hf : ∀ a a' t t', viewed a' = viewed a → Tails b₁ v k K view (f a) (f' a') t t')
    (hmid : ∀ a t c u, t.cursor.Flat → f a t = .ok c u → H t) :
    Tails b v k K view (p >>= f) (p' >>= f') s s' := by
  refine ⟨.bind hp (fun a a' t t' ha => (hf a a' t t' ha).same)
    fun a t c u ht hok _ => hmid a t c u ht hok, fun hs c u hok hrest hnext c' u' hok' => ?_⟩
  obtain ⟨a, t, hpok, hfok⟩ := exists_of_bind_eq_ok hok
  obtain ⟨a', t', hpok', hfok'⟩ := exists_of_bind_eq_ok hok'
  rcases hp.alike hs a t hpok (hmid a t c u (hp.flat hs.left a t hpok) hfok) with
    ⟨w, hw⟩ | ⟨a₁, t₁, hok₁, ha, hlike⟩
  · rw [hpok'] at hw
    cases hw
  · cases (hpok'.symm.trans hok₁)
    exact (hf a a' t t' ha).grows hlike c u hfok hrest hnext c' u' hfok'

/-- The same where nothing is asked of the place between the two. -/
theorem andThen {p p'} (hp : Mirrors b b₁ v k Anywhere viewed p p' s s')
    (hf : ∀ a a' t t', viewed a' = viewed a → Tails b₁ v k K view (f a) (f' a') t t') :
    Tails b v k K view (p >>= f) (p' >>= f') s s' := .bind hp hf fun _ _ _ _ _ _ => trivial

/-- The same where the second needs a token. -/
theorem before {p p'} (hp : Mirrors b b₁ v k Inside viewed p p' s s')
    (hf : ∀ a a' t t', viewed a' = viewed a → Tails b₁ v k K view (f a) (f' a') t t')
    (hneeds : ∀ a, Needs (f a)) : Tails b v k K view (p >>= f) (p' >>= f') s s' :=
  .bind hp hf fun a t c u ht hok => hneeds a t ht c u hok

/-- What is made of something larger is larger. -/
theorem map {g g' : α → β} (hp : Tails b v k K view p p' s s')
    (hg : ∀ a a', view a' = view a → view' (g' a') = view' (g a))
    (hsize : ∀ a a', sizeOf (view a) < sizeOf (view a') →
      sizeOf (view' (g a)) < sizeOf (view' (g' a'))) :
    Tails b v k K view' (p >>= fun a => Pure.pure (g a))
      (p' >>= fun a => Pure.pure (g' a)) s s' := by
  refine ⟨.map hp.same hg, fun hs c u hok hrest hnext c' u' hok' => ?_⟩
  obtain ⟨a, t, hpok, hmade⟩ := exists_of_bind_eq_ok hok
  obtain ⟨a', t', hpok', hmade'⟩ := exists_of_bind_eq_ok hok'
  obtain ⟨rfl, rfl⟩ := EStateM.Result.ok.inj hmade
  obtain ⟨rfl, rfl⟩ := EStateM.Result.ok.inj hmade'
  exact hsize a a' (hp.grows hs a t hpok hrest hnext a' t' hpok')

theorem kind {g g'} (hin : Inside s)
    (h : Tails b v k K view (g s.cursor.kind) (g' s.cursor.kind) s s') :
    Tails b v k K view (Parser.kind >>= g) (Parser.kind >>= g') s s' := by
  refine ⟨.kind (fun _ _ _ _ _ => hin) h.same, fun hs a t hok hrest hnext a' t' hok' => ?_⟩
  have hkind : (Parser.kind >>= g') s' = g' s.cursor.kind s' := congrArg (g' · s') (hs.kind hin)
  exact h.grows hs a t hok hrest hnext a' t' (hkind ▸ hok')

theorem at? {kind} (hk : kind ≠ .eof) (hne : s.cursor.Flat → ∀ a t, q s = .ok a t → Inside s)
    (hp : s.cursor.kind = kind → Tails b v k K view p p' s s')
    (hq : s.cursor.kind ≠ kind → Tails b v k K view q q' s s') :
    Tails b v k K view (Parser.at? kind >>= fun found => if found = true then p else q)
      (Parser.at? kind >>= fun found => if found = true then p' else q') s s' := by
  refine ⟨.at? hk (fun hs a t hok _ => hne hs a t hok) (fun h => (hp h).same)
    fun h => (hq h).same, fun hs a t hok hrest hnext a' t' hok' => ?_⟩
  by_cases hkind : s.cursor.kind = kind
  · have hin : Inside s := hs.rest_ne_nil (hkind ▸ hk)
    rw [at?_of_kind hkind] at hok
    rw [at?_of_kind ((hs.kind hin).trans hkind)] at hok'
    exact (hp hkind).grows hs a t hok hrest hnext a' t' hok'
  · rw [at?_of_kind_ne hkind] at hok
    have hin : Inside s := hne hs.left a t hok
    rw [at?_of_kind_ne ((hs.kind hin).symm ▸ hkind)] at hok'
    exact (hq hkind).grows hs a t hok hrest hnext a' t' hok'

/-- A parser that may go on, and one behind it that stays where it is at the end of the tokens, and
makes something larger of what is larger than what it was given there. -/
theorem behind {f f'} (hp : Tails b v k inner view p p' s s') (hinner : ∀ kind ∈ inner, kind ∈ K)
    (hf : ∀ a a' t t', p s = .ok a t → view a' = view a → (t.cursor.rest = [] → next v ∉ inner) →
      Tails true v k K view' (f a) (f' a') t t')
    (hlast : ∀ a t c u, p s = .ok a t → t.cursor.Flat → t.cursor.rest = [] → f a t = .ok c u →
      u = t ∧ ∀ a' t' c' u', sizeOf (view a) < sizeOf (view a') → f' a' t' = .ok c' u' →
      sizeOf (view' c) < sizeOf (view' c')) : Tails b v k K view' (p >>= f) (p' >>= f') s s' := by
  have hlater : ∀ a a' t t', p s = .ok a t → view a' = view a → (Inside t ∨ next v ∉ inner) →
      Tails true v k K view' (f a) (f' a') t t' := fun a a' t t' hok ha ht =>
    hf a a' t t' hok ha fun hnil => ht.resolve_left fun hin => hin hnil
  refine ⟨⟨fun hs c u hok => ?_, fun hs c u hok hu => ?_⟩,
    fun hs c u hok hrest hnext c' u' hok' => ?_⟩ <;>
    obtain ⟨a, t, ha, hfok⟩ := exists_of_bind_eq_ok hok
  · have ht := hp.same.flat hs a t ha
    by_cases hnil : t.cursor.rest = []
    · obtain ⟨rfl, -⟩ := hlast a t c u ha ht hnil hfok
      exact ht
    · exact (hlater a a t t ha rfl (.inl hnil)).same.flat ht c u hfok
  · by_cases hfollows : Inside t ∨ next v ∉ inner
    · rcases hp.same.alike hs a t ha hfollows with ⟨w, hw⟩ | ⟨a', t', ha', hsame, hlike⟩
      · exact .inl ⟨w, bind_of_error hw⟩
      · rw [bind_of_ok ha']
        exact (hlater a a' t t' ha hsame hfollows).same.alike hlike c u hfok hu
    · obtain ⟨hnil, hnext⟩ := not_or.mp hfollows
      obtain ⟨rfl, -⟩ := hlast a t c u ha (hp.same.flat hs.left a t ha) (not_not.mp hnil) hfok
      rcases hu with hu | hu
      · exact absurd hu hnil
      · exact absurd (hinner _ (not_not.mp hnext)) hu
  · obtain ⟨a', t', ha', hfok'⟩ := exists_of_bind_eq_ok hok'
    by_cases hfollows : Inside t ∨ next v ∉ inner
    · rcases hp.same.alike hs a t ha hfollows with ⟨w, hw⟩ | ⟨a₁, t₁, ha₁, hsame, hlike⟩
      · rw [ha'] at hw
        cases hw
      · cases (ha'.symm.trans ha₁)
        exact (hlater a a' t t' ha hsame hfollows).grows hlike c u hfok hrest hnext c' u' hfok'
    · obtain ⟨hnil, hmem⟩ := not_or.mp hfollows
      have hlt := hp.grows hs a t ha (not_not.mp hnil) (not_not.mp hmem) a' t' ha'
      have ht := hp.same.flat hs.left a t ha
      exact (hlast a t c u ha ht (not_not.mp hnil) hfok).2 a' t' c' u' hlt hfok'

end Tails

/-! ## Rounds -/

/-- Rounds that make an expression larger where a kind in `outer` comes next, and leave it as it is
anywhere else. -/
structure Enlarges (outer : List Kind) (round : Expr → Parser (Option Expr)) : Prop where
  stops : ∀ a s, s.cursor.kind ∉ outer → round a s = .ok none s
  goes : ∀ a s r t, s.cursor.kind ∈ outer → round a s = .ok r t →
    ∃ c, r = some c ∧ sizeOf a.bare < sizeOf c.bare

namespace Enlarges

variable {round : Expr → Parser (Option Expr)} {a c : Expr} (h : Enlarges outer round) {t : State}
include h

theorem stays (hok : round a s = .ok none t) : t = s := by
  by_cases hkind : s.cursor.kind ∈ outer
  · obtain ⟨_, hc, -⟩ := h.goes a s none t hkind hok
    cases hc
  · rw [h.stops a s hkind] at hok
    exact (EStateM.Result.ok.inj hok).2.symm

theorem lt_of_some (hok : round a s = .ok (some c) t) : sizeOf a.bare < sizeOf c.bare := by
  by_cases hkind : s.cursor.kind ∈ outer
  · obtain ⟨_, hc, hlt⟩ := h.goes a s _ t hkind hok
    cases hc
    exact hlt
  · rw [h.stops a s hkind] at hok
    cases hok

theorem le_iterateUpTo {n} (hok : Parser.iterateUpTo round n a s = .ok c t) :
    sizeOf a.bare ≤ sizeOf c.bare := by
  have hround : ∀ {b s b' t}, sizeOf a.bare ≤ sizeOf b.bare → round b s = .ok (some b') t →
      sizeOf a.bare ≤ sizeOf b'.bare := fun hle hok => hle.trans (h.lt_of_some hok).le
  obtain ⟨_, hle, -⟩ := exists_of_iterateUpTo_eq_ok (P := fun b _ => sizeOf a.bare ≤ sizeOf b.bare)
    hround (Nat.le_refl _) hok
  exact hle

theorem le_iterate (hok : Parser.iterate round a s = .ok c t) : sizeOf a.bare ≤ sizeOf c.bare := by
  obtain ⟨n, hn⟩ := exists_iterate_eq round a s
  exact h.le_iterateUpTo (hn ▸ hok)

end Enlarges

/-- Such rounds on both sides, where `inner` is what can go on with what a round ends with. -/
structure Extends (v : List Sight) (k : Nat) (inner outer : List Kind)
    (round round' : Expr → Parser (Option Expr)) : Prop where
  eof : .eof ∉ outer
  left : Enlarges outer round
  right : Enlarges outer round'
  tails : ∀ a a' s s', a'.bare = a.bare → Inside s →
    Tails true v k inner (Option.map Expr.bare) (round a) (round' a') s s'

namespace Extends

variable {round round' : Expr → Parser (Option Expr)} {a a' : Expr} {s' t : State}

theorem last (h : Extends v k inner outer round round') (hs : s.cursor.Flat)
    (hrest : s.cursor.rest = []) : round a s = .ok none s :=
  h.left.stops a s (by rw [hs.kind_eof hrest]; exact h.eof)

theorem iterateUpTo_last (h : Extends v k inner outer round round') : ∀ (n : Nat) {c : Expr},
    s.cursor.Flat → s.cursor.rest = [] → Parser.iterateUpTo round n a s = .ok c t → c = a ∧ t = s
  | 0, _, _, _, hok => by cases hok
  | n + 1, _, hs, hrest, hok => by
    rw [Parser.iterateUpTo, bind_of_ok (h.last hs hrest)] at hok
    cases hok
    exact ⟨rfl, rfl⟩

theorem iterate_last (h : Extends v k inner outer round round') {c} (hs : s.cursor.Flat)
    (hrest : s.cursor.rest = []) (hok : Parser.iterate round a s = .ok c t) : c = a ∧ t = s := by
  obtain ⟨n, hn⟩ := exists_iterate_eq round a s
  exact h.iterateUpTo_last n hs hrest (hn ▸ hok)

section OneRound

variable (h : Extends v k inner outer round round')
  (hK : ∀ kind, kind ∈ K ↔ kind ∈ inner ∨ kind ∈ outer) (hview : a'.bare = a.bare) (n n' : Nat)

include h hK hview

/-- A round at the end of the tokens. -/
theorem oneRound_last (hrest : s.cursor.rest = []) (hend : next v ∉ inner) :
    Tails true v k K Expr.bare (Parser.iterateUpTo round (n + 1) a)
      (Parser.iterateUpTo round' (n' + 1) a') s s' := by
  refine ⟨⟨fun hs c u hok => ?_, fun hs c u hok hu => ?_⟩, fun hs c u hok _ hnext c' u' hok' => ?_⟩
  · obtain ⟨rfl, rfl⟩ := h.iterateUpTo_last _ hs hrest hok
    exact hs
  · obtain ⟨rfl, rfl⟩ := h.iterateUpTo_last _ hs.left hrest hok
    have houter : s'.cursor.kind ∉ outer := by
      rw [hs.kind_next hrest]
      exact fun hmem => (hu.resolve_left fun hin => hin hrest) ((hK _).mpr (.inr hmem))
    exact .inr ⟨a', s', bind_of_ok (h.right.stops a' s' houter), hview, hs⟩
  · obtain ⟨rfl, rfl⟩ := h.iterateUpTo_last _ hs.left hrest hok
    have houter : s'.cursor.kind ∈ outer := by
      rw [hs.kind_next hrest]
      exact ((hK _).mp hnext).resolve_left hend
    obtain ⟨r, t', hround, hlater⟩ := exists_of_bind_eq_ok hok'
    obtain ⟨d, rfl, hlt⟩ := h.right.goes a' s' r t' houter hround
    have := h.right.le_iterateUpTo hlater
    rw [hview] at hlt
    omega

/-- A round where tokens are left.  What it gives is only followed from there if what follows the
tokens cannot go on with it. -/
theorem oneRound_inside (hin : Inside s)
    (hlater : ∀ c c' t t', c'.bare = c.bare → (t.cursor.rest = [] → next v ∉ inner) →
      Tails true v k K Expr.bare (Parser.iterateUpTo round n c) (Parser.iterateUpTo round' n' c')
        t t') : Tails true v k K Expr.bare (Parser.iterateUpTo round (n + 1) a)
      (Parser.iterateUpTo round' (n' + 1) a') s s' := by
  refine (h.tails a a' s s' hview hin).behind (fun kind hkind => (hK kind).mpr (.inl hkind))
    (fun r r' t t' hr hsame hend => ?_) fun r t c u hr ht hnil hok => ?_
  · cases r with
    | none =>
      obtain rfl : r' = none := Option.map_eq_none_iff.mp hsame
      exact .pure hview (h.left.stays hr ▸ hin)
    | some d =>
      obtain ⟨d', rfl, hd⟩ := Option.map_eq_some_iff.mp hsame
      exact hlater d d' t t' hd hend
  · cases r with
    | none => exact absurd (h.left.stays hr ▸ hnil) hin
    | some d =>
      obtain ⟨rfl, rfl⟩ := h.iterateUpTo_last n ht hnil hok
      refine ⟨rfl, fun r' t' c' u' hlt hok' => ?_⟩
      cases r' with
      | none => simp at hlt
      | some d' =>
        have := h.right.le_iterateUpTo hok'
        simp only [Option.map_some, Option.some.sizeOf_spec] at hlt
        omega

end OneRound

/-- **Rounds in a row go on as the last of them does**, or with another round. -/
theorem iterateUpTo (h : Extends v k inner outer round round')
    (hK : ∀ kind, kind ∈ K ↔ kind ∈ inner ∨ kind ∈ outer) : ∀ (n n' : Nat) {a a' : Expr}
    {s s' : State}, a'.bare = a.bare → (s.cursor.rest = [] → next v ∉ inner) →
      Tails true v k K Expr.bare (Parser.iterateUpTo round n a)
        (Parser.iterateUpTo round' n' a') s s'
  | 0, _, _, _, _, _, _, _ =>
    ⟨⟨fun _ _ _ hok => (by cases hok), fun _ _ _ hok => (by cases hok)⟩,
      fun _ _ _ hok => (by cases hok)⟩
  | n + 1, n', a, a', s, s', hview, hend => by
    have hsame : ∀ n', Tails true v k K Expr.bare (Parser.iterateUpTo round (n + 1) a)
        (Parser.iterateUpTo round' (n' + 1) a') s s' := by
      intro n'
      by_cases hrest : s.cursor.rest = []
      · exact h.oneRound_last hK hview n n' hrest (hend hrest)
      · exact h.oneRound_inside hK hview n n' hrest fun _ _ _ _ => iterateUpTo h hK n n'
    cases n' with
    | zero =>
      exact ⟨⟨(hsame 0).same.flat, fun _ _ _ _ _ => .inl ⟨s', rfl⟩⟩,
        fun _ _ _ _ _ _ _ _ hok' => (by cases hok')⟩
    | succ n' => exact hsame n'

/-- Rounds that only enlarge an expression trail as one round does. -/
theorem iterate (h : Extends v k inner outer round round')
    (hK : ∀ kind, kind ∈ K ↔ kind ∈ inner ∨ kind ∈ outer) (hview : a'.bare = a.bare)
    (hend : s.cursor.rest = [] → next v ∉ inner) :
    Tails true v k K Expr.bare (Parser.iterate round a) (Parser.iterate round' a') s s' := by
  obtain ⟨n, hn⟩ := exists_iterate_eq round a s
  obtain ⟨n', hn'⟩ := exists_iterate_eq round' a' s'
  have hupTo : Tails true v k K Expr.bare (Parser.iterateUpTo round n a)
    (Parser.iterateUpTo round' n' a') s s' := h.iterateUpTo hK n n' hview hend
  refine ⟨.congr hn hn' hupTo.same, ?_⟩
  rw [hn, hn']
  exact hupTo.grows

/-- **An expression that is made larger by rounds** goes on as its last part does, or with another
round. -/
theorem behind {b p p'} (h : Extends v k inner outer round round')
    (hK : ∀ kind, kind ∈ K ↔ kind ∈ inner ∨ kind ∈ outer)
    (hp : Tails b v k inner Expr.bare p p' s s') :
    Tails b v k K Expr.bare (p >>= Parser.iterate round) (p' >>= Parser.iterate round') s s' := by
  refine hp.behind (fun kind hkind => (hK kind).mpr (.inl hkind))
    (fun c c' t t' _ hc hend => h.iterate hK hc hend) fun c t d u _ ht hnil hok => ?_
  obtain ⟨rfl, rfl⟩ := h.iterate_last ht hnil hok
  exact ⟨rfl, fun c' t' d' u' hlt hok' => hlt.trans_le (h.right.le_iterate hok')⟩

end Extends

end Parser

namespace Nested

open Offside.Parser
open Cursor (Flat)

variable {n n' : Nested} {b : Bool} {v : List Sight} {k : Nat} {s s' t : State} {condition : Expr}

/-- What can go on with an expression. -/
def trailing : List Kind := .question :: goingOn ladder

/-- What nests is read by itself as before `v`, unless it goes on. -/
structure Local (v : List Sight) (k : Nat) (n n' : Nested) : Prop where
  expression : ∀ s s', Tails false v k trailing Expr.bare n.expression n'.expression s s'
  ternary : ∀ s s', Tails false v k trailing Expr.bare n.ternary n'.ternary s s'
  needs : Needs n.expression

/-! ## Expressions without operators -/

theorem needs_primary (n : Nested) : Needs n.primary := .kind fun _ _ _ => nofun

theorem any_key_bare (fields : List Field) (name : String) :
    (fields.map Field.bare).any (·.key.lexeme == name) = fields.any (·.key.lexeme == name) := by
  rw [any_map]
  congr 1
  funext field
  cases field
  rfl

/-- Whether a key was used before does not hang on places. -/
theorem any_key_eq {earlier earlier' : List Field} {key key' : Token}
    (hearlier : earlier'.map Field.bare = earlier.map Field.bare) (hkey : key'.bare = key.bare) :
    earlier'.any (·.key.lexeme == key'.lexeme) = earlier.any (·.key.lexeme == key.lexeme) := by
  rw [lexeme_of_bare_eq hkey, ← any_key_bare earlier', hearlier, any_key_bare]

/-- What stands behind the key of a field. -/
def fieldValue (n : Nested) (key : Token) : Parser Field := do
  let _ ← Parser.expect .colon .expectedFieldValue
  return .mk key (← n.expression)

theorem field_eq (n : Nested) (earlier : List Field) : n.field earlier = (do
    let key ← Parser.expect .identifier .expectedField
    if earlier.any (·.key.lexeme == key.lexeme) then
      Parser.report key .duplicateField
      n.fieldValue key
    else
      n.fieldValue key) := rfl

theorem tails_fieldValue (h : Local v k n n') {key key'} (hkey : key'.bare = key.bare) :
    Tails b v k trailing Field.bare (n.fieldValue key) (n'.fieldValue key') s s' := by
  refine .andThen (.expect nofun) fun _ _ t t' _ => .map (h.expression t t').loosen
    (fun value value' hvalue => ?_) fun value value' hvalue => ?_
  · rw [Field.bare, Field.bare, hkey, hvalue]
  · simp only [Field.bare, Field.mk.sizeOf_spec, hkey]
    omega

theorem mirrors_field (h : Local v k n n') {earlier earlier'}
    (hearlier : earlier'.map Field.bare = earlier.map Field.bare) :
    Mirrors b true v k Inside Field.bare (n.field earlier) (n'.field earlier') s s' := by
  rw [field_eq, field_eq]
  refine .andThen (.expect nofun) fun key key' t t' hkey => ?_
  rw [any_key_eq hearlier hkey]
  exact .ite (fun _ => .andThen .report fun _ _ _ _ _ => (tails_fieldValue h hkey).inside)
    fun _ => (tails_fieldValue h hkey).inside

theorem needs_field (n : Nested) (earlier : List Field) : Needs (n.field earlier) :=
  .bind (.expect nofun)

/-- An expression without operators ends with its own tokens. -/
theorem mirrors_primary (h : Local v k n n') :
    Mirrors b true v k Anywhere Expr.bare n.primary n'.primary s s' := by
  have hliteral : s.cursor.kind ≠ .eof → Mirrors b true v k Anywhere Expr.bare (do
      let token ← Parser.take
      return Expr.literal token (token.literal.getD .null)) (do
      let token ← Parser.take
      return Expr.literal token (token.literal.getD .null)) s s' := by
    refine fun hkind => .map (.take hkind) fun t t' ht => ?_
    rw [Expr.bare, Expr.bare, ht, literal_of_bare_eq ht]
  unfold primary
  refine .kind (fun hs a t hok _ => needs_primary n s hs a t hok) ?_
  split
  iterate 5 · next hkind => exact hliteral (by rw [hkind]; nofun)
  · next hkind =>
    refine .map (.takeKind hkind nofun) fun t t' ht => ?_
    rw [Expr.bare, Expr.bare, ht]
  · next hkind =>
    refine .andThen (.takeKind hkind nofun) fun _ _ t t' _ =>
      .before (h.expression t t').loosen.inside (fun value value' u u' hvalue =>
        .map (.expect nofun) fun _ _ _ => ?_) fun _ => .bind (.expect nofun)
    rw [Expr.bare, Expr.bare, hvalue]
  · next hkind =>
    refine .andThen (.takeKind hkind nofun) fun bracket bracket' t t' hbracket =>
      .before (.elements nofun (fun _ _ u u' _ => (h.expression u u').loosen.inside)
        fun _ => h.needs) (fun items items' u u' hitems => .map (.expect nofun) fun _ _ _ => ?_)
      fun _ => .bind (.expect nofun)
    simp [Expr.bare, hbracket, hitems]
  · next hkind =>
    refine .andThen (.takeKind hkind nofun) fun brace brace' t t' hbrace =>
      .before (.elements nofun (fun _ _ u u' hearlier => mirrors_field h hearlier)
        (needs_field n)) (fun fields fields' u u' hfields => .map (.expect nofun) fun _ _ _ => ?_)
      fun _ => .bind (.expect nofun)
    simp [Expr.bare, hbrace, hfields]
  · exact .refuse
  · exact .refuse

/-! ## Calls and members -/

/-- So does a call or a member access. -/
theorem mirrors_suffix? (h : Local v k n n') {target target'} (htarget : target'.bare = target.bare)
    (hin : Inside s) :
    Mirrors true true v k Anywhere (Option.map Expr.bare) (n.suffix? target) (n'.suffix? target')
      s s' := by
  unfold suffix?
  refine .kind (fun _ _ _ _ _ => hin) ?_
  split
  · next hkind =>
    have hcall : ∀ (paren paren' : Token) (arguments arguments' : List Expr) (t t' : State),
        paren'.bare = paren.bare → arguments'.map Expr.bare = arguments.map Expr.bare →
        Mirrors true true v k Anywhere (Option.map Expr.bare) (do
          let _ ← Parser.expect (.closing .round) .expectedArgumentListEnd
          return some (Expr.call paren target arguments)) (do
          let _ ← Parser.expect (.closing .round) .expectedArgumentListEnd
          return some (Expr.call paren' target' arguments')) t t' := by
      intro paren paren' arguments arguments' t t' hparen harguments
      refine .map (.expect nofun) fun _ _ _ => ?_
      simp [Expr.bare, hparen, htarget, harguments]
    refine .andThen (.takeKind hkind nofun) fun paren paren' t t' hparen => .at? nofun
      (fun ht r u hok _ => ?_) (fun _ => ?_) fun _ => ?_
    · exact h.needs.bind.bind t ht r u hok
    · exact .andThen (.pure rfl) fun arguments arguments' u u' harguments =>
        hcall paren paren' arguments arguments' u u' hparen harguments
    · exact .before (.commaSeparated fun _ _ u u' _ => (h.expression u u').loosen.inside)
        (fun arguments arguments' u u' harguments =>
          hcall paren paren' arguments arguments' u u' hparen harguments)
        fun _ => .bind (.expect nofun)
  · next hkind =>
    refine .andThen (.takeKind hkind nofun) fun _ _ t t' _ =>
      .map (.expect nofun) fun name name' hname => ?_
    rw [Option.map_some, Option.map_some, Expr.bare, Expr.bare, Member.bare, Member.bare, htarget,
      hname]
  · next hkind =>
    refine .andThen (.takeKind hkind nofun) fun bracket bracket' t t' hbracket =>
      .before (h.expression t t').loosen.inside (fun index index' u u' hindex =>
        .map (.expect nofun) fun _ _ _ => ?_) fun _ => .bind (.expect nofun)
    rw [Option.map_some, Option.map_some, Expr.bare, Expr.bare, Member.bare, Member.bare, htarget,
      hbracket, hindex]
  · exact .pure rfl

/-- What a suffix makes of an expression. -/
theorem exists_of_suffix? {target r} (hkind : s.cursor.kind ∈ goingOn [])
    (hok : n.suffix? target s = .ok r t) :
    (∃ paren arguments, r = some (.call paren target arguments)) ∨
      ∃ member, r = some (.get target member) := by
  rw [suffix?, kind_bind] at hok
  have hkinds : s.cursor.kind = .opening .round ∨ s.cursor.kind = .dot ∨
      s.cursor.kind = .opening .square := by simpa [goingOn] using hkind
  rcases hkinds with hk | hk | hk <;> rw [hk] at hok
  · obtain ⟨paren, u, -, hok⟩ := exists_of_bind_eq_ok hok
    have hcall : ∀ arguments u, (do
        let _ ← Parser.expect (.closing .round) .expectedArgumentListEnd
        return some (Expr.call paren target arguments)) u = .ok r t →
        ∃ paren arguments, r = some (.call paren target arguments) := by
      intro arguments u hok
      obtain ⟨_, _, -, hok⟩ := exists_of_bind_eq_ok hok
      cases hok
      exact ⟨_, _, rfl⟩
    by_cases hclose : u.cursor.kind = .closing .round
    · rw [at?_of_kind hclose] at hok
      exact .inl (hcall [] u hok)
    · rw [at?_of_kind_ne hclose] at hok
      obtain ⟨arguments, w, -, hok⟩ := exists_of_bind_eq_ok hok
      exact .inl (hcall arguments w hok)
  · obtain ⟨_, _, -, hok⟩ := exists_of_bind_eq_ok hok
    obtain ⟨name, _, -, hok⟩ := exists_of_bind_eq_ok hok
    cases hok
    exact .inr ⟨_, rfl⟩
  · obtain ⟨_, _, -, hok⟩ := exists_of_bind_eq_ok hok
    obtain ⟨index, _, -, hok⟩ := exists_of_bind_eq_ok hok
    obtain ⟨_, _, -, hok⟩ := exists_of_bind_eq_ok hok
    cases hok
    exact .inr ⟨_, rfl⟩

theorem enlarges_suffix? (n : Nested) : Enlarges (goingOn []) n.suffix? := by
  refine ⟨fun a s hkind => ?_, fun a s r t hkind hok => ?_⟩
  · rw [suffix?, kind_bind]
    refine congrFun (g := (Pure.pure none : Parser (Option Expr))) ?_ s
    split
    · next hk => exact absurd (hk ▸ by decide) hkind
    · next hk => exact absurd (hk ▸ by decide) hkind
    · next hk => exact absurd (hk ▸ by decide) hkind
    · rfl
  · rcases exists_of_suffix? hkind hok with ⟨paren, arguments, rfl⟩ | ⟨member, rfl⟩
    · refine ⟨_, rfl, ?_⟩
      simp only [Expr.bare, Expr.call.sizeOf_spec]
      omega
    · refine ⟨_, rfl, ?_⟩
      simp only [Expr.bare, Expr.get.sizeOf_spec]
      omega

theorem extends_suffix? (h : Local v k n n') : Extends v k [] (goingOn []) n.suffix? n'.suffix? :=
  ⟨by decide, enlarges_suffix? n, enlarges_suffix? n',
    fun _ _ _ _ ha hin => .exact (mirrors_suffix? h ha hin)⟩

theorem tails_chain (h : Local v k n n') :
    Tails b v k (goingOn []) Expr.bare n.chain n'.chain s s' :=
  (extends_suffix? h).behind (fun _ => (or_iff_right not_mem_nil).symm) (.exact (mirrors_primary h))

theorem needs_chain (n : Nested) : Needs n.chain := (needs_primary n).bind

/-! ## Operators -/

theorem bare_applied {operators operators'}
    (h : operators'.map (Prod.map id bare) = operators.map (Prod.map id bare)) (e e' : Expr) :
    (e'.bare = e.bare → (applied operators' e').bare = (applied operators e).bare) ∧
      (sizeOf e.bare < sizeOf e'.bare →
        sizeOf (applied operators e).bare < sizeOf (applied operators' e').bare) := by
  induction operators generalizing operators' with
  | nil =>
    obtain rfl : operators' = [] := map_eq_nil_iff.mp h
    exact ⟨id, id⟩
  | cons first operators ih =>
    obtain ⟨first', operators', rfl, hfirst, hlater⟩ := map_eq_cons_iff.mp h
    obtain ⟨op, token⟩ := first
    obtain ⟨op', token'⟩ := first'
    obtain ⟨rfl, htoken⟩ : op' = op ∧ token'.bare = token.bare := Prod.mk.inj hfirst
    obtain ⟨hsame, hlt⟩ := ih hlater
    change (_ → Expr.unary op' token'.bare (applied operators' e').bare
      = .unary op' token.bare (applied operators e).bare) ∧
      (_ → sizeOf (Expr.unary op' token.bare (applied operators e).bare)
        < sizeOf (Expr.unary op' token'.bare (applied operators' e').bare))
    rw [htoken]
    refine ⟨fun he => by rw [hsame he], fun he => ?_⟩
    have := hlt he
    simp only [Expr.unary.sizeOf_spec]
    omega

theorem unary_eq (n : Nested) : n.unary = (do
    let operators ← iterate operatorRound []
    return applied operators (← n.chain)) := rfl

theorem stays_operatorRound : Mirrors.Stays operatorRound := by
  intro operators s r t hs hrest hok
  rw [operatorRound, kind_bind, hs.kind_eof hrest] at hok
  cases hok
  exact ⟨hs, hrest⟩

theorem mirrors_operators : Mirrors b b v k Inside (map (Prod.map id bare))
    (iterate operatorRound []) (iterate operatorRound []) s s' := by
  refine .iterate (fun operators operators' t t' hoperators => ?_) stays_operatorRound rfl
  refine .kind (fun ht r u hok hu hnil => ?_) ?_
  · exact hu (stays_operatorRound operators t r u ht hnil hok).2
  · split
    · next op hop =>
      refine .map (.lower (.take ?_)) fun token token' htoken => ?_
      · rcases unaryOp?_cases hop with hk | hk <;> rw [hk] <;> nofun
      · simp only [Option.map_some, map_append, map_singleton, Prod.map_apply, hoperators, htoken]
    · exact .pure rfl

theorem needs_unary (n : Nested) : Needs n.unary := by
  intro s hs a u hok hnil
  obtain ⟨operators, t, hoperators, hok⟩ := exists_of_bind_eq_ok hok
  obtain ⟨e, w, hchain, -⟩ := exists_of_bind_eq_ok hok
  have hmirrors : Mirrors false false [] 0 Inside (map (Prod.map id bare))
    (iterate operatorRound []) (iterate operatorRound []) s s := mirrors_operators
  exact needs_chain n t (hmirrors.flat hs operators t hoperators) e w hchain
    (stays_operatorRound.iterate hs hnil hoperators)

theorem tails_unary (h : Local v k n n') :
    Tails b v k (goingOn []) Expr.bare n.unary n'.unary s s' := by
  rw [unary_eq, unary_eq]
  exact .before mirrors_operators (fun operators operators' t t' hoperators =>
    .map (tails_chain h) (fun e e' => (bare_applied hoperators e e').1)
      fun e e' => (bare_applied hoperators e e').2) fun _ => (needs_chain n).bind

/-- What an operator makes of its left operand. -/
theorem exists_of_rungRound {operand rung tighter left r} (hkind : s.cursor.kind ∈ rung.map (·.1))
    (hok : rungRound operand rung tighter left s = .ok r t) :
    ∃ op operator right, r = some (.binary op operator left right) := by
  rw [rungRound, kind_bind] at hok
  cases hlookup : rung.lookup s.cursor.kind with
  | none =>
    obtain ⟨found, hfound, hsame⟩ := mem_map.mp hkind
    have hne := lookup_eq_none_iff.mp hlookup found hfound
    exact absurd hsame.symm (bne_iff_ne.mp hne)
  | some op =>
    rw [hlookup] at hok
    obtain ⟨operator, _, -, hok⟩ := exists_of_bind_eq_ok hok
    obtain ⟨right, _, -, hok⟩ := exists_of_bind_eq_ok hok
    cases hok
    exact ⟨op, operator, right, rfl⟩

theorem enlarges_rungRound (operand : Parser Expr) (rung : Rung) (tighter : List Rung) :
    Enlarges (rung.map (·.1)) (rungRound operand rung tighter) := by
  refine ⟨fun a s hkind => ?_, fun a s r t hkind hok => ?_⟩
  · rw [rungRound, kind_bind, lookup_eq_none hkind]
    rfl
  · obtain ⟨op, operator, right, rfl⟩ := exists_of_rungRound hkind hok
    refine ⟨_, rfl, ?_⟩
    simp only [Expr.bare, Expr.binary.sizeOf_spec]
    omega

/-- Operands and operators go on with another operator, or as their last operand does. -/
theorem tails_binary (h : Local v k n n') : ∀ {rungs b s s'},
    (∀ rung ∈ rungs, .eof ∉ rung.map (·.1)) →
      Tails b v k (goingOn rungs) Expr.bare (binary n.unary rungs) (binary n'.unary rungs) s s'
  | [], _, _, _, _ => tails_unary h
  | rung :: tighter, b, s, s', heof => by
    obtain ⟨hrung, htighter⟩ := forall_mem_cons.mp heof
    rw [binary_cons, binary_cons]
    refine Extends.behind ⟨hrung, enlarges_rungRound _ rung tighter,
      enlarges_rungRound _ rung tighter, fun left left' t t' hleft hin => ?_⟩
      (fun kind => goingOn_cons rung tighter) (tails_binary h htighter)
    refine .kind hin ?_
    split
    · next op hop =>
      refine .andThen (.take ?_) fun operator operator' u u' hoperator =>
        .map (tails_binary h htighter) (fun right right' hright => ?_) fun right right' hright => ?_
      · intro hk
        rw [hk, lookup_eq_none hrung] at hop
        cases hop
      · rw [Option.map_some, Option.map_some, Expr.bare, Expr.bare, hoperator, hleft, hright]
      · simp only [Option.map_some, Option.some.sizeOf_spec, Expr.bare, Expr.binary.sizeOf_spec,
          hoperator, hleft]
        omega
    · exact .pure rfl hin

theorem needs_binary (n : Nested) : ∀ rungs : List Rung, Needs (binary n.unary rungs)
  | [] => needs_unary n
  | _ :: tighter => (needs_binary n tighter).bind

/-! ## Whole expressions -/

theorem needs_ternaryOf (n : Nested) : Needs n.ternaryOf := (needs_binary n ladder).bind

/-- What a condition becomes. -/
def branched (n : Nested) (condition : Expr) : Parser Expr := do
  if ← Parser.at? .question then
    let question ← take
    let consequent ← n.ternary
    let _ ← Parser.expect .bang .expectedAlternative
    return .ternary question condition consequent (← n.ternary)
  else
    return condition

theorem ternaryOf_eq (n : Nested) : n.ternaryOf = binary n.unary ladder >>= n.branched := rfl

theorem branched_of_kind_ne (h : s.cursor.kind ≠ .question) :
    n.branched condition s = .ok condition s := by
  rw [branched, at?_of_kind_ne h]
  rfl

theorem exists_of_branched {e} (h : s.cursor.kind = .question)
    (hok : n.branched condition s = .ok e t) :
    ∃ question consequent alternative, e = .ternary question condition consequent alternative := by
  rw [branched, at?_of_kind h] at hok
  obtain ⟨question, _, -, hok⟩ := exists_of_bind_eq_ok hok
  obtain ⟨consequent, _, -, hok⟩ := exists_of_bind_eq_ok hok
  obtain ⟨_, _, -, hok⟩ := exists_of_bind_eq_ok hok
  obtain ⟨alternative, _, -, hok⟩ := exists_of_bind_eq_ok hok
  exact ⟨question, consequent, alternative, (EStateM.Result.ok.inj hok).1.symm⟩

theorem lt_branched {e} (h : s.cursor.kind = .question) (hok : n.branched condition s = .ok e t) :
    sizeOf condition.bare < sizeOf e.bare := by
  obtain ⟨question, consequent, alternative, rfl⟩ := exists_of_branched h hok
  simp only [Expr.bare, Expr.ternary.sizeOf_spec]
  omega

/-- A choice goes on as its last branch does. -/
theorem tails_branched (h : Local v k n n') {condition'}
    (hcondition : condition'.bare = condition.bare)
    (hend : s.cursor.rest = [] → next v ∉ goingOn ladder) :
    Tails true v k trailing Expr.bare (n.branched condition) (n'.branched condition') s s' := by
  by_cases hrest : s.cursor.rest = []
  · have hown : s.cursor.Flat → n.branched condition s = .ok condition s := fun hs =>
      branched_of_kind_ne (by rw [hs.kind_eof hrest]; nofun)
    refine ⟨⟨fun hs e t hok => ?_, fun hs e t hok ht => ?_⟩,
      fun hs e t hok _ hnext e' t' hok' => ?_⟩
    · cases ((hown hs).symm.trans hok)
      exact hs
    · cases ((hown hs.left).symm.trans hok)
      refine .inr ⟨condition', s', branched_of_kind_ne ?_, hcondition, hs⟩
      rw [hs.kind_next hrest]
      rintro hquestion
      exact (ht.resolve_left fun hin => hin hrest) (hquestion ▸ mem_cons_self)
    · cases ((hown hs.left).symm.trans hok)
      have hquestion : next v = .question := (mem_cons.mp hnext).resolve_right (hend hrest)
      have hlt := lt_branched ((hs.kind_next hrest).trans hquestion) hok'
      rwa [hcondition] at hlt
  · refine .at? nofun (fun _ _ _ _ => hrest) (fun hk => ?_) fun _ => .pure hcondition hrest
    refine .andThen (.takeKind hk nofun) fun question question' t t' hquestion =>
      .before (h.ternary t t').loosen.inside (fun consequent consequent' u u' hconsequent => ?_)
      fun _ => .bind (.expect nofun)
    refine .andThen (.expect nofun) fun _ _ w w' _ => .map (h.ternary w w').loosen
      (fun alternative alternative' halternative => ?_)
      fun alternative alternative' halternative => ?_
    · rw [Expr.bare, Expr.bare, hquestion, hcondition, hconsequent, halternative]
    · simp only [Expr.bare, Expr.ternary.sizeOf_spec, hquestion, hcondition, hconsequent]
      omega

theorem tails_ternaryOf (h : Local v k n n') :
    Tails b v k trailing Expr.bare n.ternaryOf n'.ternaryOf s s' := by
  have heof : ∀ rung ∈ ladder, Kind.eof ∉ rung.map (·.1) := by decide
  rw [ternaryOf_eq, ternaryOf_eq]
  refine (tails_binary h heof).behind (fun _ => mem_cons_of_mem _)
    (fun condition condition' t t' _ => tails_branched h) fun condition t e u _ ht hnil hok => ?_
  rw [branched_of_kind_ne (by rw [ht.kind_eof hnil]; nofun)] at hok
  cases hok
  refine ⟨rfl, fun condition' t' e' u' hlt hok' => hlt.trans_le ?_⟩
  by_cases hquestion : t'.cursor.kind = .question
  · exact Nat.le_of_lt (lt_branched hquestion hok')
  · rw [branched_of_kind_ne hquestion] at hok'
    cases hok'
    exact Nat.le_refl _

/-! ## Functions -/

theorem mirrors_parameters : Mirrors b true v k Anywhere (map bare) parameters parameters s s' := by
  refine .andThen (.expect nofun) fun _ _ t t' _ => .accept nofun (fun ht r u hok _ => ?_)
    (fun u u' => .pure rfl) (.before (.commaSeparated fun earlier earlier' u u' hearlier =>
      .andThen (.expect nofun) fun name name' w w' hname => ?_)
      (fun names names' u u' hnames => .map (.expect nofun) fun _ _ _ => hnames)
      fun _ => .bind (.expect nofun))
  · have hneeds : Needs (Parser.expect .identifier .expectedParameter) := .expect nofun
    exact hneeds.bind.bind.bind t ht r u hok
  · rw [any_lexeme_eq hearlier hname]
    exact .ite (fun _ => .andThen .report fun _ _ _ _ _ => .pure hname) fun _ => .pure hname

theorem tails_functionBody (h : Local v k n n') :
    Tails b v k trailing bareBody n.functionBody n'.functionBody s s' := by
  have hneeds : Needs (n.block false) := .bind (.expect nofun)
  refine .at? nofun (hneeds s) (fun hk => ?_) fun _ => .never fun hs body t hok => ?_
  · refine .andThen (.takeKind hk nofun) fun colon colon' t t' hcolon =>
      .map (h.expression t t').loosen (fun e e' he => ?_) fun e e' he => ?_
    · simp only [bareBody, Stmt.bare, hcolon, he]
    · simp only [bareBody, Stmt.bare, hcolon, cons.sizeOf_spec, Stmt.answer.sizeOf_spec,
        Option.some.sizeOf_spec]
      omega
  · obtain ⟨_, _, hnewline, -⟩ := exists_of_bind_eq_ok hok
    rw [Parser.expect, at?_of_kind_ne fun hk => hs.kind_notMem (hk ▸ by decide)] at hnewline
    cases hnewline

theorem tails_functionLiteral (h : Local v k n n') (hkind : s.cursor.kind = .fn) :
    Tails b v k trailing Expr.bare n.functionLiteral n'.functionLiteral s s' := by
  refine .andThen (.takeKind hkind nofun) fun keyword keyword' t t' hkeyword => .at? nofun
    ?_ (fun _ => .never fun _ _ _ => nofun) fun _ => .andThen mirrors_parameters
      fun names names' u u' hnames => .map (tails_functionBody h) (fun body body' hbody => ?_)
      fun body body' hbody => ?_
  · have hneeds : Needs parameters := .bind (.expect nofun)
    exact hneeds.bind t
  · rw [Expr.bare, Expr.bare, hkeyword, hnames, hbody]
  · simp only [Expr.bare, Expr.function.sizeOf_spec, hkeyword, hnames]
    omega

theorem needs_expressionOf (n : Nested) : Needs n.expressionOf := .at?_neg nofun (needs_ternaryOf n)

/-- **An expression goes on, or ends with its own tokens.** -/
theorem tails_expressionOf (h : Local v k n n') :
    Tails b v k trailing Expr.bare n.expressionOf n'.expressionOf s s' :=
  .at? nofun (needs_ternaryOf n s) (tails_functionLiteral h) fun _ => tails_ternaryOf h

/-- **An expression is read by itself as before what cannot go on with it**, and becomes larger
before what can. -/
theorem local_nested (v : List Sight) (k : Nat) : ∀ d d' : Nat, Local v k (nested d) (nested d')
  | 0, _ => ⟨fun _ _ => .never fun _ _ _ => nofun, fun _ _ => .never fun _ _ _ => nofun,
      fun _ _ _ _ => nofun⟩
  | d + 1, 0 => by
    have h := local_nested v k d d
    have hexpression : ∀ s s', Tails false v k trailing Expr.bare (nested d).expressionOf
      (nested d).expressionOf s s' := fun _ _ => tails_expressionOf h
    have hternary : ∀ s s', Tails false v k trailing Expr.bare (nested d).ternaryOf
      (nested d).ternaryOf s s' := fun _ _ => tails_ternaryOf h
    exact ⟨fun s s' => ⟨⟨(hexpression s s').same.flat, fun _ _ _ _ _ => .inl ⟨s', rfl⟩⟩,
        fun _ _ _ _ _ _ _ _ => nofun⟩,
      fun s s' => ⟨⟨(hternary s s').same.flat, fun _ _ _ _ _ => .inl ⟨s', rfl⟩⟩,
        fun _ _ _ _ _ _ _ _ => nofun⟩, needs_expressionOf _⟩
  | d + 1, d' + 1 => by
    have h := local_nested v k d d'
    exact ⟨fun _ _ => tails_expressionOf h, fun _ _ => tails_ternaryOf h, needs_expressionOf _⟩

end Nested

end Offside
