import Offside.Proofs.Precedence
import Offside.Proofs.Tracking

/-!
# Proofs/Locality — what is read does not hang on what follows

A parser is run on tokens by themselves and on the same tokens in front of others (`Alike`).  As
long as it has not come to the end of the former it does the same in both (`Mirrors`), whatever the
latter are and whatever was read before.
-/

namespace Offside

open Token

/-! ## Trees without places -/

mutual

/-- A type without the places of its tokens. -/
def TypeExpr.bare : TypeExpr → TypeExpr
  | .named name arguments => .named name.bare (bareTypes arguments)
  | .list bracket element => .list bracket.bare element.bare
  | .record brace fields => .record brace.bare (bareTypeFields fields)
  | .function paren parameters result => .function paren.bare (bareTypes parameters) result.bare
  | .maybe inner => .maybe inner.bare

def bareTypes : List TypeExpr → List TypeExpr
  | [] => []
  | type :: types => type.bare :: bareTypes types

def bareTypeFields : List (Token × TypeExpr) → List (Token × TypeExpr)
  | [] => []
  | (key, type) :: fields => (key.bare, type.bare) :: bareTypeFields fields

end

mutual

/-- An expression without the places of its tokens. -/
@[simp] def Expr.bare : Expr → Expr
  | .ternary question condition consequent alternative =>
    .ternary question.bare condition.bare consequent.bare alternative.bare
  | .binary op operator left right => .binary op operator.bare left.bare right.bare
  | .group inner => .group inner.bare
  | .literal token value => .literal token.bare value
  | .unary op operator operand => .unary op operator.bare operand.bare
  | .name token => .name token.bare
  | .assign name value => .assign name.bare value.bare
  | .call paren callee arguments => .call paren.bare callee.bare (bareAll arguments)
  | .get object member => .get object.bare member.bare
  | .set object member value => .set object.bare member.bare value.bare
  | .list bracket elements => .list bracket.bare (bareAll elements)
  | .record brace fields => .record brace.bare (bareFields fields)
  | .function keyword parameters body =>
    .function keyword.bare (parameters.map bare) (bareBody body)

def Member.bare : Member → Member
  | .field name => .field name.bare
  | .index bracket index => .index bracket.bare index.bare

def bareAll : List Expr → List Expr
  | [] => []
  | e :: es => e.bare :: bareAll es

def bareFields : List Field → List Field
  | [] => []
  | .mk key value :: fields => .mk key.bare value.bare :: bareFields fields

/-- A statement without the places of its tokens. -/
def Stmt.bare : Stmt → Stmt
  | .expression value => .expression value.bare
  | .block body => .block (bareBody body)
  | .branch keyword condition body rest =>
    .branch keyword.bare condition.bare (bareBody body) rest.bare
  | .loop keyword condition body => .loop keyword.bare condition.bare (bareBody body)
  | .leave keyword => .leave keyword.bare
  | .function name keyword parameters body =>
    .function name.bare keyword.bare (parameters.map bare) (bareBody body)
  | .answer keyword none => .answer keyword.bare none
  | .answer keyword (some value) => .answer keyword.bare (some value.bare)
  | .declare mutable name type value =>
    .declare mutable name.bare (type.map TypeExpr.bare) value.bare

def Otherwise.bare : Otherwise → Otherwise
  | .nothing => .nothing
  | .body body => .body (bareBody body)
  | .branch keyword condition body rest =>
    .branch keyword.bare condition.bare (bareBody body) rest.bare

/-- Statements without the places of their tokens. -/
def bareBody : List Stmt → List Stmt
  | [] => []
  | st :: body => st.bare :: bareBody body

end

/-- A field without the places of its tokens. -/
def Field.bare : Field → Field
  | .mk key value => .mk key.bare value.bare

@[simp] theorem bareAll_eq (es : List Expr) : bareAll es = es.map Expr.bare := by
  induction es with
  | nil => rfl
  | cons e es ih => rw [bareAll, ih, List.map_cons]

@[simp] theorem bareFields_eq (fields : List Field) :
    bareFields fields = fields.map Field.bare := by
  induction fields with
  | nil => rfl
  | cons f fields ih =>
    cases f with
    | mk key value => rw [bareFields, ih, List.map_cons, Field.bare]

theorem Token.literal_of_bare_eq {t t' : Token} (h : t'.bare = t.bare) : t'.literal = t.literal :=
  (congrArg literal h :)

/-! ## Tokens ahead -/

/-- A token ahead, and whether it stands behind a line break. -/
structure Sight where
  token : Token
  broken : Bool

/-- The same without the place of the token. -/
def Sight.bare (sight : Sight) : Sight := { sight with token := sight.token.bare }

/-- What is seen of tokens; `broken` tells whether they stand behind a line break. -/
def sights : Bool → List Token → List Sight
  | _, [] => []
  | broken, t :: rest =>
    if t.kind = .softNewline then sights true rest else ⟨t, broken⟩ :: sights false rest

namespace Cursor

variable {c : Cursor}

/-- What is seen from a cursor. -/
def ahead (c : Cursor) : List Sight := sights c.afterSoftBreak c.rest

/-- Behind soft line breaks the cursor sees the tokens to come. -/
theorem ahead_skipSoft (final : Token) : ∀ (rest taken : List Token),
    (skipSoft taken final rest).ahead = sights (afterSoftBreak ⟨taken, rest, final⟩) rest
  | [], _ => rfl
  | t :: rest, taken => by
    unfold skipSoft
    split
    · next hsoft =>
      rw [ahead_skipSoft final rest (t :: taken), sights, if_pos hsoft, afterSoftBreak]
      simp only [hsoft, decide_true]
    · rfl

/-- What is ahead is the current token and what is ahead of the next one. -/
theorem Settled.ahead_eq (h : c.Settled) (hrest : c.rest ≠ []) :
    c.ahead = ⟨c.current, c.afterSoftBreak⟩ :: c.advance.ahead := by
  obtain ⟨t, rest, hc⟩ := List.exists_cons_of_ne_nil hrest
  have hsoft : t.kind ≠ .softNewline := h.head t (by rw [hc]; rfl)
  have hbehind : afterSoftBreak ⟨t :: c.taken, rest, c.final⟩ = false := decide_eq_false hsoft
  have hadvance : c.advance.ahead = sights false rest := by
    rw [Cursor.advance, hc]
    exact (ahead_skipSoft _ _ _).trans (by rw [hbehind])
  rw [hadvance, ahead, current, hc, sights, if_neg hsoft]
  rfl

theorem ahead_eq_nil (hrest : c.rest = []) : c.ahead = [] := by rw [ahead, hrest, sights]

/-- Neither a line ends nor a block begins or ends behind the cursor. -/
structure Flat (c : Cursor) : Prop where
  settled : c.Settled
  ahead : ∀ sight ∈ c.ahead, sight.token.kind ∉ breakKinds

theorem Flat.kind_eof (h : c.Flat) (hrest : c.rest = []) : c.kind = .eof :=
  h.settled.rest_eq_nil_iff.mp hrest

theorem Flat.kind_notMem (h : c.Flat) : c.kind ∉ breakKinds := by
  by_cases hrest : c.rest = []
  · rw [h.kind_eof hrest]
    decide
  · exact h.ahead ⟨c.current, c.afterSoftBreak⟩
      (by rw [h.settled.ahead_eq hrest]; exact List.mem_cons_self)

theorem Flat.advance (h : c.Flat) : c.advance.Flat := by
  refine ⟨h.settled.advance, fun sight hsight => h.ahead sight ?_⟩
  by_cases hrest : c.rest = []
  · rwa [Cursor.advance, hrest] at hsight
  · rw [h.settled.ahead_eq hrest]
    exact List.mem_cons_of_mem _ hsight

end Cursor

namespace Parser

open Cursor (Flat breakKinds)

variable {α γ : Type} {b : Bool} {v : List Sight}

/-- The kind of the first token that is seen, or of the end of the program. -/
def next (v : List Sight) : Kind := (v.head?.map (·.token.kind)).getD .eof

/-- Sights up to the places of their tokens and, unless `b`, up to what stands before the first. -/
def blurred (b : Bool) : List Sight → List Sight
  | [] => []
  | first :: later => ⟨first.token.bare, b && first.broken⟩ :: later.map Sight.bare

theorem blurred_true : ∀ v : List Sight, blurred true v = v.map Sight.bare
  | [] => rfl
  | _ :: _ => rfl

theorem blurred_of_map_eq {v'} (h : v'.map Sight.bare = v.map Sight.bare) :
    blurred b v' = blurred b v := by
  cases v with
  | nil => rw [List.map_eq_nil_iff.mp h]
  | cons first later =>
    obtain ⟨first', later', rfl, hfirst, hlater⟩ := List.map_eq_cons_iff.mp h
    have htoken : first'.token.bare = first.token.bare := congrArg Sight.token hfirst
    have hbroken : first'.bare.broken = first.bare.broken := congrArg Sight.broken hfirst
    change first'.broken = first.broken at hbroken
    rw [blurred, blurred, htoken, hbroken, hlater]

/-- The same tokens are ahead in both states, up to their places, and `v` behind them in the second,
which has seen `k` reports more.  If `b`, the two also agree on standing behind a line break. -/
structure Alike (b : Bool) (v : List Sight) (k : Nat) (s s' : State) : Prop where
  left : s.cursor.Flat
  right : s'.cursor.Settled
  ahead : blurred b s'.cursor.ahead = blurred b (s.cursor.ahead ++ v)
  reports : s'.reports.length = s.reports.length + k

namespace Alike

variable {k : Nat} {s s' : State}

/-- States that are alike have the same token before them, and are alike behind it. -/
theorem cons (h : Alike b v k s s') (hrest : s.cursor.rest ≠ []) :
    s'.cursor.rest ≠ [] ∧ s'.cursor.current.bare = s.cursor.current.bare ∧
      (b && s'.cursor.afterSoftBreak) = (b && s.cursor.afterSoftBreak) ∧
      s'.cursor.advance.ahead.map Sight.bare = (s.cursor.advance.ahead ++ v).map Sight.bare := by
  have hahead := h.ahead
  rw [h.left.settled.ahead_eq hrest, List.cons_append, blurred] at hahead
  have hrest' : s'.cursor.rest ≠ [] := by
    intro hnil
    rw [Cursor.ahead_eq_nil hnil] at hahead
    cases hahead
  rw [h.right.ahead_eq hrest', blurred] at hahead
  obtain ⟨hhead, htail⟩ := List.cons.inj hahead
  exact ⟨hrest', congrArg Sight.token hhead, congrArg Sight.broken hhead, htail⟩

theorem kind (h : Alike b v k s s') (hrest : s.cursor.rest ≠ []) :
    s'.cursor.kind = s.cursor.kind := kind_of_bare_eq (h.cons hrest).2.1

theorem rest_ne_nil (h : Alike b v k s s') (hkind : s.cursor.kind ≠ .eof) : s.cursor.rest ≠ [] :=
  fun hnil => hkind (h.left.kind_eof hnil)

/-- At the end of the tokens of one state the other is before what follows them. -/
theorem kind_next (h : Alike b v k s s') (hrest : s.cursor.rest = []) :
    s'.cursor.kind = next v := by
  have hahead := h.ahead
  rw [Cursor.ahead_eq_nil hrest, List.nil_append] at hahead
  by_cases hrest' : s'.cursor.rest = []
  · rw [Cursor.ahead_eq_nil hrest'] at hahead
    cases v with
    | nil => exact h.right.rest_eq_nil_iff.mp hrest'
    | cons => cases hahead
  · rw [h.right.ahead_eq hrest'] at hahead
    cases v with
    | nil => cases hahead
    | cons => exact kind_of_bare_eq (congrArg Sight.token (List.cons.inj hahead).1)

theorem advance (h : Alike b v k s s') (hrest : s.cursor.rest ≠ []) :
    Alike true v k ⟨s.cursor.advance, s.reports⟩ ⟨s'.cursor.advance, s'.reports⟩ :=
  ⟨h.left.advance, h.right.advance, blurred_of_map_eq (h.cons hrest).2.2.2, h.reports⟩

/-- It may be left open whether the two agree on standing behind a line break. -/
theorem lower (h : Alike true v k s s') : Alike b v k s s' := by
  refine ⟨h.left, h.right, blurred_of_map_eq ?_, h.reports⟩
  rw [← blurred_true, ← blurred_true]
  exact h.ahead

theorem loosen (h : Alike b v k s s') : Alike false v k s s' := by
  cases b with
  | false => exact h
  | true => exact h.lower

end Alike

/-- Run in a state like the first, a parser gives the same as it has given there, up to places, if
`H` holds of where it was left. -/
structure Mirrors (b b₁ : Bool) (v : List Sight) (k : Nat) (H : State → Prop) (view : α → γ)
    (p p' : Parser α) (s s' : State) : Prop where
  flat : s.cursor.Flat → ∀ a t, p s = .ok a t → t.cursor.Flat
  alike : Alike b v k s s' → ∀ a t, p s = .ok a t → H t → (∃ u, p' s' = .error .endless u) ∨
    ∃ a' t', p' s' = .ok a' t' ∧ view a' = view a ∧ Alike b₁ v k t t'

/-- There are tokens left. -/
def Inside (s : State) : Prop := s.cursor.rest ≠ []

/-- Nothing is asked of where a parser is left. -/
def Anywhere (_ : State) : Prop := True

/-- There has to be a token for the parser. -/
def Needs (p : Parser α) : Prop := ∀ s, s.cursor.Flat → ∀ a t, p s = .ok a t → Inside s

namespace Needs

variable {p : Parser α}

theorem bind {β : Type} {f : α → Parser β} (h : Needs p) : Needs (p >>= f) := by
  intro s hs b u hok
  obtain ⟨a, t, hp, -⟩ := exists_of_bind_eq_ok hok
  exact h s hs a t hp

theorem kind {g : Kind → Parser α} (h : ∀ s a t, g .eof s ≠ .ok a t) :
    Needs (Parser.kind >>= g) := by
  intro s hs a t hok hnil
  have heof : g s.cursor.kind s = .ok a t := hok
  rw [hs.kind_eof hnil] at heof
  exact h s a t heof

theorem at?_neg {k q} (hk : k ≠ .eof) (hq : Needs q) :
    Needs (Parser.at? k >>= fun found => if found = true then p else q) := by
  intro s hs a t hok hnil
  rw [at?_of_kind_ne (by rw [hs.kind_eof hnil]; exact hk.symm)] at hok
  exact hq s hs a t hok hnil

theorem expect {fault k} (hk : k ≠ .eof) : Needs (Parser.expect k fault) :=
  at?_neg hk fun s _ a t hok => by cases hok

end Needs

namespace Mirrors

variable {δ β : Type} {H H₁ : State → Prop} {view : α → γ} {view' : β → δ} {p p' q q' : Parser α}
  {fault : SyntaxFault} {b₁ b₂ : Bool} {k : Nat} {s s' t : State} {f f' : α → Parser β} {a : α}

theorem pure {a'} (h : view a' = view a) :
    Mirrors b b v k H view (Pure.pure a) (Pure.pure a') s s' where
  flat hs _ t hok := by
    cases hok
    exact hs
  alike hs _ t hok _ := by
    cases hok
    exact .inr ⟨a', s', rfl, h, hs⟩

/-- One parser takes up where the other was left.  What is asked of that place follows from where
the second is left. -/
theorem bind (hp : Mirrors b b₁ v k H₁ view p p' s s')
    (hf : ∀ a a' t t', view a' = view a → Mirrors b₁ b₂ v k H view' (f a) (f' a') t t')
    (hmid : ∀ a t c u, t.cursor.Flat → f a t = .ok c u → H u → H₁ t) :
    Mirrors b b₂ v k H view' (p >>= f) (p' >>= f') s s' where
  flat hs c u hok := by
    obtain ⟨a, t, hpok, hfok⟩ := exists_of_bind_eq_ok hok
    exact (hf a a t t rfl).flat (hp.flat hs a t hpok) c u hfok
  alike hs c u hok hH := by
    obtain ⟨a, t, hpok, hfok⟩ := exists_of_bind_eq_ok hok
    have ht := hp.flat hs.left a t hpok
    rcases hp.alike hs a t hpok (hmid a t c u ht hfok hH)
      with ⟨w, hw⟩ | ⟨a', t', hok', hview, hlike⟩
    · exact .inl ⟨w, bind_of_error hw⟩
    · rw [bind_of_ok hok']
      exact (hf a a' t t' hview).alike hlike c u hfok hH

/-- The same where nothing is asked of the place between the two. -/
theorem andThen (hp : Mirrors b b₁ v k Anywhere view p p' s s')
    (hf : ∀ a a' t t', view a' = view a → Mirrors b₁ b₂ v k H view' (f a) (f' a') t t') :
    Mirrors b b₂ v k H view' (p >>= f) (p' >>= f') s s' :=
  .bind hp hf fun _ _ _ _ _ _ _ => trivial

/-- The same where the second needs a token. -/
theorem before (hp : Mirrors b b₁ v k Inside view p p' s s')
    (hf : ∀ a a' t t', view a' = view a → Mirrors b₁ b₂ v k H view' (f a) (f' a') t t')
    (hneeds : ∀ a, Needs (f a)) : Mirrors b b₂ v k H view' (p >>= f) (p' >>= f') s s' :=
  .bind hp hf fun a t c u ht hok _ => hneeds a t ht c u hok

/-- A result is made of what is read. -/
theorem map {g g' : α → β} (hp : Mirrors b b₁ v k H view p p' s s')
    (hg : ∀ a a', view a' = view a → view' (g' a') = view' (g a)) :
    Mirrors b b₁ v k H view' (p >>= fun a => Pure.pure (g a)) (p' >>= fun a => Pure.pure (g' a))
      s s' := by
  refine .bind hp (fun a a' t t' ha => .pure (hg a a' ha)) fun a t c u _ hok hu => ?_
  cases hok
  exact hu

theorem weaken (h : Mirrors b b₁ v k H₁ view p p' s s') (hH : ∀ t, H t → H₁ t) :
    Mirrors b b₁ v k H view p p' s s' :=
  ⟨h.flat, fun hs a t hok ht => h.alike hs a t hok (hH t ht)⟩

theorem lower (h : Mirrors b true v k H view p p' s s') : Mirrors b b₁ v k H view p p' s s' := by
  refine ⟨h.flat, fun hs a t hok ht => ?_⟩
  rcases h.alike hs a t hok ht with hendless | ⟨a', t', hok', hview, hlike⟩
  · exact .inl hendless
  · exact .inr ⟨a', t', hok', hview, hlike.lower⟩

theorem loosen (h : Mirrors false b₁ v k H view p p' s s') : Mirrors b b₁ v k H view p p' s s' :=
  ⟨h.flat, fun hs => h.alike hs.loosen⟩

theorem congr (hp : p s = q s) (hp' : p' s' = q' s') (h : Mirrors b b₁ v k H view q q' s s') :
    Mirrors b b₁ v k H view p p' s s' := by
  refine ⟨?_, ?_⟩
  · rw [hp]
    exact h.flat
  · rw [hp, hp']
    exact h.alike

theorem ite {c : Prop} [Decidable c] (hp : c → Mirrors b b₁ v k H view p p' s s')
    (hq : ¬c → Mirrors b b₁ v k H view q q' s s') :
    Mirrors b b₁ v k H view (if c then p else q) (if c then p' else q') s s' := by
  by_cases hc : c
  · rw [if_pos hc, if_pos hc]
    exact hp hc
  · rw [if_neg hc, if_neg hc]
    exact hq hc

/-- A parser that goes by the kind of the next token mirrors itself if its branches do. -/
theorem kind {g g' : Kind → Parser α}
    (hne : s.cursor.Flat → ∀ a t, g s.cursor.kind s = .ok a t → H t → Inside s)
    (h : Mirrors b b₁ v k H view (g s.cursor.kind) (g' s.cursor.kind) s s') :
    Mirrors b b₁ v k H view (Parser.kind >>= g) (Parser.kind >>= g') s s' where
  flat := h.flat
  alike hlike a t hok hH := by
    have hkind : (Parser.kind >>= g') s' = g' s.cursor.kind s' :=
      congrArg (g' · s') (hlike.kind (hne hlike.left a t hok hH))
    rw [hkind]
    exact h.alike hlike a t hok hH

/-- So does one that looks for a token of a kind. -/
theorem at? {kind} (hk : kind ≠ .eof) (hne : s.cursor.Flat → ∀ a t, q s = .ok a t → H t → Inside s)
    (hp : s.cursor.kind = kind → Mirrors b b₁ v k H view p p' s s')
    (hq : s.cursor.kind ≠ kind → Mirrors b b₁ v k H view q q' s s') :
    Mirrors b b₁ v k H view (Parser.at? kind >>= fun found => if found = true then p else q)
      (Parser.at? kind >>= fun found => if found = true then p' else q') s s' := by
  by_cases hkind : s.cursor.kind = kind
  · refine ⟨fun hflat => ?_, fun hlike => ?_⟩
    · rw [at?_of_kind hkind]
      exact (hp hkind).flat hflat
    · have hs : Inside s := hlike.rest_ne_nil (hkind ▸ hk)
      rw [at?_of_kind hkind, at?_of_kind ((hlike.kind hs).trans hkind)]
      exact (hp hkind).alike hlike
  · refine ⟨fun hflat => ?_, fun hlike a t hok hH => ?_⟩
    · rw [at?_of_kind_ne hkind]
      exact (hq hkind).flat hflat
    · rw [at?_of_kind_ne hkind] at hok
      have hs : Inside s := hne hlike.left a t hok hH
      rw [at?_of_kind_ne ((hlike.kind hs).symm ▸ hkind)]
      exact (hq hkind).alike hlike a t hok hH

/-- A token that is taken is the same up to its place. -/
theorem take (hkind : s.cursor.kind ≠ .eof) :
    Mirrors b true v k H bare Parser.take Parser.take s s' where
  flat hflat a t hok := by
    cases hok
    exact hflat.advance
  alike hlike a t hok _ := by
    have hs : Inside s := hlike.rest_ne_nil hkind
    cases hok
    exact .inr ⟨_, _, rfl, (hlike.cons hs).2.1, hlike.advance hs⟩

theorem refuse {fault'} :
    Mirrors b b₁ v k H view (Parser.refuse fault) (Parser.refuse fault') s s' where
  flat _ a t hok := by cases hok
  alike _ a t hok := by cases hok

theorem report {token token'} :
    Mirrors b b v k H id (Parser.report token fault) (Parser.report token' fault) s s' where
  flat hs a t hok := by
    cases hok
    exact hs
  alike hs a t hok _ := by
    cases hok
    refine .inr ⟨(), _, rfl, rfl, hs.left, hs.right, hs.ahead, ?_⟩
    simp only [List.length_cons, hs.reports]
    omega

theorem takeKind {kind} (hkind : s.cursor.kind = kind) (hk : kind ≠ .eof) :
    Mirrors b true v k H bare Parser.take Parser.take s s' := .take (hkind ▸ hk)

theorem expect {kind} (hk : kind ≠ .eof) :
    Mirrors b true v k H bare (Parser.expect kind fault) (Parser.expect kind fault) s s' :=
  .at? hk (fun _ _ _ hok => by cases hok) (fun hkind => .takeKind hkind hk) fun _ => .refuse

/-- A parser that takes a token if it is there mirrors itself if its branches do. -/
theorem accept {kind} (hk : kind ≠ .eof)
    (hne : s.cursor.Flat → ∀ a t, q s = .ok a t → H t → Inside s)
    (hp : ∀ t t', Mirrors true b₁ v k H view p p' t t') (hq : Mirrors b b₁ v k H view q q' s s') :
    Mirrors b b₁ v k H view (Parser.accept kind >>= fun found => if found = true then p else q)
      (Parser.accept kind >>= fun found => if found = true then p' else q') s s' := by
  rw [Parser.accept_bind, Parser.accept_bind]
  exact .at? hk hne (fun hkind => .andThen (.takeKind hkind hk) fun _ _ t t' _ => hp t t')
    fun _ => hq

/-! ## Repetition -/

section Repetition

variable {round round' : α → Parser (Option α)}

/-- A round that begins at the end of the tokens is left there. -/
def Stays (round : α → Parser (Option α)) : Prop := ∀ a s r t, s.cursor.Flat →
  s.cursor.rest = [] → round a s = .ok r t → t.cursor.Flat ∧ t.cursor.rest = []

theorem Stays.iterateUpTo (h : Stays round) {n c u} (hs : s.cursor.Flat)
    (hrest : s.cursor.rest = []) (hok : Parser.iterateUpTo round n a s = .ok c u) :
    u.cursor.rest = [] := by
  obtain ⟨t, ⟨ht, hnil⟩, hlast⟩ := exists_of_iterateUpTo_eq_ok
    (P := fun _ s => s.cursor.Flat ∧ s.cursor.rest = [])
    (fun hs hround => h _ _ _ _ hs.1 hs.2 hround) ⟨hs, hrest⟩ hok
  exact (h c t none u ht hnil hlast).2

theorem Stays.iterate (h : Stays round) {c u} (hs : s.cursor.Flat) (hrest : s.cursor.rest = [])
    (hok : Parser.iterate round a s = .ok c u) : u.cursor.rest = [] := by
  obtain ⟨n, hn⟩ := exists_iterate_eq round a s
  exact h.iterateUpTo hs hrest (hn ▸ hok)

/-- **A repetition mirrors itself if its rounds do.** -/
theorem iterateUpTo (hround : ∀ a a' s s', view a' = view a →
      Mirrors b b v k Inside (Option.map view) (round a) (round' a') s s') (hstays : Stays round) :
    ∀ (n n' : Nat) {a a' : α} {s s' : State}, view a' = view a → Mirrors b b v k Inside view
      (Parser.iterateUpTo round n a) (Parser.iterateUpTo round' n' a') s s'
  | 0, _, _, _, _, _, _ => ⟨fun _ _ _ hok => (by cases hok), fun _ _ _ hok => (by cases hok)⟩
  | n + 1, n', a, a', s, s', hview => by
    have hsame : ∀ n', Mirrors b b v k Inside view (Parser.iterateUpTo round (n + 1) a)
        (Parser.iterateUpTo round' (n' + 1) a') s s' := by
      intro n'
      refine .bind (hround a a' s s' hview) (fun r r' t t' hr => ?_)
        fun r t c u ht hok hu hnil => ?_
      · cases r <;> cases r'
        · exact .pure hview
        · cases hr
        · cases hr
        · exact iterateUpTo hround hstays n n' (Option.some.inj hr)
      · cases r with
        | none =>
          cases hok
          exact hu hnil
        | some c => exact hu (hstays.iterateUpTo ht hnil hok)
    cases n' with
    | zero => exact ⟨(hsame 0).flat, fun _ _ _ _ _ => .inl ⟨s', rfl⟩⟩
    | succ n' => exact hsame n'

theorem iterate {a' : α} (hround : ∀ a a' s s', view a' = view a →
      Mirrors b b v k Inside (Option.map view) (round a) (round' a') s s') (hstays : Stays round)
    (h : view a' = view a) :
    Mirrors b b v k Inside view (Parser.iterate round a) (Parser.iterate round' a') s s' := by
  obtain ⟨n, hn⟩ := exists_iterate_eq round a s
  obtain ⟨n', hn'⟩ := exists_iterate_eq round' a' s'
  exact .congr hn hn' (iterateUpTo hround hstays n n' h)

end Repetition

section Items

variable {item item' : List α → Parser α}

/-- Items between commas mirror themselves if each does. -/
theorem commaSeparated (hitem : ∀ items items' s s', items'.map view = items.map view →
      Mirrors true true v k Inside view (item items) (item' items') s s') :
    Mirrors true true v k Inside (List.map view) (Parser.commaSeparated item)
      (Parser.commaSeparated item') s s' := by
  have hstays : Stays fun items => do
      if ← Parser.accept .comma then
        let next ← item items
        return some (items ++ [next])
      else
        return none := by
    intro items s r t hs hrest hok
    dsimp only at hok
    rw [Parser.accept_bind, at?_of_kind_ne (by rw [hs.kind_eof hrest]; nofun)] at hok
    cases hok
    exact ⟨hs, hrest⟩
  refine .bind (hitem [] [] s s' rfl) (fun first first' t t' hfirst => .iterate
    (fun items items' u u' hitems => ?_) hstays
      (by rw [List.map_singleton, List.map_singleton, hfirst]))
    fun first t items u ht hok hu hnil => hu (hstays.iterate ht hnil hok)
  refine .accept nofun (fun _ r w hok hw => ?_) (fun w w' => ?_) (.pure rfl)
  · cases hok
    exact hw
  · refine .map (hitem items items' w w' hitems) fun next next' hnext => ?_
    simp only [Option.map_some, List.map_append, List.map_singleton, hitems, hnext]

/-- Whether an item follows is seen in the same way as long as something follows. -/
theorem separator {closer} :
    Mirrors true true v k Inside id (Parser.separator closer) (Parser.separator closer) s s' := by
  refine .accept nofun (fun _ r t hok ht => ?_) (fun t t' => .pure rfl) ⟨fun hs r t hok => ?_,
    fun hlike r t hok ht => ?_⟩ <;> cases hok
  · exact ht
  · exact hs
  · obtain ⟨-, -, hbroken, -⟩ := hlike.cons ht
    rw [Bool.true_and, Bool.true_and] at hbroken
    refine .inr ⟨_, _, rfl, ?_, hlike⟩
    dsimp only [id]
    rw [hbroken, hlike.kind ht]

/-- The items of a literal that does not end with the tokens. -/
theorem elements {closer} (hcloser : closer ≠ .eof)
    (hitem : ∀ items items' s s', items'.map view = items.map view →
      Mirrors true true v k Inside view (item items) (item' items') s s')
    (hneeds : ∀ items, Needs (item items)) :
    Mirrors true true v k Inside (List.map view) (Parser.elements closer item)
      (Parser.elements closer item') s s' := by
  have hfound : ∀ found found' : List α × Bool,
      found'.map (List.map view) id = found.map (List.map view) id →
        found'.1.map view = found.1.map view := fun _ _ h => (Prod.mk.inj h).1
  refine .map (.iterate (fun found found' s s' hsame => ?_)
    (fun found s r t hs hrest hok => ?_) rfl) hfound
  · obtain ⟨items, more⟩ := found
    obtain ⟨items', more'⟩ := found'
    obtain ⟨hitems, rfl⟩ : items'.map view = items.map view ∧ more' = more := Prod.mk.inj hsame
    cases more' with
    | false =>
      have hdone : Mirrors true true v k Inside
          (Option.map fun found : List α × Bool => found.map (List.map view) id)
          (Pure.pure none) (Pure.pure none) s s' := .pure rfl
      exact ⟨hdone.flat, hdone.alike⟩
    | true =>
      refine .at? hcloser (fun hs r t hok _ => (hneeds items).bind s hs r t hok)
        (fun _ => .pure rfl) fun _ => .bind (hitem items items' s s' hitems)
        (fun next next' t t' hnext => .map .separator fun more more' hmore => ?_) ?_
      · obtain rfl : more' = more := hmore
        simp only [Option.map_some, Prod.map_apply, List.map_append, List.map_singleton, hitems,
          hnext]
      · intro next t r u ht hok hu hnil
        obtain ⟨more, w, hseparator, hlast⟩ := exists_of_bind_eq_ok hok
        rw [Parser.separator, Parser.accept_bind,
          at?_of_kind_ne (by rw [ht.kind_eof hnil]; nofun)] at hseparator
        cases hseparator
        cases hlast
        exact hu hnil
  · obtain ⟨items, more⟩ := found
    cases more with
    | false =>
      cases hok
      exact ⟨hs, hrest⟩
    | true =>
      exact absurd hrest (Needs.at?_neg hcloser (hneeds items).bind s hs r t hok)

end Items

end Mirrors

end Parser

end Offside
