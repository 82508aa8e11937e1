import Offside.Proofs.Context

/-!
# Proofs/Tracking — parsers in a larger program

A parser is run on a program and on a larger one, from states that are alike (`Like`).  As long as
it stops before the end of its tokens it does the same in both (`Tracks`).  How much more is known
depends on what it reads (`Extent`): one that ends with a block and reported nothing may stop at the
end of the tokens, and so may a statement on a single line.

What a parser does by itself (`Passes`, `Halts`) and what it does in both programs (`Matches`,
`Echoes`) are proved side by side, since a parser that follows another starts where that one was
left.  A run that meets a bound is not compared with the other.
-/

namespace Offside

open List Cursor

variable {k : Token.Kind}

/-- Whether a token of the kind stands within a line. -/
def Token.Kind.inLine : Token.Kind → Bool
  | .newline | .indent | .dedent | .eof => Bool.false
  | _ => Bool.true

theorem Token.Kind.notMem_of_inLine (h : k.inLine) : k ∉ breakKinds ∧ k ≠ .eof := by
  refine ⟨fun hmem => ?_, fun hk => by cases hk ▸ h⟩
  simp only [breakKinds, mem_cons, not_mem_nil, or_false] at hmem
  obtain rfl | rfl | rfl := hmem <;> cases h

namespace Parser

/-- What surrounds a program that is part of a larger one: the tokens behind it, and the reports on
what is before it. -/
structure Whole where
  behind : List Token
  earlier : List Report

variable {α γ : Type} {w : Whole} {s s' t : State}

/-! ## States -/

/-- What is known of the token taken last; each form says more than the one before. -/
inductive Trail where
  | any
  /-- It closes a block in both programs, or in neither. -/
  | agreed
  /-- At the end of the tokens it closed a block, if nothing was reported. -/
  | solid
  /-- It neither ends a line nor closes a block. -/
  | inner

variable {m l : Trail}

namespace Trail

/-- How much is known. -/
def rank : Trail → Nat
  | .any => 0
  | .agreed => 1
  | .solid => 2
  | .inner => 3

/-- What is known by itself. -/
def Holds (w : Whole) (s : State) : Trail → Prop
  | .any | .agreed => True
  | .solid => w.behind ≠ [] → s.reports = [] → s.cursor.rest = [] →
      s.cursor.previousKind? = some .dedent
  | .inner => ∃ k ∈ s.cursor.previousKind?, k ≠ .newline ∧ k ≠ .dedent

theorem rank_le_inner : ∀ m : Trail, m.rank ≤ Trail.inner.rank
  | .any | .agreed | .solid | .inner => by decide

theorem eq_any_of_rank {m' : Trail} (h : m'.rank ≤ m.rank) (hm : m = .any) : m' = .any := by
  subst hm
  cases m' with
  | any => rfl
  | agreed | solid | inner => cases h

end Trail

/-- A state in good order, before tokens that end as those of a source text do. -/
structure Stands (w : Whole) (m : Trail) (s : State) : Prop where
  start : Behind w.behind
  settled : s.cursor.Settled
  ended : w.behind ≠ [] → s.cursor.Ended
  trail : m.Holds w s

/-- What a report says, without its place. -/
def Report.said (r : Report) : SyntaxFault × Bool := (r.fault, r.fatal)

/-- The same state in a larger program, which has more tokens behind and has already led to some
reports. -/
structure Like (w : Whole) (m : Trail) (s s' : State) :
    Prop where
  cursor : Continues w.behind s.cursor s'.cursor
  agrees : m ≠ .any → Agrees s.cursor s'.cursor
  reports : s'.reports.map Report.said = (s.reports ++ w.earlier).map Report.said

/-- The tokens do not end here, as far as one can see. -/
def Shown (w : Whole) (s : State) : Prop := s.cursor.rest ≠ [] ∨ w.behind = []

namespace Stands

variable {m' : Trail}

/-- What neither ends a line nor closes a block is not the last token. -/
theorem shown (h : Stands w .inner s) : Shown w s := by
  by_cases hnone : w.behind = []
  · exact .inr hnone
  · refine .inl fun hnil => ?_
    obtain ⟨k, hk, hnewline, hdedent⟩ := h.trail
    exact ((h.ended hnone).previous hnil k hk).elim hnewline hdedent

variable (h : Stands w m s)
include h

/-- A state that stands on a stricter trail stands on a looser one. -/
theorem lower (hm : m'.rank ≤ m.rank) : Stands w m' s := by
  refine ⟨h.start, h.settled, h.ended, ?_⟩
  cases m' with
  | any | agreed => trivial
  | solid =>
    cases m with
    | any => cases hm
    | agreed => exact absurd hm (by decide)
    | solid => exact h.trail
    | inner => exact fun hnone _ hnil => absurd (h.shown.resolve_right hnone) (not_not.mpr hnil)
  | inner =>
    cases m with
    | inner => exact h.trail
    | any | agreed | solid => exact absurd hm (by decide)

theorem reaches (hreaches : Reaches s.cursor t.cursor) : Stands w .any t :=
  ⟨h.start, h.settled.reaches hreaches,
    fun hne => (h.ended hne).reaches h.settled hreaches, trivial⟩

theorem rest_ne_nil (hkind : s.cursor.kind ≠ .eof) :
    s.cursor.rest ≠ [] := fun hnil => hkind (h.settled.rest_eq_nil_iff.mp hnil)

/-- The state behind a token. -/
theorem advance (hrest : s.cursor.rest ≠ []) : Stands w .agreed ⟨s.cursor.advance, s.reports⟩ :=
  ⟨h.start, h.settled.advance, fun hne => (h.ended hne).advance h.settled hrest, trivial⟩

end Stands

variable (h : Like w m s s')

include h in
theorem Like.advance (hs : Stands w m s) (hrest : s.cursor.rest ≠ []) :
    Like w l ⟨s.cursor.advance, s.reports⟩ ⟨s'.cursor.advance, s'.reports⟩ :=
  ⟨h.cursor.advance hs.start hrest, fun _ => h.cursor.agrees_advance hs.settled hrest, h.reports⟩

theorem Trail.holds_of_rank (h : m.rank ≤ 1) : m.Holds w s := by
  cases m with
  | any | agreed => trivial
  | solid | inner => exact absurd h (by decide)

theorem Stands.skipNewlines (h : Stands w m s) (hm : m.rank ≤ 1) :
    Stands w m ⟨s.cursor.skipNewlines, s.reports⟩ :=
  have hs := h.reaches (t := ⟨s.cursor.skipNewlines, s.reports⟩) (reaches_skipNewlines h.settled)
  ⟨hs.start, hs.settled, hs.ended, Trail.holds_of_rank hm⟩

theorem Stands.skipStatement (h : Stands w m s) (hl : l.rank ≤ 1)
    (reports : List Report) : Stands w l ⟨s.cursor.skipStatement, reports⟩ :=
  have hs := h.reaches (t := ⟨s.cursor.skipStatement, reports⟩) (reaches_skipStatement h.settled)
  ⟨hs.start, hs.settled, hs.ended, Trail.holds_of_rank hl⟩

include h

theorem Like.skipNewlines (hs : Stands w m s) :
    Like w m ⟨s.cursor.skipNewlines, s.reports⟩ ⟨s'.cursor.skipNewlines, s'.reports⟩ :=
  have hskip := h.cursor.skipNewlines hs.start hs.settled
  ⟨hskip.1, fun hm => hskip.2 (h.agrees hm), h.reports⟩

/-- A statement that is given up is skipped and reported alike. -/
theorem Like.skipStatement (hs : Stands w l s) (hshown : Shown w s) {r r'}
    (hfault : r'.fault = r.fault) :
    Like w m ⟨s.cursor.skipStatement, ⟨r, true⟩ :: s.reports⟩
      ⟨s'.cursor.skipStatement, ⟨r', true⟩ :: s'.reports⟩ := by
  have hskip := h.cursor.skipStatement hs.start hs.settled hs.ended hshown
  refine ⟨hskip.1, fun hm => hskip.2 (h.agrees hm), ?_⟩
  rw [map_cons, h.reports, cons_append, map_cons, Report.said, Report.said, hfault]

theorem Like.lower {m'} (hm : m = .any → m' = .any) : Like w m' s s' :=
  ⟨h.cursor, fun hne => h.agrees fun hany => hne (hm hany), h.reports⟩

omit h

/-- Nothing is reported of a missed block. -/
def Told (s t : State) : Prop := ∀ r ∈ t.reports, r ∈ s.reports ∨ r.fault ≠ .expectedBlock

theorem Told.refl (s : State) : Told s s := fun _ => .inl

theorem Told.trans {u} (h₁ : Told s t) (h : Told t u) : Told s u :=
  fun r hr => (h r hr).elim (h₁ r) .inr

/-! ## Results -/

/-- What a parser reads, as far as it matters where it ends. -/
inductive Extent where
  /-- A part of a statement, with whole blocks. -/
  | within
  /-- A part of a statement that may end with a block, but goes no further. -/
  | sealed
  /-- A statement that goes no further than a line break or a block. -/
  | whole
  /-- A statement, which may have further branches. -/
  | ending
  /-- What is left of a block. -/
  | closing
  /-- Statements one after another, with whole blocks. -/
  | inside

variable {e : Extent} {fault : SyntaxFault}

namespace Extent

/-- Whether it is a part of a statement or a statement. -/
def inLine : Extent → Bool
  | .within | .sealed | .whole | .ending => true
  | .closing | .inside => false

/-- Whether the line break of a single line may be read. -/
def ends : Extent → Bool
  | .whole | .ending => true
  | .within | .sealed | .closing | .inside => false

/-- Whether the end of the tokens may be taken for an end of what is read. -/
def seals : Extent → Bool
  | .sealed | .whole | .closing => true
  | .within | .ending | .inside => false

/-- Whether what comes first can be of the one extent, and the whole of the other. -/
def before : Extent → Extent → Bool
  | .sealed, .within | .sealed, .sealed | .sealed, .whole | .sealed, .ending => true
  | .within, .within => true
  | .closing, _ => false
  | _, .inside => true
  | _, _ => false

/-- The blocks that are open before and behind. -/
def Keeps (s t : State) : Extent → Prop
  | .within | .sealed | .whole | .ending | .inside =>
    ∀ depth, Closes depth s.cursor.rest → Closes depth t.cursor.rest
  | .closing => ∀ depth, Closes (depth + 1) s.cursor.rest → Closes depth t.cursor.rest ∧
      (t.cursor.rest = [] → t.cursor.previousKind? = some .dedent)

theorem keeps_iff (he : e ≠ .closing) :
    e.Keeps s t ↔ ∀ depth, Closes depth s.cursor.rest → Closes depth t.cursor.rest := by
  cases e with
  | within | sealed | whole | ending | inside => exact Iff.rfl
  | closing => exact absurd rfl he

theorem ne_closing_of_before {e₁ : Extent} (h : e₁.before e) : e₁ ≠ .closing ∧ e ≠ .closing := by
  cases e₁ with
  | closing => cases h
  | within | sealed | whole | ending | inside =>
    refine ⟨nofun, ?_⟩
    rintro rfl
    cases h

/-- What is left of a single line, on which no block was missed. -/
def Lines (s t : State) : Extent → Prop
  | .within | .sealed => Line s.cursor.rest → Line t.cursor.rest ∧ Told s t
  | .whole | .ending =>
    Line s.cursor.rest → (Line t.cursor.rest ∨ t.cursor.rest = []) ∧ Told s t
  | .closing | .inside => True

/-- What was read came to an end of its own, wherever that is. -/
def Seals (s t : State) : Extent → Prop
  | .sealed | .whole => t.reports = []
  | .closing => t.reports = [] ∧ ∃ depth, Closes (depth + 1) s.cursor.rest
  | .within | .ending | .inside => False

end Extent

/-- From here a parser has come there, by itself. -/
structure Passes (w : Whole) (e : Extent) (m : Trail) (s t : State) : Prop where
  stands : Stands w m t
  rest : s.cursor.rest = [] → t.cursor.rest = []
  reports : s.reports <:+ t.reports
  keeps : t.reports = [] → e.Keeps s t
  lines : e.Lines s t

/-- Where nothing was reported, nothing had been. -/
theorem Passes.clean (h : Passes w e m s t) (hclean : t.reports = []) : s.reports = [] :=
  suffix_nil.mp (hclean ▸ h.reports)

/-- From here a parser was refused there, by itself.  On a single line it has missed a block if it
is behind the line break, and only then. -/
structure Halts (w : Whole) (e : Extent) (s : State) (fault : SyntaxFault) (t : State) : Prop where
  stands : Stands w .any t
  rest : s.cursor.rest = [] → t.cursor.rest = []
  reports : s.reports <:+ t.reports
  line : e.inLine → Line s.cursor.rest → Told s t ∧
    (Line t.cursor.rest ∧ fault ≠ .expectedBlock ∨ t.cursor.rest = [] ∧ fault = .expectedBlock)

/-- It is refused where it stands, for something else. -/
theorem Halts.here (hs : Stands w m s) (hfault : fault ≠ .expectedBlock) : Halts w e s fault s :=
  ⟨hs.lower (Nat.zero_le _), id, suffix_refl _, fun _ hline => ⟨.refl s, .inl ⟨hline, hfault⟩⟩⟩

/-- The view of a result that sees nothing of it. -/
abbrev blind : α → Unit := fun _ => ()

/-- A result is alike in the larger program. -/
def Matches (w : Whole) (m : Trail) (view : α → γ) (a : α)
    (t : State) : EStateM.Result Halt State α → Prop
  | .ok a' t' => view a' = view a ∧ Like w m t t'
  | .error (.refused _) _ => False
  | .error .endless _ => True

/-- A refusal is alike in the larger program. -/
def Echoes (w : Whole) (m : Trail) (fault : SyntaxFault)
    (t : State) : EStateM.Result Halt State α → Prop
  | .ok _ _ => False
  | .error (.refused r) t' => r.fault = fault ∧ Like w m t t'
  | .error .endless _ => True

/-- Where the result shows in the larger program. -/
def Shows (w : Whole) (e : Extent) (s t : State) : Prop :=
  Shown w t ∨ e.Seals s t ∨ e.ends ∧ Line s.cursor.rest

/-- Where a refusal shows in the larger program. -/
def Fails (w : Whole) (e : Extent) (s t : State) : Prop :=
  Shown w t ∨ e.inLine ∧ Line s.cursor.rest ∧ ∀ u ∈ w.behind.head?, u.kind ≠ .indent

/-- From states that are alike, two parsers do the same.  What the first one does by itself is said
with it, and nothing is said of a run that meets a bound. -/
structure Tracks (w : Whole) (e : Extent) (m m' : Trail)
    (view : α → γ) (p p' : Parser α) (s s' : State) : Prop where
  ok : ∀ {a t}, p s = .ok a t → Stands w m s → Passes w e m' s t ∧
    (Like w m s s' → Shows w e s t → Matches w m' view a t (p' s'))
  refused : ∀ {r t}, p s = .error (.refused r) t → Stands w m s → Halts w e s r.fault t ∧
    (Like w m s s' → Fails w e s t → Echoes w m r.fault t (p' s'))

/-! ## One parser after another -/

section Sequence

variable {e₁ : Extent} {m₁ m' : Trail} {u : State}

theorem Shown.of_passes (h : Shown w u) (hpasses : Passes w e m t u) :
    Shown w t := h.imp_left fun hne hnil => hne (hpasses.rest hnil)

theorem Shown.of_halts (h : Shown w u) (hhalts : Halts w e t fault u) : Shown w t :=
  h.imp_left fun hne hnil => hne (hhalts.rest hnil)

variable (h₁ : Passes w e₁ m₁ s t) {β : Type} {q' : α → Parser β} {r' : EStateM.Result Halt State α}
  {view : α → γ} {p' p : Parser α} {a a' : α}
include h₁

/-- A parser that passes after another passes from where that one began. -/
theorem Passes.trans (h : Passes w e m t u) (he : e₁.before e) : Passes w e m s u := by
  refine ⟨h.stands, h.rest ∘ h₁.rest, h₁.reports.trans h.reports, fun hclean => ?_, ?_⟩
  · obtain ⟨hne₁, hne⟩ := Extent.ne_closing_of_before he
    have hkeeps := (Extent.keeps_iff hne).mp (h.keeps hclean)
    have hkeeps₁ := (Extent.keeps_iff hne₁).mp (h₁.keeps (h.clean hclean))
    exact (Extent.keeps_iff hne).mpr fun depth => hkeeps depth ∘ hkeeps₁ depth
  · have hlines := h.lines
    have hlines₁ := h₁.lines
    cases e with
    | closing | inside => trivial
    | within | sealed | whole | ending =>
      cases e₁ with
      | sealed | within =>
        intro hline
        obtain ⟨hline, htold₁⟩ := hlines₁ hline
        obtain ⟨hline, htold⟩ := hlines hline
        exact ⟨hline, htold₁.trans htold⟩
      | whole | ending | closing | inside => cases he

/-- Before what goes on, a single line is not at its end. -/
theorem Passes.line (he : e₁.before e) (hin : e.inLine)
    (hline : Line s.cursor.rest) : Line t.cursor.rest ∧ Told s t := by
  have hlines := h₁.lines
  cases e₁ with
  | sealed | within => exact hlines hline
  | whole | ending | closing | inside =>
    cases e with
    | inside => cases hin
    | within | sealed | whole | ending | closing => cases he

omit h₁

theorem Extent.inLine_of_ends (h : e.ends) : e.inLine := by
  cases e with
  | whole | ending => rfl
  | within | sealed | closing | inside => cases h

/-- If the results of two parsers in a row show, that of the first does. -/
theorem Shows.first (h : Shows w e s u) (h₁ : Passes w e₁ m₁ s t)
    (h₂ : Passes w e m t u) (he : e₁.before e) : Shows w e₁ s t := by
  rcases h with hshown | hseals | ⟨hends, hline⟩
  · exact .inl (hshown.of_passes h₂)
  · cases e with
    | sealed | whole =>
      cases e₁ with
      | sealed => exact .inr (.inl (h₂.clean hseals))
      | within | whole | ending | closing | inside => cases he
    | closing => cases e₁ <;> cases he
    | within | ending | inside => cases hseals
  · exact .inl (.inl (h₁.line he (Extent.inLine_of_ends hends) hline).1.ne_nil)

theorem Shows.second (h : Shows w e s u) (h₁ : Passes w e₁ m₁ s t)
    (he : e₁.before e) : Shows w e t u := by
  rcases h with hshown | hseals | ⟨hends, hline⟩
  · exact .inl hshown
  · cases e with
    | sealed | whole => exact .inr (.inl hseals)
    | closing => cases e₁ <;> cases he
    | within | ending | inside => cases hseals
  · exact .inr (.inr ⟨hends, (h₁.line he (Extent.inLine_of_ends hends) hline).1⟩)

theorem Extent.inLine_of_before (he : e₁.before e) (h : e.inLine) : e₁.inLine := by
  cases e₁ with
  | within | sealed | whole | ending => rfl
  | closing | inside =>
    cases e with
    | inside => cases h
    | within | sealed | whole | ending | closing => cases he

theorem Halts.head (h : Halts w e t fault u)
    (h₁ : Passes w e₁ m₁ s t) (he : e₁.before e) : Halts w e s fault u :=
  ⟨h.stands, h.rest ∘ h₁.rest, h₁.reports.trans h.reports, fun hin hline =>
    have hline₁ := h₁.line he hin hline
    (h.line hin hline₁.1).imp_left hline₁.2.trans⟩

theorem Halts.before (h : Halts w e₁ s fault t) (he : e₁.before e) : Halts w e s fault t :=
  ⟨h.stands, h.rest, h.reports, fun hin => h.line (Extent.inLine_of_before he hin)⟩

theorem Fails.before (h : Fails w e s t) (he : e₁.before e) : Fails w e₁ s t :=
  h.imp_right fun ⟨hin, hline⟩ => ⟨Extent.inLine_of_before he hin, hline⟩

theorem Fails.first (h : Fails w e s u)
    (h₁ : Passes w e₁ m₁ s t) (h₂ : Halts w e t fault u) (he : e₁.before e) :
    Shown w t := by
  rcases h with hshown | ⟨hin, hline, -⟩
  · exact hshown.of_halts h₂
  · exact .inl (h₁.line he hin hline).1.ne_nil

theorem Fails.second (h : Fails w e s u) (h₁ : Passes w e₁ m₁ s t)
    (he : e₁.before e) : Fails w e t u :=
  h.imp_right fun ⟨hin, hline, hhead⟩ => ⟨hin, (h₁.line he hin hline).1, hhead⟩

theorem Matches.imp {δ : Type} {view' : α → δ} (h : Matches w m view a t r')
    (hview : ∀ {a'}, view a' = view a → view' a' = view' a)
    (hlike : ∀ t', Like w m t t' → Like w m' t t') :
    Matches w m' view' a t r' := by
  match r', h with
  | .ok _ t', h => exact ⟨hview h.1, hlike t' h.2⟩
  | .error (.refused _) _, h => exact h.elim
  | .error .endless _, _ => trivial

theorem Matches.like {a' t'} (h : Matches w m view a t r') (hr : r' = .ok a' t') :
    Like w m t t' := by
  subst hr
  exact h.2

theorem Echoes.lower (h : Echoes w m₁ fault t r') (hm : m₁ = .any → m = .any) :
    Echoes w m fault t r' := by
  match r', h with
  | .error (.refused _) _, h => exact ⟨h.1, h.2.lower hm⟩
  | .error .endless _, _ => trivial

theorem recover_of_endless (h : p s = .error .endless t) : recover p s = .error .endless t := by
  rw [recover, h]

/-- A parser that recovers succeeded, or was refused and skipped the statement. -/
theorem recover_cases {found} (h : recover p s = .ok found t) :
    (∃ a, p s = .ok a t ∧ found = some a) ∨ ∃ r u, p s = .error (.refused r) u ∧ found = none ∧
      t = ⟨u.cursor.skipStatement, ⟨r, true⟩ :: u.reports⟩ := by
  match hr : p s with
  | .ok a u =>
    rw [recover_of_ok hr] at h
    cases h
    exact .inl ⟨a, rfl, rfl⟩
  | .error (.refused r) u =>
    rw [recover_of_refused hr] at h
    cases h
    exact .inr ⟨r, u, rfl, rfl, rfl⟩
  | .error .endless u =>
    rw [recover_of_endless hr] at h
    cases h

/-- A statement that is refused is given up. -/
theorem recover_ne_refused {r} : recover p s ≠ .error (.refused r) t := by
  unfold recover
  split
  · nofun
  · nofun
  · nofun

theorem bind_eq_error_cases {q : α → Parser β} {halt : Halt}
    (h : (p >>= q) s = .error halt t) :
    p s = .error halt t ∨ ∃ a u, p s = .ok a u ∧ q a u = .error halt t := by
  match hr : p s with
  | .ok a u => exact .inr ⟨a, u, rfl, (bind_of_ok hr).symm.trans h⟩
  | .error halt u =>
    rw [bind_of_error hr] at h
    cases h
    exact .inl rfl

/-- A parser that matches goes on with what it found. -/
theorem Matches.bind
    {R : EStateM.Result Halt State β → Prop} (h : Matches w m view a t (p' s'))
    (hendless : ∀ t', R (.error .endless t'))
    (hq : ∀ a' t', view a' = view a → Like w m t t' → R (q' a' t')) :
    R ((p' >>= q') s') := by
  match hr : p' s' with
  | .ok a' t' =>
    rw [hr] at h
    rw [bind_of_ok hr]
    exact hq a' t' h.1 h.2
  | .error (.refused r') t' =>
    rw [hr] at h
    exact h.elim
  | .error .endless t' =>
    rw [bind_of_error hr]
    exact hendless t'

theorem Echoes.bind (h : Echoes w m fault t (p' s')) : Echoes w m fault t ((p' >>= q') s') := by
  match hr : p' s' with
  | .ok a' t' =>
    rw [hr] at h
    exact h.elim
  | .error (.refused r') t' =>
    rw [hr] at h
    rw [bind_of_error hr]
    exact h
  | .error .endless t' =>
    rw [bind_of_error hr]
    trivial

/-- A parser that matches need not recover. -/
theorem Matches.recover (h : Matches w m view a t (p' s')) :
    Matches w m Option.isSome (some a) t (recover p' s') := by
  match hr : p' s' with
  | .ok a' t' =>
    rw [hr] at h
    rw [recover_of_ok hr]
    exact ⟨rfl, h.2⟩
  | .error (.refused r') t' =>
    rw [hr] at h
    exact h.elim
  | .error .endless t' =>
    rw [recover_of_endless hr]
    trivial

/-- A refusal that is echoed is recovered from alike. -/
theorem Echoes.recover {r : Refusal} (h : Echoes w m r.fault t (p' s'))
    (hlike : ∀ {r' : Refusal} {t'}, Like w m t t' → r'.fault = r.fault →
      Like w m' u ⟨t'.cursor.skipStatement, ⟨r', true⟩ :: t'.reports⟩) :
    Matches w m' Option.isSome none u (recover p' s') := by
  match hr : p' s' with
  | .ok a' t' =>
    rw [hr] at h
    exact h.elim
  | .error (.refused r') t' =>
    rw [hr] at h
    rw [recover_of_refused hr]
    exact ⟨rfl, hlike h.2 h.1⟩
  | .error .endless t' =>
    rw [recover_of_endless hr]
    trivial

theorem Shows.shown (h : Shows w .inside s t) : Shown w t := by
  rcases h with hshown | hnone | hends
  · exact hshown
  · exact hnone.elim
  · cases hends.1

/-- What shows in the larger program begins before a token, unless it may be taken for an end. -/
theorem Shows.begins (h : Shows w e s t) (hpasses : Passes w e m s t)
    (he : e.seals → Shown w s) : Shown w s := by
  rcases h with hshown | hseals | ⟨-, hline⟩
  · exact hshown.of_passes hpasses
  · cases e with
    | sealed | whole | closing => exact he rfl
    | within | ending | inside => exact hseals.elim
  · exact .inl hline.ne_nil

theorem Fails.begins (h : Fails w e s t) (hhalts : Halts w e s fault t) :
    Shown w s := by
  rcases h with hshown | ⟨-, hline, -⟩
  · exact hshown.of_halts hhalts
  · exact .inl hline.ne_nil

theorem Passes.skipNewlines (hs : Stands w m s) (hm : m.rank ≤ 1) :
    Passes w .inside m s ⟨s.cursor.skipNewlines, s.reports⟩ :=
  ⟨hs.skipNewlines hm, rest_skipNewlines_eq_nil, suffix_refl _,
    fun _ _ h => h.skipNewlines hs.settled, trivial⟩

end Sequence

namespace Tracks

variable {δ β : Type} {e₁ : Extent} {m₁ m₂ m' : Trail} {view' : β → δ} {p p' q : Parser α}
  {q' : α → Parser β} {view : α → γ} {a a' : α}

/-- **A sequence tracks itself if its parts do.** -/
theorem bind_of {v : α → γ} {q : α → Parser β} (he : e₁.before e) (hm : m₁ = .any → m = .any)
    (hp : Tracks w e₁ m m₁ v p p' s s')
    (hq : ∀ a a' t t', p s = .ok a t → v a' = v a →
      Tracks w e m₁ m' view' (q a) (q' a') t t') :
    Tracks w e m m' view' (p >>= q) (p' >>= q') s s' := by
  refine ⟨fun hr hs => ?_, fun hr hs => ?_⟩
  · obtain ⟨a, t, hok, hrest⟩ := exists_of_bind_eq_ok hr
    obtain ⟨h₁, hfirst⟩ := hp.ok hok hs
    have h₂ := ((hq a a t t hok rfl).ok hrest h₁.stands).1
    refine ⟨h₁.trans h₂ he, fun hlike hshows => ?_⟩
    exact (hfirst hlike (hshows.first h₁ h₂ he)).bind (fun _ => trivial) fun a' t' hview hlike =>
      ((hq a a' t t' hok hview).ok hrest h₁.stands).2 hlike (hshows.second h₁ he)
  · rcases bind_eq_error_cases hr with hrefused | ⟨a, t, hok, hrest⟩
    · obtain ⟨h₁, hfirst⟩ := hp.refused hrefused hs
      exact ⟨h₁.before he, fun hlike hfails => (hfirst hlike (hfails.before he)).bind⟩
    · obtain ⟨h₁, hfirst⟩ := hp.ok hok hs
      have h₂ := ((hq a a t t hok rfl).refused hrest h₁.stands).1
      refine ⟨h₂.head h₁ he, fun hlike hfails => ?_⟩
      exact (hfirst hlike (.inl (hfails.first h₁ h₂ he))).bind (fun _ => trivial)
        fun a' t' hview hlike => (((hq a a' t t' hok hview).refused hrest h₁.stands).2 hlike
          (hfails.second h₁ he)).lower hm

/-- Something is known of where the first part ends. -/
theorem bind {v : α → γ} {q : α → Parser β} (he : (e₁.before e && m₁.rank != 0) = true)
    (hp : Tracks w e₁ m m₁ v p p' s s') (hq : ∀ a a' t t', p s = .ok a t →
      v a' = v a → Tracks w e m₁ m' view' (q a) (q' a') t t') :
    Tracks w e m m' view' (p >>= q) (p' >>= q') s s' :=
  bind_of (Bool.and_eq_true_iff.mp he).1 (fun h => by simp [h, Trail.rank] at he) hp hq

/-- The same, where nothing else is asked of the first part. -/
theorem seq {v : α → γ} {q : α → Parser β} (he : (e₁.before e && m₁.rank != 0) = true)
    (hp : Tracks w e₁ m m₁ v p p' s s')
    (hq : ∀ {a a' t t'}, Tracks w e m₁ m' view' (q a) (q' a') t t') :
    Tracks w e m m' view' (p >>= q) (p' >>= q') s s' :=
  bind he hp fun _ _ _ _ _ _ => hq

/-! ## Weaker statements -/

/-- What is done says as much in other words. -/
theorem imp (h : Tracks w e₁ m₁ m' view p p' s s') (hstands : Stands w m s → Stands w m₁ s)
    (hlike : ∀ s', Like w m s s' → Like w m₁ s s')
    (hpasses : ∀ t, Passes w e₁ m' s t → Passes w e m₂ s t ∧ (Shows w e s t → Shows w e₁ s t))
    (hlike' : ∀ t t', Like w m' t t' → Like w m₂ t t')
    (hm : m₁ = .any → m = .any) (hin : e.inLine → e₁.inLine) :
    Tracks w e m m₂ view p p' s s' := by
  refine ⟨fun hr hs => ?_, fun hr hs => ?_⟩
  · obtain ⟨h₁, h⟩ := h.ok hr (hstands hs)
    obtain ⟨h₂, hfirst⟩ := hpasses _ h₁
    exact ⟨h₂, fun hl hshows => (h (hlike s' hl) (hfirst hshows)).imp id (hlike' _)⟩
  · obtain ⟨h₁, h⟩ := h.refused hr (hstands hs)
    exact ⟨⟨h₁.stands, h₁.rest, h₁.reports, fun he => h₁.line (hin he)⟩, fun hl hfails =>
      (h (hlike s' hl) (hfails.imp_right (.imp_left hin))).lower hm⟩

/-- Only what a parser does where it is run matters. -/
theorem congr {q'} (hp : p s = q s) (hp' : p' s' = q' s') (h : Tracks w e m m' view q q' s s') :
    Tracks w e m m' view p p' s s' :=
  ⟨hp ▸ hp' ▸ h.ok, hp ▸ hp' ▸ h.refused⟩

/-- More is known before. -/
theorem raise (h : Tracks w e m₁ m' view p p' s s') (hle : m₁.rank ≤ m.rank)
    (hm : m₁ = .any → m = .any) : Tracks w e m m' view p p' s s' :=
  h.imp (·.lower hle) (fun _ hlike => hlike.lower (Trail.eq_any_of_rank hle))
    (fun _ hp => ⟨hp, id⟩) (fun _ _ => id) hm id

/-- Less is said of what is behind. -/
theorem lower (h : Tracks w e m m₁ view p p' s s') (hle : m'.rank ≤ m₁.rank) :
    Tracks w e m m' view p p' s s' :=
  h.imp id (fun _ => id)
    (fun _ hp => ⟨⟨hp.stands.lower hle, hp.rest, hp.reports, hp.keeps, hp.lines⟩, id⟩)
    (fun _ _ hlike => hlike.lower (Trail.eq_any_of_rank hle)) id id

/-- Another extent, where it says no more. -/
theorem extend (h : Tracks w e₁ m m' view p p' s s')
    (hpasses : ∀ t, Passes w e₁ m' s t → Passes w e m' s t ∧
      (Shows w e s t → Shows w e₁ s t)) (hin : e.inLine → e₁.inLine) :
    Tracks w e m m' view p p' s s' :=
  h.imp id (fun _ => id) hpasses (fun _ _ => id) id hin

/-- What ends inside a line goes no further than it shows. -/
theorem sealed (h : Tracks w .within m .inner view p p' s s') :
    Tracks w .sealed m .inner view p p' s s' :=
  h.extend (fun _ hp => ⟨⟨hp.stands, hp.rest, hp.reports, hp.keeps, hp.lines⟩,
    fun _ => .inl hp.stands.shown⟩) fun _ => rfl

theorem within (h : Tracks w .sealed m m' view p p' s s') : Tracks w .within m m' view p p' s s' :=
  h.extend (fun _ hp => ⟨⟨hp.stands, hp.rest, hp.reports, hp.keeps, hp.lines⟩,
    .imp_right (.imp_left False.elim)⟩) fun _ => rfl

/-- A part of a statement may be all of it. -/
theorem whole (h : Tracks w .sealed m m' view p p' s s') : Tracks w .whole m m' view p p' s s' :=
  h.extend (fun _ hp => ⟨⟨hp.stands, hp.rest, hp.reports, hp.keeps,
    fun hl => (hp.lines hl).imp_left .inl⟩, by
    rintro (hshown | hseals | ⟨-, hline⟩)
    · exact .inl hshown
    · exact .inr (.inl hseals)
    · exact .inl (.inl (hp.lines hline).1.ne_nil)⟩) fun _ => rfl

theorem ending_of_whole (h : Tracks w .whole m m' view p p' s s') :
    Tracks w .ending m m' view p p' s s' :=
  h.extend (fun _ hp => ⟨⟨hp.stands, hp.rest, hp.reports, hp.keeps, hp.lines⟩, by
    rintro (hshown | hseals | hends)
    · exact .inl hshown
    · exact hseals.elim
    · exact .inr (.inr ⟨rfl, hends.2⟩)⟩) fun _ => rfl

theorem ending (h : Tracks w .within m m' view p p' s s') : Tracks w .ending m m' view p p' s s' :=
  h.extend (fun _ hp => ⟨⟨hp.stands, hp.rest, hp.reports, hp.keeps,
    fun hl => (hp.lines hl).imp_left .inl⟩, by
    rintro (hshown | hseals | ⟨-, hline⟩)
    · exact .inl hshown
    · exact hseals.elim
    · exact .inl (.inl (hp.lines hline).1.ne_nil)⟩) fun _ => rfl

/-! ## Looking -/

theorem pure (he : Extent.sealed.before e) (hview : view a' = view a) :
    Tracks w e m m view (Pure.pure a) (Pure.pure a') s s' := by
  refine ⟨fun hr hs => ?_, fun hr => by cases hr⟩
  cases hr
  refine ⟨⟨hs, id, suffix_refl _, fun _ => ?_, ?_⟩, fun hlike _ => ⟨hview, hlike⟩⟩
  · exact (Extent.keeps_iff (Extent.ne_closing_of_before he).2).mpr fun _ => id
  · cases e with
    | within | sealed => exact fun hline => ⟨hline, .refl s⟩
    | whole | ending => exact fun hline => ⟨.inl hline, .refl s⟩
    | closing | inside => trivial

theorem given {q} (h : Tracks w e m m' view' (q a) (q' a') s s') :
    Tracks w e m m' view' (Pure.pure a >>= q) (Pure.pure a' >>= q') s s' :=
  ⟨h.ok, h.refused⟩

/-- A value is made of the one that was read. -/
theorem map {f f' : α → β} (h : Tracks w e m m' view p p' s s')
    (hf : ∀ a a', view a' = view a → view' (f' a') = view' (f a)) :
    Tracks w e m m' view' (p >>= fun a => Pure.pure (f a))
      (p' >>= fun a => Pure.pure (f' a)) s s' := by
  refine ⟨fun hr hs => ?_, fun hr hs => ?_⟩
  · obtain ⟨a, t, hok, hpure⟩ := exists_of_bind_eq_ok hr
    cases hpure
    obtain ⟨h₁, h⟩ := h.ok hok hs
    exact ⟨h₁, fun hlike hshows => (h hlike hshows).bind (fun _ => trivial)
      fun a' _ hview hlike => ⟨hf a a' hview, hlike⟩⟩
  · rcases bind_eq_error_cases hr with hrefused | ⟨_, _, -, hpure⟩
    · obtain ⟨h₁, h⟩ := h.refused hrefused hs
      exact ⟨h₁, fun hlike hfails => (h hlike hfails).bind⟩
    · cases hpure

theorem refuseAt {token token'} (hfault : fault ≠ .expectedBlock) :
    Tracks w e m m' view (Parser.refuseAt token fault) (Parser.refuseAt token' fault) s s' := by
  refine ⟨fun hr => (by cases hr), fun hr hs => ?_⟩
  cases hr
  exact ⟨.here hs hfault, fun hlike _ => ⟨rfl, hlike⟩⟩

theorem refuse (hfault : fault ≠ .expectedBlock) :
    Tracks w e m m' view (Parser.refuse fault) (Parser.refuse fault) s s' := by
  refine ⟨fun hr => (by cases hr), fun hr hs => ?_⟩
  cases hr
  exact ⟨.here hs hfault, fun hlike _ => ⟨rfl, hlike⟩⟩

theorem endless : Tracks w e m m' view Parser.endless p' s s' :=
  ⟨fun hr => (by cases hr), fun hr => (by cases hr)⟩

/-- A bound that is met in the larger program tells nothing. -/
theorem endless_right (h : Tracks w e m m' view p p' s s') :
    Tracks w e m m' view p Parser.endless s s' :=
  ⟨fun hr hs => ⟨(h.ok hr hs).1, fun _ _ => trivial⟩,
    fun hr hs => ⟨(h.refused hr hs).1, fun _ _ => trivial⟩⟩

/-- A report is made alike. -/
theorem report {token token'} (hfault : fault ≠ .expectedBlock) :
    Tracks w .sealed m m blind (Parser.report token fault) (Parser.report token' fault) s s' := by
  refine ⟨fun hr hs => ?_, fun hr => by cases hr⟩
  cases hr
  refine ⟨⟨⟨hs.start, hs.settled, hs.ended, ?_⟩, id, suffix_cons _ _, nofun,
    fun hline => ⟨hline, fun r hr => ?_⟩⟩, fun hlike _ => ⟨rfl, hlike.cursor, hlike.agrees, ?_⟩⟩
  · cases m with
    | any | agreed => trivial
    | solid => exact fun _ hclean => absurd hclean (cons_ne_nil _ _)
    | inner => exact hs.trail
  · rcases mem_cons.mp hr with rfl | hr
    · exact .inr hfault
    · exact .inl hr
  · rw [map_cons, hlike.reports, cons_append, map_cons]
    rfl

theorem ite {c : Prop} [Decidable c] {q'} (hp : c → Tracks w e m m' view p p' s s')
    (hq : ¬c → Tracks w e m m' view q q' s s') :
    Tracks w e m m' view (if c then p else q) (if c then p' else q') s s' := by
  split
  · next h => exact hp h
  · next h => exact hq h

/-- What is seen before a token is the same in both programs. -/
theorem see {f : Cursor → β} {g g' : β → Parser α} (he : e.seals → Stands w m s → Shown w s)
    (hf : Stands w m s → Like w m s s' → Shown w s → f s'.cursor = f s.cursor)
    (h : Tracks w e m m' view (g (f s.cursor)) (g' (f s.cursor)) s s') :
    Tracks w e m m' view (Parser.see f >>= g) (Parser.see f >>= g') s s' := by
  have hsame (hs : Stands w m s) (hlike : Like w m s s') (hshown : Shown w s) :
      (Parser.see f >>= g') s' = g' (f s.cursor) s' := congrArg (g' · s') (hf hs hlike hshown)
  refine ⟨fun hr hs => ?_, fun hr hs => ?_⟩
  · obtain ⟨h₁, h⟩ := h.ok hr hs
    refine ⟨h₁, fun hlike hshows => ?_⟩
    rw [hsame hs hlike (hshows.begins h₁ fun hseals => he hseals hs)]
    exact h hlike hshows
  · obtain ⟨h₁, h⟩ := h.refused hr hs
    refine ⟨h₁, fun hlike hfails => ?_⟩
    rw [hsame hs hlike (hfails.begins h₁)]
    exact h hlike hfails

theorem kind {g g'} (he : e.seals → Stands w m s → Shown w s)
    (h : Tracks w e m m' view (g s.cursor.kind) (g' s.cursor.kind) s s') :
    Tracks w e m m' view (Parser.kind >>= g) (Parser.kind >>= g') s s' :=
  see he (fun hs hlike => hlike.cursor.kind hs.settled.final) h

theorem at? {q'} (he : e.seals → Stands w m s → Shown w s)
    (hp : s.cursor.kind = k → Tracks w e m m' view p p' s s')
    (hq : s.cursor.kind ≠ k → Tracks w e m m' view q q' s s') :
    Tracks w e m m' view (Parser.at? k >>= fun b => if b = true then p else q)
      (Parser.at? k >>= fun b => if b = true then p' else q') s s' :=
  see he (fun hs hlike hshown => by rw [hlike.cursor.kind hs.settled.final hshown])
    (ite (fun h => hp (of_decide_eq_true h)) fun h => hq fun hk => h (decide_eq_true hk))

/-- What is refused at the end of the tokens tells nothing. -/
theorem of_refused {refusal : Refusal} (hshown : ¬ Shown w s)
    (h : Stands w m s → p s = .error (.refused refusal) s)
    (hfault : refusal.fault ≠ .expectedBlock) :
    Tracks w e m m' view p p' s s' := by
  refine ⟨fun hr hs => ?_, fun hr hs => ?_⟩ <;> cases hr.symm.trans (h hs)
  exact ⟨.here hs hfault, fun _ hfails => absurd (hfails.begins (.here hs hfault)) hshown⟩

/-! ## Taking -/

/-- A token of a line that is taken is the same up to its place. -/
theorem take (hkind : s.cursor.kind ∉ breakKinds) (heof : s.cursor.kind ≠ .eof) :
    Tracks w .sealed m .inner Token.bare Parser.take Parser.take s s' := by
  refine ⟨fun hr hs => ?_, fun hr => by cases hr⟩
  cases hr
  have hrest := hs.rest_ne_nil heof
  have hnext := hs.advance hrest
  have hline (h : Line s.cursor.rest) : Line s.cursor.advance.rest ∧
    Told s ⟨s.cursor.advance, s.reports⟩ := ⟨h.advance hkind, .refl s⟩
  rw [breakKinds, mem_cons, mem_cons, mem_singleton, not_or, not_or] at hkind
  exact ⟨⟨⟨hnext.start, hnext.settled, hnext.ended, s.cursor.kind,
    previousKind?_advance hrest hs.settled.kind_ne, hkind.1, hkind.2.2⟩,
    fun hnil => absurd hnil hrest, suffix_refl _,
    fun _ _ h => h.advance_of_kind hrest hkind.2.1 hkind.2.2, hline⟩,
    fun hlike _ => ⟨hlike.cursor.current hrest, hlike.advance hs hrest⟩⟩

/-- The same, where the kind of the token was seen. -/
theorem takeKind (hkind : s.cursor.kind = k) (hk : k.inLine) :
    Tracks w .sealed m .inner Token.bare Parser.take Parser.take s s' :=
  take (hkind ▸ (Token.Kind.notMem_of_inLine hk).1) (hkind ▸ (Token.Kind.notMem_of_inLine hk).2)

theorem expect (hk : k.inLine) (hfault : fault ≠ .expectedBlock) :
    Tracks w .sealed m .inner Token.bare (Parser.expect k fault) (Parser.expect k fault) s s' :=
  sealed (at? nofun (fun h => (takeKind h hk).within) fun _ => refuse hfault)

/-- A token is taken if it comes next. -/
theorem accept {q'} (he : e.seals → Stands w m s → Shown w s) (hbefore : Extent.sealed.before e)
    (hk : k.inLine) (hp : ∀ t t', Tracks w e .inner m' view p p' t t')
    (hq : Tracks w e m m' view q q' s s') :
    Tracks w e m m' view (Parser.accept k >>= fun b => if b = true then p else q)
      (Parser.accept k >>= fun b => if b = true then p' else q') s s' := by
  rw [accept_bind, accept_bind]
  exact at? he (fun h => bind_of hbefore (by simp) (takeKind h hk) fun _ _ t t' _ _ => hp t t')
    fun _ => hq

/-- A keyword is split off alike. -/
theorem splitLeadingWord (he : e.inLine) (hshown : e.seals → Stands w m s → Shown w s) :
    Tracks w e m m blind (Parser.move splitLeadingWord) (Parser.move splitLeadingWord) s s' := by
  have hcloses (depth : Nat) : Closes depth s.cursor.rest →
      Closes depth s.cursor.splitLeadingWord.rest :=
    splitLeadingWord_induction fun t rest ht =>
      closes_cons (fun h => ht (h ▸ by decide)) fun h => ht (h ▸ by decide)
  have hline : Line s.cursor.rest → Line s.cursor.splitLeadingWord.rest :=
    splitLeadingWord_induction fun t rest ht => ⟨fun h => h.tail ht, .cons ht⟩
  have halone (hs : Stands w m s) : Passes w e m s ⟨s.cursor.splitLeadingWord, s.reports⟩ := by
    refine ⟨⟨hs.start, hs.settled.splitLeadingWord, fun hne => (hs.ended hne).splitLeadingWord, ?_⟩,
      rest_splitLeadingWord_eq_nil.mpr, suffix_refl _, fun _ => ?_, ?_⟩
    · have htrail := hs.trail
      cases m with
      | any | agreed => trivial
      | solid =>
        intro hne hclean hnil
        rw [previousKind?_splitLeadingWord]
        exact htrail hne hclean (rest_splitLeadingWord_eq_nil.mp hnil)
      | inner => rwa [Trail.Holds, previousKind?_splitLeadingWord]
    · refine (Extent.keeps_iff ?_).mpr hcloses
      rintro rfl
      cases he
    · cases e with
      | within | sealed => exact fun h => ⟨hline h, .refl s⟩
      | whole | ending => exact fun h => ⟨.inl (hline h), .refl s⟩
      | closing | inside => cases he
  refine ⟨fun hr hs => ?_, fun hr => by cases hr⟩
  cases hr
  refine ⟨halone hs, fun hlike hshows => ?_⟩
  have hs' := hshows.begins (halone hs) fun hseals => hshown hseals hs
  refine ⟨rfl, hlike.cursor.splitLeadingWord hs', fun hm => ?_, hlike.reports⟩
  rw [Agrees, previousKind?_splitLeadingWord, previousKind?_splitLeadingWord]
  exact hlike.agrees hm

/-! ## Repetition -/

section Repetition

variable {round round' : α → Parser (Option α)}

/-- **A repetition tracks itself if its rounds do.** -/
theorem iterateUpTo (hround : ∀ a a' s s', view a' = view a →
    Tracks w .within m m (Option.map view) (round a) (round' a') s s') :
    ∀ (n n' : Nat) (a a' : α) (s s' : State), view a' = view a →
      Tracks w .within m m view (Parser.iterateUpTo round n a)
        (Parser.iterateUpTo round' n' a') s s'
  | 0, _, _, _, _, _, _ => endless
  | n + 1, n', a, a', s, s', hview => by
    have hnext (n' : Nat) : Tracks w .within m m view
        (Parser.iterateUpTo round (n + 1) a) (Parser.iterateUpTo round' (n' + 1) a') s s' := by
      refine bind_of rfl id (hround a a' s s' hview) fun next next' t t' _ hnext => ?_
      cases next with
      | none =>
        obtain rfl := Option.map_eq_none_iff.mp hnext
        exact pure rfl hview
      | some b =>
        obtain ⟨b', rfl, hb⟩ := Option.map_eq_some_iff.mp hnext
        exact iterateUpTo hround n n' b b' t t' hb
    cases n' with
    | zero => exact (hnext 0).endless_right
    | succ n' => exact hnext n'

theorem iterate (hround : ∀ a a' s s', view a' = view a →
    Tracks w .within m m (Option.map view) (round a) (round' a') s s')
    (hview : view a' = view a) :
    Tracks w .within m m view (Parser.iterate round a) (Parser.iterate round' a') s s' := by
  obtain ⟨n, hn⟩ := exists_iterate_eq round a s
  obtain ⟨n', hn'⟩ := exists_iterate_eq round' a' s'
  exact .congr hn hn' (iterateUpTo hround n n' a a' s s' hview)

variable {v : α → γ} {item item' : List α → Parser α}

variable (hitem : ∀ m items items' s s', items'.map v = items.map v →
    Tracks w .within m l v (item items) (item' items') s s')

include hitem in
/-- Items between commas track themselves if each does. -/
theorem commaSeparated (hl : l ≠ .any) :
    Tracks w .within m l (List.map v) (Parser.commaSeparated item)
      (Parser.commaSeparated item') s s' := by
  have hany (m : Trail) : l = .any → m = .any := fun h => absurd h hl
  refine bind_of rfl (hany m) (hitem m [] [] s s' rfl) fun first first' t t' _ hfirst =>
    iterate (fun items items' s s' hitems => ?_) (congrArg (fun x => [x]) hfirst)
  refine accept nofun rfl rfl (fun t t' => ?_) (pure rfl rfl)
  refine bind_of rfl (hany _) (hitem .inner items items' t t' hitems)
    fun next next' _ _ _ hnext => pure rfl ?_
  simp only [Option.map_some, map_append, map_singleton, hitems, hnext]

theorem separator (closer : Token.Kind) : Tracks w .within m m id (Parser.separator closer)
      (Parser.separator closer) s s' := by
  refine accept nofun rfl rfl (fun t t' => lower (pure rfl rfl) (Trail.rank_le_inner m)) ?_
  rw [← bind_pure (Parser.see fun c => c.afterSoftBreak && c.kind ≠ closer)]
  refine see nofun (fun hs hlike hshown => ?_) (pure rfl rfl)
  rw [hlike.cursor.soft, hlike.cursor.kind hs.settled.final hshown]

include hitem in
/-- Items up to a closer track themselves if each does. -/
theorem elements {closer} (hl : l ≠ .any) :
    Tracks w .within .inner l (List.map v) (Parser.elements closer item)
      (Parser.elements closer item') s s' := by
  refine raise ?_ (Trail.rank_le_inner l) fun h => absurd h hl
  refine bind_of (v := fun found : List α × Bool => (found.1.map v, found.2)) rfl id
    (iterate (fun found found' s s' hfound => ?_) rfl) fun found found' _ _ _ hfound => ?_
  · obtain ⟨items, more⟩ := found
    obtain ⟨items', more'⟩ := found'
    obtain ⟨hitems, rfl⟩ := Prod.mk.inj hfound
    refine see nofun (fun hs hlike hshown => ?_) (ite (fun _ => pure rfl rfl) fun _ => ?_)
    · rw [hlike.cursor.kind hs.settled.final hshown]
    · refine bind_of rfl id (hitem l items items' s s' hitems) fun next next' t t' _ hnext => ?_
      refine bind_of rfl id (separator closer) fun more more' _ _ _ hmore => pure rfl ?_
      simp only [Option.map_some, map_append, map_singleton, hitems, hnext]
      rw [show more' = more from hmore]
  · exact pure rfl (Prod.mk.inj hfound).1

end Repetition

/-! ## Recovery -/

/-- A statement is read, or given up, alike. -/
theorem recover (h : Tracks w e m m' view p p' s s') (he : e ≠ .closing)
    (hle : m'.rank ≤ 1) (hm : m = .any → m' = .any) :
    Tracks w .inside m m' Option.isSome (Parser.recover p) (Parser.recover p') s s' := by
  refine ⟨fun hr hs => ?_, fun hr => absurd hr recover_ne_refused⟩
  rcases recover_cases hr with ⟨a, hok, rfl⟩ | ⟨r, t, hrefused, rfl, rfl⟩
  · obtain ⟨h₁, h⟩ := h.ok hok hs
    refine ⟨⟨h₁.stands, h₁.rest, h₁.reports,
      fun hclean => (Extent.keeps_iff he).mp (h₁.keeps hclean), trivial⟩, fun hlike hshows => ?_⟩
    exact (h hlike (.inl hshows.shown)).recover
  · obtain ⟨h₁, h⟩ := h.refused hrefused hs
    refine ⟨⟨h₁.stands.skipStatement hle _, fun hnil =>
      rest_skipStatement_eq_nil h₁.stands.settled (h₁.rest hnil),
      h₁.reports.trans (suffix_cons _ _), nofun, trivial⟩, fun hlike hshows => ?_⟩
    have hshown : Shown w t := hshows.shown.imp_left fun hne hnil =>
      hne (rest_skipStatement_eq_nil h₁.stands.settled hnil)
    exact (h hlike (.inl hshown)).recover fun hlike hfault =>
      (hlike.skipStatement h₁.stands hshown hfault).lower hm

end Tracks

/-! ## Rounds over the statements of a block -/

/-- A round that gives nothing closes the block. -/
def Extent.ofRound : Option α → Extent
  | none => .closing
  | some _ => .inside

/-- Two rounds over the statements of a block do the same, and are never refused. -/
structure Turns (w : Whole) (p p' : Parser (Option α)) (s s' : State) : Prop where
  ok : ∀ {next t}, p s = .ok next t → Stands w .agreed s →
    Passes w (.ofRound next) .agreed s t ∧ (Like w .agreed s s' →
      Shows w (.ofRound next) s t → Matches w .agreed Option.isSome next t (p' s'))
  answers : ∀ r t, p s ≠ .error (.refused r) t

namespace Turns

variable {u : State} {round round' : α → Parser (Option α)}

variable (h₁ : Passes w .inside .agreed s t)
include h₁

/-- What is left of a block, from one of its statements on. -/
theorem passes_head (h : Passes w .closing .agreed t u) : Passes w .closing .agreed s u :=
  ⟨h.stands, h.rest ∘ h₁.rest, h₁.reports.trans h.reports, fun hclean depth hcloses =>
    h.keeps hclean depth (h₁.keeps (h.clean hclean) _ hcloses), trivial⟩

theorem halts_head (h : Halts w .closing t fault u) : Halts w .closing s fault u :=
  ⟨h.stands, h.rest ∘ h₁.rest, h₁.reports.trans h.reports, nofun⟩

/-- Inside a block that is closed, and in which nothing was reported, tokens are left. -/
theorem reads_head (h : Passes w .closing .agreed t u) (hshows : Shows w .closing s u) :
    Shown w t ∧ Shows w .closing t u := by
  rcases hshows with hshown | ⟨hclean, depth, hcloses⟩ | hends
  · exact ⟨hshown.of_passes h, .inl hshown⟩
  · have hinside := h₁.keeps (h.clean hclean) _ hcloses
    refine ⟨.inl fun hnil => ?_, .inr (.inl ⟨hclean, depth, hinside⟩)⟩
    rw [hnil] at hinside
    exact not_closes_nil hinside
  · cases hends.1

omit h₁

/-- One round, and what is left of the block. -/
theorem tracks {β : Type} {q' : α → Parser β} {p p' : Parser (Option α)} {a a' : β}
    {q : α → Parser β}
    (h : Turns w p p' s s') (hq : ∀ b b' t t',
      Tracks w .closing .agreed .agreed blind (q b) (q' b') t t') :
    Tracks w .closing .agreed .agreed blind
      (p >>= fun next => match next with | none => pure a | some b => q b)
      (p' >>= fun next => match next with | none => pure a' | some b => q' b) s s' := by
  refine ⟨fun hr hs => ?_, fun hr hs => ?_⟩
  · obtain ⟨next, t, hround, hrest⟩ := exists_of_bind_eq_ok hr
    obtain ⟨h₁, h⟩ := h.ok hround hs
    cases next with
    | none =>
      cases hrest
      refine ⟨h₁, fun hlike hshows => (h hlike hshows).bind (fun _ => trivial)
        fun next t' hnext hlike => ?_⟩
      obtain rfl : next = none := by simpa using hnext
      exact ⟨rfl, hlike⟩
    | some b =>
      have h₂ := ((hq b b t t).ok hrest h₁.stands).1
      refine ⟨passes_head h₁ h₂, fun hlike hshows => ?_⟩
      obtain ⟨hshown, hshows⟩ := reads_head h₁ h₂ hshows
      refine (h hlike (.inl hshown)).bind (fun _ => trivial) fun next t' hnext hlike => ?_
      obtain ⟨b', rfl⟩ := Option.isSome_iff_exists.mp hnext
      exact ((hq b b' t t').ok hrest h₁.stands).2 hlike hshows
  · rcases bind_eq_error_cases hr with hrefused | ⟨next, t, hround, hrest⟩
    · exact absurd hrefused (h.answers _ _)
    obtain ⟨h₁, h⟩ := h.ok hround hs
    cases next with
    | none => cases hrest
    | some b =>
      have h₂ := ((hq b b t t).refused hrest h₁.stands).1
      refine ⟨halts_head h₁ h₂, fun hlike hfails => ?_⟩
      have hshown := hfails.elim id fun h => by cases h.1
      refine (h hlike (.inl (hshown.of_halts h₂))).bind (fun _ => trivial)
        fun next t' hnext hlike => ?_
      obtain ⟨b', rfl⟩ := Option.isSome_iff_exists.mp hnext
      exact ((hq b b' t t').refused hrest h₁.stands).2 hlike (.inl hshown)

theorem iterateUpTo (hround : ∀ a a' s s', Turns w (round a) (round' a') s s') :
    ∀ (n n' : Nat) (a a' : α) (s s' : State),
      Tracks w .closing .agreed .agreed blind (Parser.iterateUpTo round n a)
        (Parser.iterateUpTo round' n' a') s s'
  | 0, _, _, _, _, _ => .endless
  | n + 1, n', a, a', s, s' => by
    have hnext (n' : Nat) : Tracks w .closing .agreed .agreed blind
        (Parser.iterateUpTo round (n + 1) a) (Parser.iterateUpTo round' (n' + 1) a') s s' :=
      (hround a a' s s').tracks fun b b' t t' => iterateUpTo hround n n' b b' t t'
    cases n' with
    | zero => exact (hnext 0).endless_right
    | succ n' => exact hnext n'

/-- Rounds over the statements of a block close it. -/
theorem iterate (hround : ∀ a a' s s', Turns w (round a) (round' a') s s') (a a' : α) :
    Tracks w .closing .agreed .agreed blind (Parser.iterate round a)
      (Parser.iterate round' a') s s' := by
  obtain ⟨n, hn⟩ := exists_iterate_eq round a s
  obtain ⟨n', hn'⟩ := exists_iterate_eq round' a' s'
  exact .congr hn hn' (iterateUpTo hround n n' a a' s s')

end Turns

end Parser

end Offside
