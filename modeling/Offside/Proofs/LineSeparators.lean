import Offside.Proofs.Concatenation
import Offside.Proofs.Items
import Offside.Proofs.Stages

/-!
# Proofs/LineSeparators — line breaks between the items of a literal

Line breaks divide the items of a literal as commas do, but only where the next item does not begin
with a token that can go on with the one before.  The items of a list may begin with a parenthesis,
a bracket or a minus, and then they do; the fields of a record begin with a name and never do.
-/

namespace Offside

open List hiding iterate
open Offside.Parser Token Cursor

namespace Parser

variable {v : List Sight} {k depth : Nat} {s : State} {between after : List Token} {closer : Kind}

/-! ## What divides items -/

/-- Soft line breaks, at least one. -/
def LineBreaks (between : List Token) : Prop := between ≠ [] ∧ Soft between

/-- A comma; around it lines may end. -/
def Commas (between : List Token) : Prop := ∃ before comma after,
  between = before ++ comma :: after ∧ Soft before ∧ comma.kind = .comma ∧ Soft after

theorem separator_of_comma {sight : Sight} (hcomma : sight.token.kind = .comma)
    (h : Seen (sight :: v) k s) : ∃ t, separator closer s = .ok true t ∧ Seen v k t := by
  refine ⟨_, ?_, h.cons.2.2.2⟩
  rw [separator, accept_bind, at?_of_kind (h.kind.trans hcomma)]
  rfl

theorem divides_commas (h : Commas between) : Divides closer between after := by
  obtain ⟨before, comma, behind, rfl, hbefore, hcomma, hbehind⟩ := h
  intro b
  have hsights : sights b (before ++ comma :: behind ++ after)
      = ⟨comma, b || !before.isEmpty⟩ :: sights (false || !behind.isEmpty) after := by
    rw [append_assoc, sights_soft hbefore, cons_append,
      sights_cons (by rw [hcomma]; nofun), sights_soft hbehind]
  rw [hsights]
  refine ⟨?_, _, fun k s hseen => separator_of_comma hcomma hseen⟩
  change comma.kind ∉ _
  rw [hcomma]
  decide

/-- Behind a line break the first token stands behind it. -/
theorem exists_sights_true {kind} : ∀ {tokens}, firstKind? tokens = some kind →
      ∃ token later, sights true tokens = ⟨token, true⟩ :: later ∧ token.kind = kind
  | [], h => by cases h
  | t :: tokens, h => by
    by_cases ht : t.kind = .softNewline
    · rw [firstKind?, find?_cons_of_neg (by simpa using ht)] at h
      rw [sights, if_pos ht]
      exact exists_sights_true h
    · rw [firstKind?, find?_cons_of_pos (by simpa using ht)] at h
      exact ⟨t, _, sights_cons ht _ _, Option.some.inj h⟩

theorem sights_lineBreaks (h : LineBreaks between) (after : List Token)
    (b : Bool) : sights b (between ++ after) = sights true after := by
  rw [sights_soft h.2, isEmpty_eq_false_iff.mpr h.1, Bool.not_false, Bool.or_true]

theorem divides_lineBreaks {sort kind} (h : LineBreaks between)
    (hkind : firstKind? after = some kind) (hstart : kind ∈ Nested.startKinds)
    (hstops : kind ∉ Nested.trailing) : Divides (.closing sort) between after := by
  intro b
  obtain ⟨token, later, hsights, rfl⟩ := exists_sights_true hkind
  rw [sights_lineBreaks h, hsights]
  refine ⟨hstops, true, fun k s hseen => ⟨s, ?_, hsights ▸ hseen⟩⟩
  have hnext : s.cursor.kind = token.kind := hseen.kind
  have hcomma : s.cursor.kind ≠ .comma := by
    rw [hnext]
    intro hkind
    rw [hkind] at hstart
    revert hstart
    decide
  have hcloser : s.cursor.kind ≠ .closing sort := by
    rw [hnext]
    intro hkind
    rw [hkind] at hstart
    revert hstart
    cases sort <;> decide
  rw [separator, accept_bind, at?_of_kind_ne hcomma]
  change EStateM.Result.ok (s.cursor.afterSoftBreak && decide (s.cursor.kind ≠ .closing sort)) s = _
  rw [hseen.cons.2.2.1, Bool.true_and, decide_eq_true hcloser]

/-! ## Items that go on with those before them -/

/-- An expression that stands by itself on tokens inside brackets. -/
structure Own (tokens : List Token) (e : Expr) : Prop where
  reads : Expr.ofTokens? tokens = some e
  inner : Inner tokens

theorem Own.starts {tokens e} (h : Own tokens e) : StartsItem tokens :=
  firstKind?_of_expression h.reads h.inner

/-- **Where an item goes on with the one before, the items are others.** -/
theorem rounds_of_trailing {items inner} (h : Joined LineBreaks items inner) :
    ∀ {es}, List.Forall₂ Own items es →
    (∃ tokens ∈ items.tail, ∃ kind ∈ Nested.trailing, firstKind? tokens = some kind) →
    ∀ (n : Nat) (earlier : List Expr) (b : Bool) (k : Nat) (s t : State) (found : List Expr × Bool),
      Seen (sights b (inner ++ after)) k s →
      iterateUpTo (elementRound (.closing .square) fun _ => (nested depth).expression) n
        (earlier, true) s = .ok found t →
      found.1.map Expr.bare ≠ earlier.map Expr.bare ++ es.map Expr.bare := by
  induction h with
  | one => exact fun _ ⟨_, hnone, _⟩ => absurd hnone not_mem_nil
  | @more tokens between inner later hbetween hlater ih =>
    intro es halone htrailing n earlier b k s t found hseen hok
    obtain ⟨e, es, he, hes, rfl⟩ := forall₂_cons_left_iff.mp halone
    rw [append_assoc, append_assoc] at hseen
    obtain ⟨b₁, hsights⟩ := exists_sights_append tokens (between ++ (inner ++ after)) b
    obtain ⟨next, more, behind, rfl, rfl⟩ := hlater.exists_cons
    obtain ⟨e₁, _, he₁, -, -⟩ := forall₂_cons_left_iff.mp hes
    obtain ⟨kind, hstart, hkind⟩ := he₁.starts
    have hfirst : firstKind? (next ++ behind ++ after) = some kind :=
      firstKind?_append (firstKind?_append hkind behind) after
    cases n with
    | zero => cases hok
    | succ n =>
      by_cases hgoes : kind ∈ Nested.trailing
      · obtain ⟨r, u, hround, hlaterok⟩ := exists_of_bind_eq_ok hok
        intro hsame
        cases r with
        | none =>
          cases hlaterok
          have := congrArg length hsame
          simp at this
        | some found₁ =>
          obtain ⟨e', more', w, he', rfl⟩ := exists_of_elementRound hround
          obtain ⟨last, hlast⟩ := exists_append_of_rounds hlaterok
          rw [hlast, map_append, map_append, append_assoc] at hsame
          have heq : e'.bare = e.bare := (cons.inj (append_cancel_left hsame)).1
          have hnext : Parser.next (sights b₁ (between ++ (next ++ behind ++ after)))
              ∈ Nested.trailing := by
            obtain ⟨token, _, htoken, rfl⟩ := exists_sights_true hfirst
            rw [sights_lineBreaks hbetween, htoken]
            exact hgoes
          have hlt := lt_of_trailing he.reads he.inner hnext (hsights ▸ hseen) he'
          rw [heq] at hlt
          exact Nat.lt_irrefl _ hlt
      · have hdivides : Divides (.closing .square) between (next ++ behind ++ after) :=
          divides_lineBreaks hbetween hfirst hstart hgoes
        obtain ⟨hnext, b₂, hseparator⟩ := hdivides b₁
        rcases elementRound_item (readsAs_expression he.reads he.inner) he.starts
          (by decide) hsights hnext hseparator hseen earlier with ⟨u, hu⟩ | ⟨e', u, hround, he', hu⟩
        · rw [iterateUpTo_of_error n hu] at hok
          cases hok
        · rw [iterateUpTo_of_some n hround] at hok
          obtain ⟨tokens', hmem, kind', htrailing', hkind'⟩ := htrailing
          have hmore : tokens' ∈ more := by
            refine (mem_cons.mp hmem).resolve_left fun hnext => ?_
            rw [hnext, hkind] at hkind'
            exact hgoes (Option.some.inj hkind' ▸ htrailing')
          have hlater :=
            ih hes ⟨tokens', hmore, kind', htrailing', hkind'⟩ n (earlier ++ [e']) b₂ _ u
            t found hu hok
          rwa [map_append, map_singleton, he', append_assoc,
            singleton_append] at hlater

end Parser

namespace Nested

variable {n : Nested} {e : Expr} {k : Nat} {s t : State} {α : Type} {a : α} {bracket : Token}
  {sort : Bracket} {es : List Expr}

/-! ## A literal as an expression -/

theorem iterate_of_none {round} (h : round a s = .ok none s) : iterate round a s = .ok a s := by
  rw [iterate, bind_of_ok h]
  rfl

theorem binary_of_primary (hok : n.primary s = .ok e t) (hop : unaryOp? s.cursor.kind = none) :
    ∀ {rungs}, t.cursor.kind ∉ goingOn rungs → binary n.unary rungs s = .ok e t
  | [], hnext => by
    change n.unary s = _
    have hchain : n.chain s = .ok e t := by
      rw [chain, bind_of_ok hok]
      exact iterate_of_none ((enlarges_suffix? n).stops e t hnext)
    rw [unary_eq, bind_of_ok (operators_of_none hop), bind_of_ok hchain]
    rfl
  | rung :: tighter, hnext => by
    rw [goingOn_cons, not_or] at hnext
    rw [binary_cons, bind_of_ok (binary_of_primary hok hop hnext.1)]
    exact iterate_of_none ((enlarges_rungRound _ rung tighter).stops e t hnext.2)

/-- What is not built by operators, calls or member access is an expression. -/
theorem expressionOf_of_primary (hok : n.primary s = .ok e t)
    (hkind : s.cursor.kind = .opening sort) (hnext : t.cursor.kind ∉ trailing) :
    n.expressionOf s = .ok e t := by
  obtain ⟨hquestion, hladder⟩ := not_or.mp (mem_cons.not.mp hnext)
  have hop : unaryOp? s.cursor.kind = none := by rw [hkind]; rfl
  rw [expressionOf, at?_of_kind_ne (by simp [hkind]), ternaryOf_eq,
    bind_of_ok (binary_of_primary hok hop hladder)]
  exact branched_of_kind_ne hquestion

/-- Rounds give what they begin with, or what some round gives. -/
theorem iterate_cases {round c} (h : iterate round a s = .ok c t) :
    c = a ∨ ∃ a' s' t', round a' s' = .ok (some c) t' := by
  obtain ⟨_, hcases, -⟩ := exists_of_iterate_eq_ok
    (P := fun c _ => c = a ∨ ∃ a' s' t', round a' s' = .ok (some c) t')
    (fun _ hround => .inr ⟨_, _, _, hround⟩) (.inl rfl) h
  exact hcases

theorem chain_list (h : n.chain s = .ok (.list bracket es) t) :
    ∃ u, n.primary s = .ok (.list bracket es) u := by
  obtain ⟨head, u, hprimary, hrounds⟩ := exists_of_bind_eq_ok h
  rcases iterate_cases hrounds with rfl | ⟨a, s', t', hround⟩
  · exact ⟨u, hprimary⟩
  · by_cases hkind : s'.cursor.kind ∈ goingOn []
    · rcases exists_of_suffix? hkind hround with ⟨_, _, hcall⟩ | ⟨_, hget⟩
      · cases hcall
      · cases hget
    · rw [(enlarges_suffix? n).stops a s' hkind] at hround
      cases hround

theorem binary_list (hop : unaryOp? s.cursor.kind = none) :
    ∀ {rungs t}, binary n.unary rungs s = .ok (.list bracket es) t →
      ∃ u, n.primary s = .ok (.list bracket es) u
  | [], t, h => by
    change n.unary s = _ at h
    rw [unary_eq, bind_of_ok (operators_of_none hop)] at h
    obtain ⟨e, u, hchain, hok⟩ := exists_of_bind_eq_ok h
    obtain ⟨rfl, rfl⟩ : e = .list bracket es ∧ u = t := EStateM.Result.ok.inj hok
    exact chain_list hchain
  | rung :: tighter, t, h => by
    rw [binary_cons] at h
    obtain ⟨left, u, hleft, hrounds⟩ := exists_of_bind_eq_ok h
    rcases iterate_cases hrounds with rfl | ⟨a, s', t', hround⟩
    · exact binary_list hop hleft
    · by_cases hkind : s'.cursor.kind ∈ rung.map (·.1)
      · obtain ⟨_, _, _, hbinary⟩ := exists_of_rungRound hkind hround
        cases hbinary
      · rw [(enlarges_rungRound _ rung tighter).stops a s' hkind] at hround
        cases hround

/-- A list that was read as an expression was read without operators, calls and member access. -/
theorem primary_of_list
    (hkind : s.cursor.kind = .opening sort) (hok : n.expressionOf s = .ok (.list bracket es) t) :
    ∃ u, n.primary s = .ok (.list bracket es) u := by
  rw [expressionOf, at?_of_kind_ne (by simp [hkind]), ternaryOf_eq] at hok
  obtain ⟨condition, u, hcondition, hbranched⟩ := exists_of_bind_eq_ok hok
  by_cases hquestion : u.cursor.kind = .question
  · obtain ⟨_, _, _, hternary⟩ := exists_of_branched hquestion hbranched
    cases hternary
  · rw [branched_of_kind_ne hquestion] at hbranched
    cases hbranched
    exact binary_list (by rw [hkind]; rfl) hcondition

/-! ## A literal as a program -/

theorem splitLeadingWord_of_kind_ne {c : Cursor} (h : c.kind ≠ .identifier) :
    c.splitLeadingWord = c := by
  unfold splitLeadingWord
  split
  · rfl
  · next t rest hrest =>
    rw [Cursor.kind, Cursor.current, hrest, headD_cons] at h
    rw [leadingWord_of_kind_ne h, singleton_append, ← hrest]

/-- A literal that comes next is an expression for its effect. -/
theorem statement_literal (hkind : s.cursor.kind = .opening sort) :
    n.statement false s = n.expressionStatement s := by
  have hmove : move splitLeadingWord s = .ok () s := by
    rw [move, splitLeadingWord_of_kind_ne (by simp [hkind])]
  simp [statement, bind_of_ok hmove, hkind]

theorem programRound_literal (hs : s.cursor.Settled)
    (hkind : s.cursor.kind = .opening sort) (earlier : List Stmt) :
    n.programRound earlier s = (do
      return some (earlier ++ (← recover (n.statement false)).toList)) s := by
  have hmove : move skipNewlines s = .ok () s := by
    rw [move, skipNewlines_of_kind_ne hs (by simp [hkind])]
  rw [programRound, bind_of_ok hmove, at?_of_kind_ne (by simp [hkind]), accept_bind,
    at?_of_kind_ne (by simp [hkind])]
  rfl

/-- A literal and the end of its line are a program. -/
theorem program_of_expression (hs : s.cursor.Settled)
    (hkind : s.cursor.kind = .opening sort) (hok : n.expression s = .ok e t)
    (hnewline : t.cursor.kind = .newline) (hlast : Seen [] k ⟨t.cursor.advance, t.reports⟩) :
    n.program s = .ok [.expression e] ⟨t.cursor.advance, t.reports⟩ := by
  have hend : endStatement t = .ok () ⟨t.cursor.advance, t.reports⟩ := by
    rw [endStatement, kind_bind, hnewline]
    rfl
  have hstatement : n.statement false s = .ok (.expression e) ⟨t.cursor.advance, t.reports⟩ := by
    rw [statement_literal hkind, expressionStatement, bind_of_ok hok, bind_of_ok hend]
    rfl
  have hround : n.programRound [] s = .ok (some [.expression e]) ⟨t.cursor.advance, t.reports⟩ := by
    rw [programRound_literal hs hkind, bind_of_ok (recover_of_ok hstatement)]
    rfl
  have hnone : n.programRound [.expression e] ⟨t.cursor.advance, t.reports⟩
      = .ok none ⟨t.cursor.advance, t.reports⟩ := by
    have heof : t.cursor.advance.kind = .eof := hlast.kind
    have hmove : move skipNewlines ⟨t.cursor.advance, t.reports⟩
        = .ok () ⟨t.cursor.advance, t.reports⟩ := by
      rw [move, skipNewlines_of_kind_ne hlast.settled (by simp [heof])]
    rw [programRound, bind_of_ok hmove, at?_of_kind heof]
    rfl
  rw [program, iterate, bind_of_ok hround]
  exact iterateUpTo_of_none _ hnone

theorem exists_append_of_programRound {earlier later}
    (h : n.programRound earlier s = .ok (some later) t) : ∃ more, later = earlier ++ more := by
  obtain ⟨_, s₁, -, h⟩ := exists_of_bind_eq_ok h
  obtain ⟨atEnd, _, -, h⟩ := exists_of_bind_eq_ok h
  split at h
  · cases h
  · obtain ⟨found, s₂, -, h⟩ := exists_of_bind_eq_ok h
    split at h
    · obtain ⟨hsame, -⟩ := EStateM.Result.ok.inj h
      exact ⟨[], by rw [append_nil, Option.some.inj hsame]⟩
    · obtain ⟨statement, _, -, h⟩ := exists_of_bind_eq_ok h
      exact ⟨_, (Option.some.inj (EStateM.Result.ok.inj h).1).symm⟩

/-- Statements that were read stay. -/
theorem exists_append_of_program {m earlier later}
    (h : iterateUpTo n.programRound m earlier s = .ok later t) :
    ∃ more, later = earlier ++ more := by
  have hround : ∀ {mid s later t}, (∃ more, mid = earlier ++ more) →
      n.programRound mid s = .ok (some later) t → ∃ more, later = earlier ++ more := by
    rintro _ s later t ⟨more, rfl⟩ hround
    obtain ⟨more', rfl⟩ := exists_append_of_programRound hround
    exact ⟨more ++ more', append_assoc _ _ _⟩
  obtain ⟨_, hmore, -⟩ := exists_of_iterateUpTo_eq_ok
    (P := fun later _ => ∃ more, later = earlier ++ more) hround ⟨[], (append_nil _).symm⟩ h
  exact hmore

/-- A program that begins with a bracket and is accepted begins with the expression that is read
there. -/
theorem exists_expression_of_program {depth statements} (hs : s.cursor.Settled)
    (hdepth : 2 * s.cursor.weight + 1 ≤ depth) (hkind : s.cursor.kind = .opening sort)
    (hok : (nested depth).program s = .ok statements t) (hreports : t.reports = []) :
    ∃ e u later, (nested depth).expression s = .ok e u ∧ statements = .expression e :: later := by
  obtain ⟨r, w, hround, hlater⟩ := exists_of_bind_eq_ok hok
  have hreads := fun earlier (s' : State) hs' => reads_programRound (s := s')
    (readsBelow_nested (g := id) (T := fun _ => True) (by omega)) hs'
    (reads_expression_nested hdepth) earlier
  have hw := hreads [] s (Nat.le_refl _) hs s.holds_true
  rw [hround] at hw
  rw [programRound_literal hs hkind] at hround
  obtain ⟨found, u, hrecover, hround⟩ := exists_of_bind_eq_ok hround
  obtain ⟨rfl, rfl⟩ := EStateM.Result.ok.inj hround
  change iterateUpTo _ (u.cursor.weight + 1) found.toList u = .ok statements t at hlater
  -- What was reported of the first statement would still be there.
  have hclean : u.reports = [] := by
    have hrounds := Reads.iterateUpTo (R := fun _ _ => True) (fun earlier s' hs' _ =>
      (hreads earlier s' hs').post fun _ _ _ hgoes => hgoes.mono (Nat.le_refl _) fun _ _ => trivial)
      _ found.toList u (Nat.lt_succ_self _) hw.1.weight_le trivial (hs.reaches hw.1) u.holds_true
    rw [hlater] at hrounds
    exact (hrounds.2.2.2.2 hreports).1
  cases hstatement : (nested depth).statement false s with
  | ok statement v =>
    rw [recover_of_ok hstatement] at hrecover
    cases hrecover
    rw [statement_literal hkind] at hstatement
    obtain ⟨e, u, he, hstatement⟩ := exists_of_bind_eq_ok hstatement
    obtain ⟨_, _, -, hstatement⟩ := exists_of_bind_eq_ok hstatement
    cases hstatement
    obtain ⟨more, hmore⟩ := exists_append_of_program hlater
    exact ⟨e, u, more, he, hmore⟩
  | error halt v =>
    cases halt with
    | refused refusal =>
      rw [recover_of_refused hstatement] at hrecover
      cases hrecover
      cases hclean
    | endless =>
      rw [recover_of_endless hstatement] at hrecover
      cases hrecover

end Nested

/-! ## Items inside brackets -/

namespace Parser

variable {α : Type} {tokens : List Token} {opened : List Bracket}

theorem exists_soft_append (final : Token) : ∀ tokens taken : List Token,
    ∃ softs, Soft softs ∧ tokens = softs ++ (skipSoft taken final tokens).rest
  | [], _ => ⟨[], nofun, rfl⟩
  | t :: tokens, taken => by
    unfold skipSoft
    split
    · next ht =>
      obtain ⟨softs, hsofts, htokens⟩ := exists_soft_append final tokens (t :: taken)
      refine ⟨t :: softs, forall_mem_cons.mpr ⟨ht, hsofts⟩, ?_⟩
      rw [cons_append, ← htokens]
    · exact ⟨[], nofun, rfl⟩

/-- Whether only commas and soft line breaks stand there. -/
def Between (tokens : List Token) : Prop := ∀ t ∈ tokens, t.kind ∈ [.comma, .softNewline]

theorem enclose_between {t : Token} (hopened : opened ≠ [])
    (h : t.kind ∈ [.comma, .softNewline]) : t.enclose opened = some opened := by
  simp only [mem_cons, not_mem_nil, or_false] at h
  rcases h with h | h
  · exact enclose_of_isPlain (by rw [h]; rfl)
  · rw [enclose, h]
    exact if_neg hopened

theorem foldlM_enclose_between (hopened : opened ≠ []) :
    ∀ {tokens}, Between tokens → ∀ after : List Token,
      (tokens ++ after).foldlM enclose opened = after.foldlM enclose opened
  | [], _, _ => rfl
  | t :: tokens, h, after => by
    obtain ⟨ht, hlater⟩ := forall_mem_cons.mp h
    rw [cons_append, foldlM_cons, enclose_between hopened ht]
    exact foldlM_enclose_between hopened hlater after

/-- Inside brackets the tokens stay inside, if the brackets of all tokens are nested. -/
def StaysInside (tokens : List Token) : Prop := ∀ opened o : List Bracket, opened ≠ [] →
  (∀ t ∈ tokens, t.kind ≠ .eof) → tokens.foldlM enclose opened = some o → Inner tokens ∧ o = opened

theorem staysInside_of_alone? {p : Nat → Parser α} {a : α} {Q : State → α → Cursor → Prop}
    {W : List Word → α → List Word → Prop} (h : alone? p tokens = some a)
    (hreads : ∀ s depth, 2 * s.cursor.weight + 2 ≤ depth →
      Reads id (fun _ => True) True (p depth) s (Q s) W)
    (hkept : ∀ before after, W before a after → Enclosed before after) : StaysInside tokens := by
  intro opened o hopened heof hfold
  obtain ⟨t, hok, hrest, hreports⟩ := exists_of_alone? h
  have houtcome := hreads ⟨start tokens, []⟩ (depthOf tokens) (Nat.le_refl _)
    (settled_start tokens) (State.holds_true _)
  rw [hok] at houtcome
  obtain ⟨hreaches, -, -, -, hspans⟩ := houtcome
  have htakes : tokens.takeWhile (·.kind ≠ .eof) = tokens := by
    rw [takeWhile_eq_self_iff]
    simpa using heof
  obtain ⟨softs, hsofts, htokens⟩ := exists_soft_append (finalOf tokens) tokens []
  have hstart : (skipSoft [] (finalOf tokens) tokens).rest = (start tokens).rest := by
    rw [start, htakes]
  rw [hstart] at htokens
  have hbetween : Between softs := fun t ht => by rw [hsofts t ht]; decide
  rw [htokens, foldlM_enclose_between hopened hbetween] at hfold
  obtain ⟨hflat, hsame⟩ := notMem_breakKinds_of_spans hspans hkept hreports hrest
    ((settled_start tokens).reaches hreaches).final hopened hfold
  refine ⟨⟨heof, ?_⟩, hsame⟩
  rw [htokens]
  refine forall_mem_append.mpr ⟨fun t ht => ?_, hflat⟩
  rw [hsofts t ht]
  decide

theorem staysInside_expression {e} (h : Expr.ofTokens? tokens = some e) : StaysInside tokens := by
  refine staysInside_of_alone? h (fun s depth hdepth => Nested.reads_expression_nested ?_ .inner s
    (Nat.le_refl _) (starts_inner _)) fun _ _ hderives => enclosed_of_derives hderives rfl
  omega

theorem staysInside_field {field} (h : Field.ofTokens? tokens = some field) :
    StaysInside tokens := by
  refine staysInside_of_alone? h (fun s depth hdepth =>
    Nested.reads_field (Nested.readsBelow_nested ?_) (Nat.le_refl _) [])
      fun before _ hdistinct => ?_
  · omega
  · exact enclosed_of_derives (hdistinct before ⟨.none, nodup_nil⟩).series rfl

/-- Items inside brackets stay inside, one by one. -/
theorem inner_of_joined {Separates after items inner} (h : Joined Separates items inner)
    (hseparates : ∀ between, Separates between → Between between) {o} (hopened : opened ≠ []) :
    (∀ tokens ∈ items, StaysInside tokens) →
    (∀ t ∈ inner, t.kind ≠ .eof) → (inner ++ after).foldlM enclose opened = some o →
      ∀ tokens ∈ items, Inner tokens := by
  induction h with
  | @one tokens =>
    intro hitems heof hfold
    rw [foldlM_append] at hfold
    obtain ⟨mid, hmid, -⟩ := Option.bind_eq_some_iff.mp hfold
    refine forall_mem_singleton.mpr ?_
    exact (hitems tokens mem_cons_self opened mid hopened heof hmid).1
  | @more tokens between inner later hbetween _ ih =>
    intro hitems heof hfold
    obtain ⟨hfirst, hlater⟩ := forall_mem_cons.mp hitems
    obtain ⟨heof, hbehind⟩ := forall_mem_append.mp heof
    rw [append_assoc, foldlM_append] at hfold
    obtain ⟨mid, hmid, hrest⟩ := Option.bind_eq_some_iff.mp hfold
    obtain ⟨hinner, rfl⟩ := hfirst opened mid hopened heof hmid
    rw [append_assoc, foldlM_enclose_between hopened (hseparates _ hbetween)] at hrest
    exact forall_mem_cons.mpr ⟨hinner, ih hlater (forall_mem_append.mp hbehind).2 hrest⟩

end Parser

/-! ## Texts -/

namespace Parser

open Nested

variable {α γ : Type} {Separates : List Token → Prop} {items : List (List Token)} {sort : Bracket}
  {opener first : Token} {text : List Char}
  {build : Token → List α → Expr} {cost : List γ → γ → Nat} {item : List α → Parser α}
  {view : α → γ} {as : List γ} {e : Expr} {depth : Nat} {fault : SyntaxFault} {later : List Token}
  {t : State}

/-- The text is a literal with these items, and what `Separates` tells stands between them. -/
structure IsLiteral (sort : Bracket) (opener : Token) (Separates : List Token → Prop)
    (items : List (List Token)) (text : List Char) : Prop where
  intact : (scan text).faults = []
  opens : opener.kind = .opening sort
  tokens : ∃ lead inner trail closer newline, Soft lead ∧ Joined Separates items inner ∧
    Soft trail ∧ closer.kind = .closing sort ∧ newline.kind = .newline ∧
    bareTokens text = (opener :: (lead ++ (inner ++ (trail ++ [closer, newline])))).map bare

@[simp] theorem map_bare_sights : ∀ (b : Bool) (tokens : List Token),
    (sights b tokens).map Sight.bare = sights b (tokens.map bare)
  | _, [] => rfl
  | b, t :: tokens => by
    rw [map_cons, sights, sights]
    change _ = if t.kind = .softNewline then _ else _
    split
    · exact map_bare_sights true tokens
    · rw [map_cons, map_bare_sights false tokens]
      rfl

/-- The state before the tokens of a text. -/
def stateBefore (text : List Char) : State := ⟨start (scan text).tokens, []⟩

theorem seen_stateBefore
    (h : bareTokens text = (first :: later).map bare) (hfirst : first.kind ≠ .softNewline) :
    Seen (sights false (first :: later)) 0 (stateBefore text) := by
  obtain ⟨body, final, htokens, hbare, hfinal, hbody, -⟩ := exists_bareTokens_eq text
  rw [h] at hbare
  obtain ⟨t, body, rfl, ht, -⟩ := map_eq_cons_iff.mp hbare.symm
  have hstart : start (scan text).tokens = ⟨[], t :: body, final⟩ := by
    rw [htokens]
    refine start_eq hfinal hbody ?_
    rintro _ ⟨⟩
    rw [kind_of_bare_eq ht]
    exact hfirst
  refine ⟨settled_start _, ?_, rfl⟩
  rw [stateBefore, hstart, map_bare_sights, hbare, ← map_bare_sights]
  rfl

theorem take_stateBefore
    (h : bareTokens text = (first :: later).map bare) (hfirst : first.kind ≠ .softNewline) :
    ∃ token s, take (stateBefore text) = .ok token s ∧ token.bare = first.bare ∧
      Seen (sights false later) 0 s := by
  have hseen := seen_stateBefore h hfirst
  rw [sights_cons hfirst] at hseen
  exact hseen.take

theorem settled_stateBefore (text : List Char) : (stateBefore text).cursor.Settled :=
  settled_start _

@[simp] theorem foldlM_enclose_bare (tokens : List Token) (opened : List Bracket) :
    (tokens.map bare).foldlM enclose opened = tokens.foldlM enclose opened := by
  rw [foldlM_map]
  rfl

/-- The items of a literal stand inside its brackets. -/
theorem IsLiteral.inner (h : IsLiteral sort opener Separates items text)
    (hseparates : ∀ between, Separates between → Between between)
    (hitems : ∀ tokens ∈ items, StaysInside tokens) : ∀ tokens ∈ items, Inner tokens := by
  obtain ⟨lead, inner, trail, closer, newline, hlead, hjoined, -, -, -, hbare⟩ := h.tokens
  obtain ⟨body, final, htokens, heq, -, hbody, -⟩ := exists_bareTokens_eq text
  rw [hbare] at heq
  have heof : ∀ t ∈ opener :: (lead ++ (inner ++ (trail ++ [closer, newline]))), t.kind ≠ .eof := by
    intro t ht
    obtain ⟨u, hu, hsame⟩ := mem_map.mp (heq ▸ mem_map_of_mem ht)
    rw [← kind_of_bare_eq hsame]
    exact hbody u hu
  have henclosed : (scan text).tokens.foldlM enclose [] = some [] :=
    enclosed_scan fun fault hfault => by
      rw [h.intact] at hfault
      cases hfault
  rw [htokens, foldlM_append] at henclosed
  obtain ⟨mid, hmid, -⟩ := Option.bind_eq_some_iff.mp henclosed
  rw [← foldlM_enclose_bare, ← heq, foldlM_enclose_bare, foldlM_cons] at hmid
  have hopens : opener.enclose [] = some [sort] := by rw [enclose, h.opens]; rfl
  have hbetween : Between lead := fun t ht => by rw [hlead t ht]; decide
  rw [hopens] at hmid
  change (lead ++ (inner ++ (trail ++ [closer, newline]))).foldlM enclose [sort] = some mid at hmid
  rw [foldlM_enclose_between (cons_ne_nil _ _) hbetween] at hmid
  have hinner := (forall_mem_append.mp (forall_mem_cons.mp heof).2).2
  exact inner_of_joined hjoined hseparates (cons_ne_nil _ _) hitems
    (forall_mem_append.mp hinner).1 hmid

theorem firstKind?_soft {after softs} (h : Soft softs) :
    firstKind? (softs ++ after) = firstKind? after := by
  have hnone : softs.find? (·.kind ≠ .softNewline) = none :=
    find?_eq_none.mpr fun t ht => by simpa using h t ht
  rw [firstKind?, firstKind?, find?_append, hnone, Option.none_or]

/-- The first token of a literal is its bracket. -/
theorem IsLiteral.kind (h : IsLiteral sort opener Separates items text) :
    (stateBefore text).cursor.kind = .opening sort := by
  obtain ⟨lead, inner, trail, closer, newline, -, -, -, -, -, hbare⟩ := h.tokens
  have hhard : opener.kind ≠ .softNewline := by rw [h.opens]; nofun
  rw [(seen_stateBefore hbare hhard).kind, sights_cons hhard]
  exact h.opens

/-- What a literal is made of: its items, and a bracket on either side. -/
def literalOf {α : Type} (sort : Bracket) (fault : SyntaxFault) (item : List α → Parser α)
    (build : Token → List α → Expr) : Parser Expr := do
  let bracket ← take
  let items ← elements (.closing sort) item
  let _ ← expect (.closing sort) fault
  return build bracket items

/-- **A literal whose items are divided is read as its items are by themselves.** -/
theorem program_of_literal (h : IsLiteral sort opener Separates items text)
    (hdepth : 2 * (stateBefore text).cursor.weight ≤ depth)
    (hprimary : ∀ s : State, s.cursor.kind = .opening sort →
      (nested depth).primary s = literalOf sort fault item build s)
    (hreads : List.Forall₂ (ReadsAs view cost item) items as)
    (hstarts : ∀ tokens ∈ items, StartsItem tokens)
    (hdivides : ∀ between tokens behind, Separates between → tokens ∈ items.tail →
      Divides (.closing sort) between (tokens ++ behind)) :
    ∃ bracket as' t, (nested (depth + 1)).program (stateBefore text)
        = .ok [.expression (build bracket as')] t ∧
      bracket.bare = opener.bare ∧ as'.map view = as ∧ t.reports.length = total cost [] as := by
  obtain ⟨lead, inner, trail, closer, newline, hlead, hjoined, htrail, hcloser, hnewline, hbare⟩ :=
    h.tokens
  have hhard : opener.kind ≠ .softNewline := by rw [h.opens]; nofun
  have hclosing : closer.kind ≠ .softNewline := by rw [hcloser]; nofun
  have hbreak : newline.kind ≠ .softNewline := by rw [hnewline]; nofun
  obtain ⟨bracket, s₁, htake, hbracket, hseen₁⟩ := take_stateBefore hbare hhard
  have hafter : firstKind? (trail ++ [closer, newline]) = some (.closing sort) := by
    rw [firstKind?_soft htrail, firstKind?, find?_cons_of_pos (by simpa using hclosing),
      Option.map_some, hcloser]
  rcases elements_of_joined hlead hjoined hafter hreads hstarts hdivides hseen₁ with
    ⟨u, hu⟩ | ⟨as', s₂, helements, has, b', hseen₂⟩
  · have hreads := reads_primary (g := id) (T := fun _ => True) (readsBelow_nested hdepth)
      (Nat.le_refl _) .inner (starts_inner _) (settled_stateBefore text) (State.holds_true _)
    rw [hprimary _ h.kind, literalOf, bind_of_ok htake, bind_of_error hu] at hreads
    exact hreads.elim
  · rw [sights_soft htrail, sights_cons hclosing, sights_cons hbreak] at hseen₂
    have hkind₂ : s₂.cursor.kind = .closing sort := hseen₂.kind.trans hcloser
    have hseen₃ := hseen₂.cons.2.2.2
    have hkind₃ : s₂.cursor.advance.kind = .newline := hseen₃.kind.trans hnewline
    have hexpect : expect (.closing sort) fault s₂
        = .ok s₂.cursor.current ⟨s₂.cursor.advance, s₂.reports⟩ := at?_of_kind hkind₂
    have hok : (nested depth).primary (stateBefore text)
        = .ok (build bracket as') ⟨s₂.cursor.advance, s₂.reports⟩ := by
      rw [hprimary _ h.kind, literalOf, bind_of_ok htake, bind_of_ok helements, bind_of_ok hexpect]
      rfl
    refine ⟨bracket, as', _, program_of_expression (settled_stateBefore text) h.kind
      (expressionOf_of_primary hok h.kind ?_) hkind₃ hseen₃.cons.2.2.2, hbracket, has, ?_⟩
    · change s₂.cursor.advance.kind ∉ _
      rw [hkind₃]
      decide
    · have := hseen₂.reports
      rwa [Nat.zero_add] at this

/-- The depth that the expressions of a text are read with. -/
def innerDepth (text : List Char) : Nat := 2 * (stateBefore text).cursor.weight + 1

theorem program?_of_ok {statements}
    (h : (nested (innerDepth text + 1)).program (stateBefore text) = .ok statements t) :
    (Session.read text).program? = if t.reports.length = 0 then some statements else none := by
  have hread : Session.read text = ⟨statements, t.reports.reverse, t.cursor.tokens, true⟩ := by
    rw [innerDepth, stateBefore] at h
    rw [Session.read, Parsed.ofTokens]
    simp only [h]
  rw [hread, Parsed.program?, Bool.true_and, isEmpty_reverse]
  cases t.reports <;> rfl

theorem program?_of_literal (h : IsLiteral sort opener Separates items text)
    (hprimary : ∀ s : State, s.cursor.kind = .opening sort →
      (nested (innerDepth text)).primary s = literalOf sort fault item build s)
    (hreads : List.Forall₂ (ReadsAs view cost item) items as)
    (hstarts : ∀ tokens ∈ items, StartsItem tokens)
    (hdivides : ∀ between tokens behind, Separates between → tokens ∈ items.tail →
      Divides (.closing sort) between (tokens ++ behind))
    (hbuild : ∀ bracket as', bracket.bare = opener.bare → as'.map view = as →
      (build bracket as').bare = e) :
    (Session.read text).program?.map bareBody
      = if total cost [] as = 0 then some [.expression e] else none := by
  obtain ⟨bracket, as', t, hok, hbracket, has, hreports⟩ :=
    program_of_literal h (Nat.le_succ _) hprimary hreads hstarts hdivides
  rw [program?_of_ok hok, hreports]
  split
  · rw [Option.map_some, bareBody, bareBody, Stmt.bare, hbuild bracket as' hbracket has]
  · rfl

theorem between_of_commas {between} (h : Commas between) : Between between := by
  obtain ⟨before, comma, after, rfl, hbefore, hcomma, hafter⟩ := h
  refine forall_mem_append.mpr ⟨fun t ht => ?_, forall_mem_cons.mpr ⟨?_, fun t ht => ?_⟩⟩
  · rw [hbefore t ht]; decide
  · rw [hcomma]; decide
  · rw [hafter t ht]; decide

theorem between_of_lineBreaks {between} (h : LineBreaks between) : Between between :=
  fun t ht => by rw [h.2 t ht]; decide

/-! ## Lists -/

section Lists

variable {es : List Expr} {bracket : Token} {s : State}

/-- Every item is an expression by itself. -/
abbrev Expressions (items : List (List Token)) (es : List Expr) : Prop :=
  List.Forall₂ (fun tokens e => Expr.ofTokens? tokens = some e) items es

/-- Tokens that begin with one that can go on with an expression before them. -/
def GoesOn (tokens : List Token) : Prop :=
  firstKind? tokens ∈ [some (.opening .round), some (.opening .square), some .minus]

theorem mem_trailing_iff : ∀ kind ∈ startKinds, kind ∈ trailing ↔
    some kind ∈ [some (Kind.opening .round), some (.opening .square), some .minus] := by decide

theorem goesOn_iff {tokens kind} (hstart : kind ∈ startKinds)
    (hkind : firstKind? tokens = some kind) : GoesOn tokens ↔ kind ∈ trailing := by
  rw [GoesOn, hkind, mem_trailing_iff kind hstart]

theorem forall_mem_of_forall₂ {β : Type} {R : α → β → Prop} {p : α → Prop} {l : List α} {u : List β}
    (h : List.Forall₂ R l u) (hp : ∀ a b, R a b → p a) : ∀ a ∈ l, p a :=
  ((forall₂_and_left l u).mp (h.imp fun a b hab => ⟨hp a b hab, hab⟩)).1

theorem IsLiteral.own (h : IsLiteral sort opener Separates items text)
    (hseparates : ∀ between, Separates between → Between between) (hes : Expressions items es) :
    List.Forall₂ Own items es := by
  have hinner := h.inner hseparates
    (forall_mem_of_forall₂ hes fun _ _ he => staysInside_expression he)
  exact ((forall₂_and_left _ _).mpr ⟨hinner, hes⟩).imp fun _ _ he => ⟨he.2, he.1⟩

theorem startsItem_of_own (h : List.Forall₂ Own items es) : ∀ tokens ∈ items, StartsItem tokens :=
  forall_mem_of_forall₂ h fun _ _ he => he.starts

theorem readsAs_of_own (h : List.Forall₂ Own items es) :
    List.Forall₂ (ReadsAs Expr.bare (fun _ _ => 0) fun _ => (nested depth).expression) items
      (es.map Expr.bare) :=
  forall₂_map_right_iff.mpr (h.imp fun _ _ he => readsAs_expression he.reads he.inner)

theorem primary_square {n : Nested} (h : s.cursor.kind = .opening .square) :
    n.primary s = literalOf .square .expectedListEnd (fun _ => n.expression) .list s := by
  rw [primary, kind_bind, h]
  rfl

@[simp] theorem total_zero : ∀ earlier as : List γ, total (fun _ _ => 0) earlier as = 0
  | _, [] => rfl
  | earlier, a :: as => by rw [total, total_zero]

theorem program?_of_own (h : IsLiteral .square opener Separates items text)
    (hown : List.Forall₂ Own items es)
    (hdivides : ∀ between tokens behind, Separates between → tokens ∈ items.tail →
      Divides (.closing .square) between (tokens ++ behind)) :
    (Session.read text).program?.map bareBody
      = some [.expression (.list opener.bare (bareAll es))] := by
  rw [program?_of_literal h (fun s => primary_square) (readsAs_of_own hown) (startsItem_of_own hown)
    hdivides fun bracket es' hbracket hes' => ?_, if_pos (total_zero _ _)]
  simp [Expr.bare, hbracket, hes']

theorem program?_of_commas (h : IsLiteral .square opener Commas items text)
    (hes : Expressions items es) : (Session.read text).program?.map bareBody
      = some [.expression (.list opener.bare (bareAll es))] :=
  program?_of_own h (h.own (fun _ => between_of_commas) hes) fun _ _ _ hcommas _ =>
    divides_commas hcommas

theorem program?_of_lineBreaks (h : IsLiteral .square opener LineBreaks items text)
    (hes : Expressions items es) (hstops : ∀ tokens ∈ items.tail, ¬ GoesOn tokens) :
    (Session.read text).program?.map bareBody
      = some [.expression (.list opener.bare (bareAll es))] := by
  have hown := h.own (fun _ => between_of_lineBreaks) hes
  refine program?_of_own h hown fun between tokens behind hbreaks htokens => ?_
  obtain ⟨kind, hstart, hkind⟩ := startsItem_of_own hown tokens (mem_of_mem_tail htokens)
  exact divides_lineBreaks hbreaks (firstKind?_append hkind behind) hstart
    ((goesOn_iff hstart hkind).not.mp (hstops tokens htokens))

theorem exists_of_bare_list (h : e.bare = .list bracket es) :
    ∃ bracket' es', e = .list bracket' es' ∧ bareAll es' = es := by
  cases e <;> try cases h
  exact ⟨_, _, rfl, rfl⟩

/-- Where an item goes on with the one before, another list is read. -/
theorem elements_ne_of_goesOn {found} (h : IsLiteral .square opener LineBreaks items text)
    (hes : Expressions items es) (hgoes : ∃ tokens ∈ items.tail, GoesOn tokens)
    (htake : take (stateBefore text) = .ok bracket s)
    (hok : elements (.closing .square) (fun _ => (nested depth).expression) s = .ok found t) :
    found.map Expr.bare ≠ es.map Expr.bare := by
  have hown := h.own (fun _ => between_of_lineBreaks) hes
  obtain ⟨lead, inner, trail, closer, newline, hlead, hjoined, -, -, -, hbare⟩ := h.tokens
  obtain ⟨_, _, htake', -, hseen⟩ := take_stateBefore hbare (by rw [h.opens]; nofun)
  cases (htake.symm.trans htake')
  rw [sights_soft hlead] at hseen
  rw [elements_eq] at hok
  obtain ⟨found, u, hrounds, hok⟩ := exists_of_bind_eq_ok hok
  obtain ⟨rfl, -⟩ := EStateM.Result.ok.inj hok
  obtain ⟨n, hn⟩ := exists_iterate_eq
    (elementRound (.closing .square) fun _ => (nested depth).expression) ([], true) s
  have hne := rounds_of_trailing hjoined hown ?_ n [] _ 0 s u found hseen (hn ▸ hrounds)
  · exact hne
  · obtain ⟨tokens, htokens, hgoes⟩ := hgoes
    obtain ⟨kind, hstart, hkind⟩ := startsItem_of_own hown tokens (mem_of_mem_tail htokens)
    exact ⟨tokens, htokens, kind, (goesOn_iff hstart hkind).mp hgoes, hkind⟩

theorem program?_ne_of_goesOn (h : IsLiteral .square opener LineBreaks items text)
    (hes : Expressions items es) (hgoes : ∃ tokens ∈ items.tail, GoesOn tokens) (bracket : Token) :
    (Session.read text).program?.map bareBody
      ≠ some [.expression (.list bracket (bareAll es))] := by
  intro hread
  obtain ⟨statements, t, hok, -, -⟩ :=
    exists_program_eq_ok (settled_stateBefore text) (Nat.le_succ (innerDepth text))
  rw [program?_of_ok hok] at hread
  obtain ⟨hclean, hread⟩ : t.reports.length = 0 ∧
      bareBody statements = [.expression (.list bracket (bareAll es))] := by
    simpa [Option.map_if] using hread
  obtain ⟨e, u, later, hexpression, rfl⟩ := exists_expression_of_program (settled_stateBefore text)
    (Nat.le_succ _) h.kind hok (length_eq_zero_iff.mp hclean)
  rw [bareBody, Stmt.bare] at hread
  obtain ⟨bracket', es', rfl, hes'⟩ :=
    exists_of_bare_list (Stmt.expression.inj (cons.inj hread).1)
  obtain ⟨w, hprimary⟩ := primary_of_list h.kind hexpression
  rw [primary_square h.kind] at hprimary
  obtain ⟨_, s₁, htake, hprimary⟩ := exists_of_bind_eq_ok hprimary
  obtain ⟨found, s₂, helements, hprimary⟩ := exists_of_bind_eq_ok hprimary
  obtain ⟨_, _, -, hprimary⟩ := exists_of_bind_eq_ok hprimary
  obtain ⟨-, rfl⟩ := Expr.list.inj (EStateM.Result.ok.inj hprimary).1
  rw [bareAll_eq, bareAll_eq] at hes'
  exact elements_ne_of_goesOn h hes hgoes htake helements hes'

end Lists

/-! ## Records -/

section Records

variable {fields : List Field}

/-- Every item is a field by itself. -/
abbrev Fields (items : List (List Token)) (fields : List Field) : Prop :=
  List.Forall₂ (fun tokens field => Field.ofTokens? tokens = some field) items fields

/-- The keys of fields. -/
def keys (fields : List Field) : List String := fields.map (·.key.lexeme)

@[simp] theorem keys_bare (fields : List Field) : keys (fields.map Field.bare) = keys fields := by
  rw [keys, keys, map_map]
  refine map_congr_left fun field _ => ?_
  cases field
  rfl

theorem primary_curly {n : Nested} {s : State} (h : s.cursor.kind = .opening .curly) :
    n.primary s = literalOf .curly .expectedRecordEnd n.field .record s := by
  rw [primary, kind_bind, h]
  rfl

theorem repeats_eq_zero_iff {field earlier} :
    repeats earlier field = 0 ↔ field.key.lexeme ∉ keys earlier := by
  have hany : earlier.any (·.key.lexeme == field.key.lexeme) = true ↔
      field.key.lexeme ∈ keys earlier := by
    rw [keys, any_eq_true, mem_map]
    simp only [beq_iff_eq]
  rw [repeats, ← hany]
  split <;> simp [*]

/-- Reports are made exactly if a key is repeated. -/
theorem total_repeats_eq_zero_iff : ∀ earlier fields : List Field,
    total repeats earlier fields = 0 ↔ (keys fields).Nodup ∧ (keys earlier).Disjoint (keys fields)
  | _, [] => by simp [total, keys]
  | earlier, field :: fields => by
    rw [total, Nat.add_eq_zero_iff, repeats_eq_zero_iff, total_repeats_eq_zero_iff]
    simp only [keys, map_append, map_cons, map_nil, nodup_cons]
    simp only [disjoint_append_left, disjoint_cons_right, singleton_disjoint]
    tauto

theorem program?_of_fields (h : IsLiteral .curly opener Separates items text)
    (hfields : Fields items fields)
    (hseparates : ∀ between, Separates between → Between between)
    (hdivides : ∀ between after, Separates between → firstKind? after = some .identifier →
      Divides (.closing .curly) between after) :
    (Session.read text).program?.map bareBody
      = if (keys fields).Nodup then some [.expression (.record opener.bare (bareFields fields))]
        else none := by
  have hinner := h.inner hseparates
    (forall_mem_of_forall₂ hfields fun _ _ hfield => staysInside_field hfield)
  have hown := (forall₂_and_left _ _).mpr ⟨hinner, hfields⟩
  have hfirst : ∀ tokens ∈ items, firstKind? tokens = some .identifier :=
    forall_mem_of_forall₂ hown fun _ _ hfield => firstKind?_of_field hfield.2 hfield.1
  have hreads : List.Forall₂ (ReadsAs Field.bare repeats (nested (innerDepth text)).field) items
      (fields.map Field.bare) :=
    forall₂_map_right_iff.mpr (hown.imp fun _ _ hfield => readsAs_field hfield.2 hfield.1)
  rw [program?_of_literal (e := .record opener.bare (bareFields fields)) h (fun s => primary_curly)
    hreads (fun tokens htokens => ⟨_, by decide, hfirst tokens htokens⟩)
    (fun between tokens behind hbetween htokens => hdivides between _ hbetween
      (firstKind?_append (hfirst tokens (mem_of_mem_tail htokens)) behind))
    fun brace fields' hbrace hfields' => by
      rw [Expr.bare, hbrace, bareFields_eq, bareFields_eq, hfields']]
  have hnone : (keys []).Disjoint (keys fields) := disjoint_nil_left _
  simp [total_repeats_eq_zero_iff, hnone]

end Records

end Parser

/-- **Between the items of a literal line breaks are what commas are**: between the items of a list
exactly where no item goes on with the one before, and between the fields of a record always. -/
theorem program?_lineBreaks_eq_commas {opener : Token} {items : List (List Token)}
    {listed broken : List Char} :
    (∀ es, Expressions items es → IsLiteral .square opener Commas items listed →
      IsLiteral .square opener LineBreaks items broken →
      (Session.read listed).program?.map bareBody
          = some [.expression (.list opener.bare (bareAll es))] ∧
        ((Session.read broken).program?.map bareBody = (Session.read listed).program?.map bareBody ↔
          ∀ tokens ∈ items.tail, ¬ GoesOn tokens)) ∧
    ∀ fields, Fields items fields → IsLiteral .curly opener Commas items listed →
      IsLiteral .curly opener LineBreaks items broken →
      (Session.read listed).program?.map bareBody
          = (if (keys fields).Nodup then
              some [.expression (.record opener.bare (bareFields fields))] else none) ∧
        (Session.read broken).program?.map bareBody
          = (Session.read listed).program?.map bareBody := by
  refine ⟨fun es hes hlisted hbroken => ?_, fun fields hfields hlisted hbroken => ?_⟩
  · have hcommas := program?_of_commas hlisted hes
    refine ⟨hcommas, fun hsame tokens htokens hgoes => ?_, fun hstops => ?_⟩
    · exact program?_ne_of_goesOn hbroken hes ⟨tokens, htokens, hgoes⟩ _ (hsame.trans hcommas)
    · rw [program?_of_lineBreaks hbroken hes hstops, hcommas]
  · have hcommas := program?_of_fields hlisted hfields (fun _ => between_of_commas)
      fun _ _ hbetween _ => divides_commas hbetween
    refine ⟨hcommas, ?_⟩
    rw [hcommas]
    exact program?_of_fields hbroken hfields (fun _ => between_of_lineBreaks)
      fun _ _ hbetween hkind => divides_lineBreaks hbetween hkind (by decide) (by decide)

/-- The token of a number. -/
def Token.numeral (digits : String) : Token := ⟨.number, digits, some (.number digits), .start⟩

theorem commas_mark : Commas [mark .comma ","] :=
  ⟨[], mark .comma ",", [], rfl, forall_mem_nil _, rfl, forall_mem_nil _⟩

theorem soft_mark : Soft [mark .softNewline "\n"] := forall_mem_singleton.mpr rfl

theorem lineBreaks_mark : LineBreaks [mark .softNewline "\n"] := ⟨cons_ne_nil _ _, soft_mark⟩

/-- A literal with two items, on lines of its own or not. -/
theorem isLiteral_pair {Separates sort opener} (closer : Token) {first second lead between text}
    (hopens : opener.kind = .opening sort) (hcloses : closer.kind = .closing sort)
    (hbetween : Separates between) (hlead : Soft lead) (hintact : (scan text).faults = [])
    (hbare : bareTokens text = (opener :: (lead ++ (first ++ (between ++ second) ++
      (lead ++ [closer, mark .newline "\n"])))).map bare) :
    IsLiteral sort opener Separates [first, second] text :=
  ⟨hintact, hopens, lead, _, lead, closer, _, hlead, .more hbetween .one, hlead, hcloses, rfl,
    hbare⟩

theorem exists_forall₂_of_all_isSome {α β : Type} {f : α → Option β} : ∀ {l : List α},
    l.all (fun a => (f a).isSome) = true → ∃ u, List.Forall₂ (fun a b => f a = some b) l u
  | [], _ => ⟨[], .nil⟩
  | a :: l, h => by
    rw [all_cons, Bool.and_eq_true] at h
    obtain ⟨b, hb⟩ := Option.isSome_iff_exists.mp h.1
    obtain ⟨u, hu⟩ := exists_forall₂_of_all_isSome h.2
    exact ⟨b :: u, .cons hb hu⟩

/-- A number, and a call behind it. -/
def callItems : List (List Token) :=
  [[numeral "1"], [mark .identifier "f", mark (.opening .round) "(", mark .minus "-", numeral "2",
    mark (.closing .round) ")"]]

/-- Two fields. -/
def fieldItems : List (List Token) :=
  [[mark .identifier "a", mark .colon ":", numeral "1"],
    [mark .identifier "b", mark .colon ":", mark .minus "-", numeral "2"]]

theorem program?_lineBreaks_eq_commas_calls : (∃ es, Expressions callItems es ∧
      (Session.read "[1, f(-2)]\n".toList).program?.map bareBody
        = some [.expression (.list (mark (.opening .square) "[") (bareAll es))] ∧
      (Session.read "[\n  1\n  f(-2)\n]\n".toList).program?.map bareBody
        = (Session.read "[1, f(-2)]\n".toList).program?.map bareBody) ∧
    ∃ fields, Fields fieldItems fields ∧
      (Session.read "\x7b\n  a: 1\n\n  b: -2\n\x7d\n".toList).program?.map bareBody
        = (Session.read "\x7ba: 1, b: -2\x7d\n".toList).program?.map bareBody := by
  constructor
  · have hlisted : IsLiteral .square (mark (.opening .square) "[") Commas callItems
        "[1, f(-2)]\n".toList :=
      isLiteral_pair (mark (.closing .square) "]") rfl rfl commas_mark (forall_mem_nil _)
        (by decide +kernel) (by decide +kernel)
    have hbroken : IsLiteral .square (mark (.opening .square) "[") LineBreaks callItems
        "[\n  1\n  f(-2)\n]\n".toList :=
      isLiteral_pair (mark (.closing .square) "]") rfl rfl lineBreaks_mark soft_mark
        (by decide +kernel) (by decide +kernel)
    obtain ⟨es, hes⟩ := exists_forall₂_of_all_isSome
      (by decide +kernel : callItems.all (fun tokens => (Expr.ofTokens? tokens).isSome) = true)
    have hboth := program?_lineBreaks_eq_commas.1 es hes hlisted hbroken
    refine ⟨es, hes, hboth.1, hboth.2.mpr (forall_mem_singleton.mpr ?_)⟩
    rw [GoesOn]
    decide
  · have hlisted : IsLiteral .curly (mark (.opening .curly) "\x7b") Commas fieldItems
        "\x7ba: 1, b: -2\x7d\n".toList :=
      isLiteral_pair (mark (.closing .curly) "\x7d") rfl rfl commas_mark (forall_mem_nil _)
        (by decide +kernel) (by decide +kernel)
    have hbroken : IsLiteral .curly (mark (.opening .curly) "\x7b") LineBreaks fieldItems
        "\x7b\n  a: 1\n\n  b: -2\n\x7d\n".toList :=
      isLiteral_pair (mark (.closing .curly) "\x7d") rfl rfl lineBreaks_mark soft_mark
        (by decide +kernel) (by decide +kernel)
    obtain ⟨fields, hfields⟩ := exists_forall₂_of_all_isSome
      (by decide +kernel : fieldItems.all (fun tokens => (Field.ofTokens? tokens).isSome) = true)
    exact ⟨fields, hfields, (program?_lineBreaks_eq_commas.2 fields hfields hlisted hbroken).2⟩

/-- A number, and a negated one behind it. -/
def negatedItems : List (List Token) := [[numeral "1"], [mark .minus "-", numeral "2"]]

/-- Behind a comma a minus negates, behind a line break it subtracts. -/
theorem negated_behind_lineBreak : ∃ es, Expressions negatedItems es ∧
    IsLiteral .square (mark (.opening .square) "[") Commas negatedItems "[1, -2]\n".toList ∧
    IsLiteral .square (mark (.opening .square) "[") LineBreaks negatedItems "[1\n-2]\n".toList ∧
    (Session.read "[1\n-2]\n".toList).program?.map bareBody
      ≠ (Session.read "[1, -2]\n".toList).program?.map bareBody := by
  have hlisted : IsLiteral .square (mark (.opening .square) "[") Commas negatedItems
      "[1, -2]\n".toList :=
    isLiteral_pair (mark (.closing .square) "]") rfl rfl commas_mark (forall_mem_nil _)
      (by decide +kernel) (by decide +kernel)
  have hbroken : IsLiteral .square (mark (.opening .square) "[") LineBreaks negatedItems
      "[1\n-2]\n".toList :=
    isLiteral_pair (mark (.closing .square) "]") rfl rfl lineBreaks_mark (forall_mem_nil _)
      (by decide +kernel) (by decide +kernel)
  obtain ⟨es, hes⟩ := exists_forall₂_of_all_isSome
    (by decide +kernel : negatedItems.all (fun tokens => (Expr.ofTokens? tokens).isSome) = true)
  refine ⟨es, hes, hlisted, hbroken, ?_⟩
  rw [program?_of_commas hlisted hes]
  refine program?_ne_of_goesOn hbroken hes ⟨_, mem_singleton_self _, ?_⟩ _
  rw [GoesOn]
  decide

end Offside
