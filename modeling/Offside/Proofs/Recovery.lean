import Offside.Proofs.Embedding

/-!
# Proofs/Recovery — statements one after another

A program is read statement by statement (`Runs`).  With more tokens behind it the same statements
are read, and reading arrives at those tokens (`Arrives`), but for two exceptions.  A malformed
statement on a single line may miss a block, and then only finds out behind its line break
(`Misses`).  A conditional statement that a program ends with may have further branches (`Hangs`).
-/

namespace Offside

open Offside.Parser

variable {α : Type}

theorem Parser.bind_congr {β : Type} {p p' : Parser α} {q : α → Parser β} {s s' : State}
    (h : p s = p' s') : (p >>= q) s = (p' >>= q) s' := by
  change EStateM.bind _ _ s = EStateM.bind _ _ s'
  unfold EStateM.bind
  rw [h]

namespace Nested

open Offside.Cursor (Line Closes)

variable {w : Whole} {n n' : Nested} {s s' t t' u : State} {stmts : List Stmt}

/-! ## Runs -/

/-- From one state to the other all statements of a program are read. -/
inductive Runs (n : Nested) : State → State → Prop
  | done {s : State} (heof : s.cursor.skipNewlines.kind = .eof) :
    Runs n s ⟨s.cursor.skipNewlines, s.reports⟩
  | dedent {s t : State} (hdedent : s.cursor.skipNewlines.kind = .dedent)
    (hrest : Runs n ⟨s.cursor.skipNewlines.advance, s.reports⟩ t) : Runs n s t
  | further {s t u : State} {found : Option Stmt}
    (hdedent : s.cursor.skipNewlines.kind ≠ .dedent) (heof : s.cursor.skipNewlines.kind ≠ .eof)
    (hfound : recover (n.statement false) ⟨s.cursor.skipNewlines, s.reports⟩ = .ok found u)
    (hrest : Runs n u t) : Runs n s t

/-- A round over the statements of a program is the first step of a run. -/
theorem programRound_cases {next} (h : n.programRound stmts s = .ok next t) :
    (next = none ∧ Runs n s t) ∨ (next.isSome ∧ ∀ u, Runs n t u → Runs n s u) := by
  rw [programRound, bind_of_ok (p := move _) rfl] at h
  by_cases heof : s.cursor.skipNewlines.kind = .eof
  · rw [at?_of_kind heof] at h
    cases h
    exact .inl ⟨rfl, .done heof⟩
  · rw [at?_of_kind_ne heof] at h
    by_cases hdedent : s.cursor.skipNewlines.kind = .dedent
    · rw [accept_of_kind hdedent] at h
      cases h
      exact .inr ⟨rfl, fun _ => .dedent hdedent⟩
    · rw [accept_of_kind_ne hdedent] at h
      obtain ⟨found, u, hfound, h⟩ := exists_of_bind_eq_ok h
      cases h
      exact .inr ⟨rfl, fun _ => .further hdedent heof hfound⟩

theorem runs_of_iterateUpTo :
    ∀ {k stmts stmts' s}, iterateUpTo n.programRound k stmts s = .ok stmts' t → Runs n s t
  | 0, _, _, _, h => by cases h
  | k + 1, stmts, stmts', s, h => by
    obtain ⟨next, u, hround, h⟩ := exists_of_bind_eq_ok h
    rcases programRound_cases hround with ⟨rfl, hruns⟩ | ⟨hsome, hruns⟩
    · cases h
      exact hruns
    · obtain ⟨later, rfl⟩ := Option.isSome_iff_exists.mp hsome
      exact hruns t (runs_of_iterateUpTo h)

/-- A program that was read to its end was run. -/
theorem runs_of_program (h : n.program s = .ok stmts t) : Runs n s t := by
  obtain ⟨count, hcount⟩ := exists_iterate_eq n.programRound [] s
  exact runs_of_iterateUpTo (hcount.symm.trans h)

variable (h : Follows w n n') {m : Trail} {u' : State} {p' p : Parser Stmt}
include h

/-- The next statement of a program is read alike. -/
theorem tracks_next (heof : s.cursor.skipNewlines.kind ≠ .eof) (s' : State) :
    Tracks w .ending .any .any blind (n.statement false) (n'.statement false)
      ⟨s.cursor.skipNewlines, s.reports⟩ s' :=
  (tracks_statement h false heof).lower (by decide)

/-- The next statement of a program is read, or given up, alike. -/
theorem tracks_recover (heof : s.cursor.skipNewlines.kind ≠ .eof) (s' : State) :
    Tracks w .inside .any .any Option.isSome
      (recover (n.statement false)) (recover (n'.statement false))
      ⟨s.cursor.skipNewlines, s.reports⟩ s' :=
  .recover (tracks_next h heof s') nofun (by decide) id

omit h

namespace Runs

theorem eq_of_eof (h : Runs n s t) (heof : s.cursor.skipNewlines.kind = .eof) :
    t = ⟨s.cursor.skipNewlines, s.reports⟩ := by
  cases h with
  | done => rfl
  | dedent hdedent => rw [heof] at hdedent; cases hdedent
  | further _ hne => exact absurd heof hne

theorem of_dedent (h : Runs n s t) (hdedent : s.cursor.skipNewlines.kind = .dedent) :
    Runs n ⟨s.cursor.skipNewlines.advance, s.reports⟩ t := by
  cases h with
  | done heof => rw [heof] at hdedent; cases hdedent
  | dedent _ hrest => exact hrest
  | further hne => exact absurd hdedent hne

theorem of_further (h : Runs n s t) (hdedent : s.cursor.skipNewlines.kind ≠ .dedent)
    (heof : s.cursor.skipNewlines.kind ≠ .eof) : ∃ found u,
      recover (n.statement false) ⟨s.cursor.skipNewlines, s.reports⟩ = .ok found u ∧
        Runs n u t := by
  cases h with
  | done h => exact absurd h heof
  | dedent h => exact absurd h hdedent
  | further _ _ hfound hrest => exact ⟨_, _, hfound, hrest⟩

/-- Line breaks before the next statement can be skipped at any time. -/
theorem skip (h : Runs n s t) (hs : s.cursor.Settled) :
    Runs n ⟨s.cursor.skipNewlines, s.reports⟩ t := by
  have hsettled := hs.reaches (Cursor.reaches_skipNewlines hs)
  have hskip : s.cursor.skipNewlines.skipNewlines = s.cursor.skipNewlines :=
    Cursor.skipNewlines_of_kind_ne hsettled (Cursor.kind_skipNewlines hs)
  cases h with
  | done heof =>
    have hdone := Runs.done (n := n) (s := ⟨s.cursor.skipNewlines, s.reports⟩) (by rwa [hskip])
    rwa [hskip] at hdone
  | dedent hdedent hrest => exact .dedent (by rwa [hskip]) (by rwa [hskip])
  | further hdedent heof hfound hrest =>
    exact .further (by rwa [hskip]) (by rwa [hskip]) (by rwa [hskip]) hrest

/-- Reports are only added. -/
theorem reports (h : Follows w n n') (hruns : Runs n s t) (hs : Stands w .any s) :
    s.reports <:+ t.reports := by
  induction hruns with
  | done heof => exact List.suffix_refl _
  | @dedent s t hdedent hrest ih =>
    have hs₁ := hs.skipNewlines (by decide)
    exact ih ((hs₁.advance (hs₁.rest_ne_nil (hdedent ▸ nofun))).lower (by decide))
  | @further s t u found hdedent heof hfound hrest ih =>
    have halone := ((tracks_recover h heof s).ok hfound (hs.skipNewlines (by decide))).1
    exact halone.reports.trans (ih halone.stands)

/-- **A program is read alike wherever it stands**, if it is the last one. -/
theorem like (h : Follows w n n') (hw : w.behind = []) (hruns : Runs n s t) :
    ∀ {s' t'}, Stands w .any s → Like w .any s s' → Runs n' s' t' → Like w .any t t' := by
  induction hruns with
  | @done s heof =>
    intro s' t' hs hlike hruns'
    have hlike₁ := hlike.skipNewlines hs
    have hkind := hlike₁.cursor.kind (hs.skipNewlines (by decide)).settled.final (.inr hw)
    rw [hruns'.eq_of_eof (hkind.trans heof)]
    exact hlike₁
  | @dedent s t hdedent hrest ih =>
    intro s' t' hs hlike hruns'
    have hs₁ := hs.skipNewlines (by decide)
    have hlike₁ := hlike.skipNewlines hs
    have hne := hs₁.rest_ne_nil (hdedent ▸ nofun)
    have hkind := hlike₁.cursor.kind hs₁.settled.final (.inr hw)
    exact ih ((hs₁.advance hne).lower (by decide)) (hlike₁.advance hs₁ hne)
      (hruns'.of_dedent (hkind.trans hdedent))
  | @further s t u found hdedent heof hfound hrest ih =>
    intro s' t' hs hlike hruns'
    have hs₁ := hs.skipNewlines (by decide)
    have hlike₁ := hlike.skipNewlines hs
    have hkind := hlike₁.cursor.kind hs₁.settled.final (.inr hw)
    obtain ⟨found', u', hfound', hrest'⟩ := hruns'.of_further (hkind ▸ hdedent) (hkind ▸ heof)
    obtain ⟨halone, htogether⟩ := (tracks_recover h heof _).ok hfound hs₁
    exact ih halone.stands ((htogether hlike₁ (.inl (.inr hw))).like hfound') hrest'

end Runs

/-! ## A single line -/

/-- Reading arrives at the tokens behind. -/
def Arrives (w : Whole) (n' : Nested) (t t' : State) : Prop := ∃ y, Like w .any t y ∧ Runs n' y t'

/-- A statement is given up behind the tokens, for want of a block. -/
def GivesUp (w : Whole) (u' : State) : Prop :=
  ∃ v v' r', v.cursor.rest = [] ∧ Stands w .any v ∧ Like w .any v v' ∧
    r'.fault = .expectedBlock ∧ u' = ⟨v'.cursor.skipStatement, ⟨r', true⟩ :: v'.reports⟩

/-- A block is missed.  Unless there is one behind, what stands there is skipped. -/
def Misses (w : Whole) (n' : Nested) (t t' : State) : Prop :=
  (∃ r ∈ t.reports, r.fault = .expectedBlock) ∧
    ((∀ u ∈ w.behind.head?, u.kind ≠ .indent) → ∃ u', GivesUp w u' ∧ Runs n' u' t')

/-- A statement that begins on a single line is read or given up alike, or it has missed a block. -/
theorem line_cases {view : α → Unit} {p p' : Parser α} {found found' : Option α}
    (hp : Tracks w .ending m .any view p p' s s')
    (hs : Stands w m s) (hlike : Like w m s s') (hline : Line s.cursor.rest)
    (hfound : recover p s = .ok found u) (hfound' : recover p' s' = .ok found' u') :
    Stands w .any u ∧ (Like w .any u u' ∧ (Line u.cursor.rest ∨ u.cursor.rest = []) ∧ Told s u ∨
        (∃ r ∈ u.reports, r.fault = .expectedBlock) ∧
          ((∀ u ∈ w.behind.head?, u.kind ≠ .indent) → GivesUp w u')) := by
  rcases recover_cases hfound with ⟨a, hr, rfl⟩ | ⟨r, v, hr, rfl, rfl⟩
  · obtain ⟨halone, htogether⟩ := hp.ok hr hs
    have hmatch := htogether hlike (.inr (.inr ⟨rfl, hline⟩))
    exact ⟨halone.stands, .inl ⟨hmatch.recover.like hfound', halone.lines hline⟩⟩
  · obtain ⟨halone, htogether⟩ := hp.refused hr hs
    have hu := halone.stands.skipStatement (l := .any) (by decide) (⟨r, true⟩ :: v.reports)
    have hechoes (hfails : Fails w .ending s v) : ∃ v' r', r'.fault = r.fault ∧ Like w .any v v' ∧
          u' = ⟨v'.cursor.skipStatement, ⟨r', true⟩ :: v'.reports⟩ := by
      have hecho := htogether hlike hfails
      rcases recover_cases hfound' with ⟨a', hr', -⟩ | ⟨r', v', hr', -, rfl⟩
      · rw [hr'] at hecho
        exact hecho.elim
      · rw [hr'] at hecho
        exact ⟨v', r', hecho.1, hecho.2.lower fun _ => rfl, rfl⟩
    obtain ⟨htold, ⟨hrest, hne⟩ | ⟨hnil, hfault⟩⟩ := halone.line rfl hline
    · have hshown : Shown w v := .inl hrest.ne_nil
      obtain ⟨v', r', hfault, hlike', rfl⟩ := hechoes (.inl hshown)
      refine ⟨hu, .inl ⟨hlike'.skipStatement halone.stands hshown hfault,
        .inr hrest.rest_skipStatement, htold.trans fun r' hr' => ?_⟩⟩
      rcases List.mem_cons.mp hr' with rfl | hr'
      · exact .inr hne
      · exact .inl hr'
    · refine ⟨hu, .inr ⟨⟨⟨r, true⟩, List.mem_cons_self, hfault⟩, fun hhead => ?_⟩⟩
      obtain ⟨v', r', hfault', hlike', rfl⟩ := hechoes (.inr ⟨rfl, hline, hhead⟩)
      exact ⟨v, v', r', hnil, halone.stands, hlike', hfault'.trans hfault, rfl⟩

/-- On a single line nothing is skipped before a statement. -/
theorem skipNewlines_of_line (hs : s.cursor.Settled) (h : Line s.cursor.rest ∨ s.cursor.rest = []) :
    s.cursor.skipNewlines.rest = [] ∨ s.cursor.skipNewlines = s.cursor ∧ Line s.cursor.rest := by
  rcases h with hline | hnil
  · by_cases hnewline : s.cursor.kind = .newline
    · rw [(Cursor.skipNewlines_of_newline hs hnewline).2]
      exact .inl (Cursor.rest_skipNewlines_eq_nil (hline.advance_newline hnewline))
    · exact .inr ⟨Cursor.skipNewlines_of_kind_ne hs hnewline, hline⟩
  · exact .inl (Cursor.rest_skipNewlines_eq_nil hnil)

include h in
/-- **A single line is read alike before other tokens**, or a block is missed on it. -/
theorem Runs.line (hruns : Runs n s t) : ∀ {s' t'}, Stands w .any s → Like w .any s s' →
      Runs n' s' t' → Line s.cursor.rest ∨ s.cursor.rest = [] →
        Arrives w n' t t' ∧ Told s t ∨ Misses w n' t t' := by
  induction hruns with
  | @done s heof =>
    intro s' t' hs hlike hruns' _
    exact .inl ⟨⟨_, hlike.skipNewlines hs, hruns'.skip (hlike.cursor.settled hs.start hs.settled)⟩,
      .refl s⟩
  | @dedent s t hdedent hrest ih =>
    intro s' t' hs hlike hruns' hline
    have hs₁ := hs.skipNewlines (by decide)
    rcases skipNewlines_of_line hs.settled hline with hnil | ⟨hsame, hline⟩
    · exact absurd hnil (hs₁.rest_ne_nil (hdedent ▸ nofun))
    · exact absurd (hsame ▸ hdedent) hline.kind_ne_block.2
  | @further s t u found hdedent heof hfound hrest ih =>
    intro s' t' hs hlike hruns' hline
    have hs₁ := hs.skipNewlines (by decide)
    have hlike₁ := hlike.skipNewlines hs
    have hne := hs₁.rest_ne_nil heof
    rcases skipNewlines_of_line hs.settled hline with hnil | ⟨hsame, hline⟩
    · exact absurd hnil hne
    · have hkind := hlike₁.cursor.kind hs₁.settled.final (.inl hne)
      obtain ⟨found', u', hfound', hrest'⟩ := hruns'.of_further (hkind ▸ hdedent) (hkind ▸ heof)
      obtain ⟨hu, ⟨hlike', hline', htold⟩ | ⟨⟨r, hr, hfault⟩, hgives⟩⟩ :=
        line_cases (tracks_next h heof _) hs₁ hlike₁ (by rwa [hsame]) hfound hfound'
      · exact (ih hu hlike' hrest' hline').imp_left (.imp_right htold.trans)
      · exact .inr ⟨⟨r, (hrest.reports h hu).subset hr, hfault⟩, fun hhead =>
          ⟨u', hgives hhead, hrest'⟩⟩

/-! ## Branches -/

/-- A branch with a condition of its own. -/
def branch (n : Nested) : Parser (Token × Expr × List Stmt) := do
  let keyword ← take
  let condition ← n.expression
  let body ← n.block false
  return (keyword, condition, body)

/-- One more branch of a conditional statement, or none. -/
def branchRound (n : Nested) (found : List (Token × Expr × List Stmt)) :
    Parser (Option (List (Token × Expr × List Stmt))) := do
  move Cursor.splitLeadingWord
  if ← at? (.keyword .elif) then
    return some (found ++ [← n.branch])
  else
    return none

/-- The last branch of a conditional statement, if there is one. -/
def lastBranch (n : Nested) (first : Token × Expr × List Stmt)
    (further : List (Token × Expr × List Stmt)) : Parser Stmt := do
  let last ← do
    if ← accept (.keyword .«else») then pure (.body (← n.block false)) else pure .nothing
  return .branch first.1 first.2.1 first.2.2 <|
    further.foldr (fun (keyword, condition, body) rest => .branch keyword condition body rest) last

theorem branches_eq : n.branches false = iterate n.branchRound [] := by
  unfold branches
  congr 1
  funext found
  simp only [branchRound, branch, bind_assoc, pure_bind]

theorem conditional_eq : n.conditional false =
    n.branch >>= fun first => iterate n.branchRound [] >>= n.lastBranch first := by
  rw [← branches_eq]
  simp only [conditional, branch, bind_assoc, pure_bind]
  rfl

include h

theorem tracks_branch {k} (hkind : s.cursor.kind = .keyword k) :
    Tracks w .sealed m .solid blind n.branch n'.branch s s' :=
  .seq rfl (.takeKind hkind rfl) <|
    .seq rfl (h.expression ..) <|
    .seq rfl (tracks_block h false) <| .pure rfl rfl

theorem tracks_branchRound (found found' : List (Token × Expr × List Stmt)) :
    Tracks w .within .solid .solid (Option.map fun _ => ()) (n.branchRound found)
      (n'.branchRound found') s s' :=
  .bind_of rfl id (.splitLeadingWord (e := .within) rfl nofun) fun _ _ _ _ _ _ =>
    .at? nofun (fun hkind => (tracks_branch h hkind).within.map fun _ _ _ => rfl)
      fun _ => .pure rfl rfl

theorem tracks_lastBranch (first first' : Token × Expr × List Stmt)
    (further further' : List (Token × Expr × List Stmt)) {e} (he : Extent.sealed.before e)
    (hshown : e.seals → Stands w .solid s → Shown w s) :
    Tracks w e .solid .solid blind (n.lastBranch first further)
      (n'.lastBranch first' further') s s' := by
  exact .accept hshown he rfl
    (fun _ _ => .bind_of he (by simp) (tracks_block h false) fun _ _ _ _ _ _ =>
      .given (.pure he rfl))
    (.given (.pure he rfl))

/-- What is left of a conditional statement behind one of its branches. -/
def Pending (n : Nested) (p : Parser Stmt) : Prop :=
  ∃ count found first, p = iterateUpTo n.branchRound count found >>= n.lastBranch first

theorem tracks_pending (hp : n.Pending p) (hp' : n'.Pending p') :
    Tracks w .within .solid .solid blind p p' s s' := by
  obtain ⟨count, found, first, rfl⟩ := hp
  obtain ⟨count', found', first', rfl⟩ := hp'
  exact .seq rfl (.iterateUpTo (fun _ _ _ _ _ => tracks_branchRound h _ _) _ _ _ _ _ _ rfl) <|
    tracks_lastBranch h _ _ _ _ rfl nofun

omit h

/-- What follows the first branch is what is left behind it. -/
theorem exists_pending (first : Token × Expr × List Stmt) (s : State) : ∃ p, n.Pending p ∧
    (iterate n.branchRound [] >>= n.lastBranch first) s = p s := by
  obtain ⟨count, hcount⟩ := exists_iterate_eq n.branchRound [] s
  refine ⟨_, ⟨count, [], first, rfl⟩, ?_⟩
  exact bind_congr hcount

section Branching

variable {first first' : Token × Expr × List Stmt} {stmt : Stmt}
  {found : List (Token × Expr × List Stmt)} {count : Nat}

theorem pending_of_elif (h : s.cursor.splitLeadingWord.kind = .keyword .elif) :
    (iterateUpTo n.branchRound (count + 1) found >>= n.lastBranch first) s =
      (n.branch >>= fun next =>
        iterateUpTo n.branchRound count (found ++ [next]) >>= n.lastBranch first)
        ⟨s.cursor.splitLeadingWord, s.reports⟩ := by
  have hround : n.branchRound found s = (n.branch >>= fun next => pure (some (found ++ [next])))
      ⟨s.cursor.splitLeadingWord, s.reports⟩ := by
    rw [branchRound, bind_of_ok (p := move _) rfl, at?_of_kind h]
  rw [iterateUpTo, bind_assoc, bind_congr hround, bind_assoc]
  simp only [pure_bind]

theorem pending_of_kind_ne (h : s.cursor.splitLeadingWord.kind ≠ .keyword .elif) :
    (iterateUpTo n.branchRound (count + 1) found >>= n.lastBranch first) s =
      n.lastBranch first found ⟨s.cursor.splitLeadingWord, s.reports⟩ := by
  have hround : n.branchRound found s = .ok none ⟨s.cursor.splitLeadingWord, s.reports⟩ := by
    rw [branchRound, bind_of_ok (p := move _) rfl, at?_of_kind_ne h]
    rfl
  rw [iterateUpTo, bind_assoc, bind_of_ok hround]
  rfl

/-- A conditional statement that ends with the tokens is hanging: in the larger program the rest of
it is yet to be read. -/
def Hanging (w : Whole) (n' : Nested) (r' : EStateM.Result Halt State Stmt) : Prop :=
  ∃ v v' p', v.cursor.rest = [] ∧ v.reports = [] ∧ Stands w .solid v ∧
    Like w .solid v v' ∧ n'.Pending p' ∧ r' = p' v'

/-- A statement ends in both programs, or hangs at the end of the tokens. -/
def Crosses (w : Whole) (n' : Nested) (stmt : Stmt)
    (t : State) (r' : EStateM.Result Halt State Stmt) : Prop :=
  Matches w .agreed blind stmt t r' ∨ Hanging w n' r'

theorem clean_of_pending (h : Follows w n n')
    (hp : n.Pending p) (hs : Stands w .solid s) (hr : p s = .ok stmt t)
    (hclean : t.reports = []) : s.reports = [] := by
  obtain ⟨count, found, first, rfl⟩ := hp
  have htracks : Tracks w .within .solid .solid blind _ _ s s :=
    tracks_pending h ⟨count, found, first, rfl⟩ ⟨count, found, first, rfl⟩
  exact (htracks.ok hr hs).1.clean hclean

/-- The first word is told apart in both programs. -/
theorem splitLeadingWord_alike (hs : Stands w m s)
    (hlike : Like w m s s') (hrest : s.cursor.rest ≠ []) :
    Stands w m ⟨s.cursor.splitLeadingWord, s.reports⟩ ∧
      Like w m ⟨s.cursor.splitLeadingWord, s.reports⟩ ⟨s'.cursor.splitLeadingWord, s'.reports⟩ ∧
      s.cursor.splitLeadingWord.rest ≠ [] ∧
      s'.cursor.splitLeadingWord.kind = s.cursor.splitLeadingWord.kind := by
  have hsplit : Tracks w .sealed m m blind
      (move Cursor.splitLeadingWord) (move Cursor.splitLeadingWord) s s' :=
    .splitLeadingWord rfl fun _ _ => .inl hrest
  have hrest₁ : s.cursor.splitLeadingWord.rest ≠ [] :=
    mt Cursor.rest_splitLeadingWord_eq_nil.mp hrest
  obtain ⟨⟨hs₁⟩, htogether⟩ := hsplit.ok rfl hs
  have hlike₁ := (htogether hlike (.inl (.inl hrest₁))).2
  exact ⟨hs₁, hlike₁, hrest₁, hlike₁.cursor.kind hs₁.settled.final (.inl hrest₁)⟩

theorem crosses_pending (h : Follows w n n') (hclean : t.reports = []) :
    ∀ (count count' : Nat) (found found' : List (Token × Expr × List Stmt)) {s s' : State},
      Stands w .solid s → Like w .solid s s' →
      (iterateUpTo n.branchRound count found >>= n.lastBranch first) s = .ok stmt t →
      Crosses w n' stmt t ((iterateUpTo n'.branchRound count' found' >>= n'.lastBranch first') s')
  | 0, _, _, _, _, _, _, _, hr => by cases hr
  | _ + 1, 0, _, _, _, _, _, _, _ => .inl trivial
  | count + 1, count' + 1, found, found', s, s', hs, hlike, hr => by
    by_cases hrest : s.cursor.rest = []
    · exact .inr ⟨s, s', _, hrest, clean_of_pending h ⟨_, _, _, rfl⟩ hs hr hclean, hs, hlike,
        ⟨_, _, _, rfl⟩, rfl⟩
    · obtain ⟨hs₁, hlike₁, hrest₁, hkind'⟩ := splitLeadingWord_alike hs hlike hrest
      by_cases hkind : s.cursor.splitLeadingWord.kind = .keyword .elif
      · rw [pending_of_elif hkind] at hr
        rw [pending_of_elif (hkind'.trans hkind)]
        obtain ⟨next, u, hnext, hr⟩ := exists_of_bind_eq_ok hr
        have hbranch : Tracks w .sealed .solid .solid blind n.branch n'.branch
            ⟨s.cursor.splitLeadingWord, s.reports⟩ ⟨s'.cursor.splitLeadingWord, s'.reports⟩ :=
          tracks_branch h hkind
        obtain ⟨halone, htogether⟩ := hbranch.ok hnext hs₁
        have hnil := clean_of_pending h ⟨_, _, _, rfl⟩ halone.stands hr hclean
        exact (htogether hlike₁ (.inr (.inl hnil))).bind (fun _ => .inl trivial)
          fun next' u' _ hlike' =>
          crosses_pending h hclean count count' _ _ halone.stands hlike' hr
      · rw [pending_of_kind_ne hkind] at hr
        rw [pending_of_kind_ne (hkind' ▸ hkind)]
        have hlast : Tracks w .sealed .solid .solid blind
            (n.lastBranch first found) (n'.lastBranch first' found')
            ⟨s.cursor.splitLeadingWord, s.reports⟩ ⟨s'.cursor.splitLeadingWord, s'.reports⟩ :=
          tracks_lastBranch h _ _ _ _ rfl fun _ _ => .inl hrest₁
        have hmatch := (hlast.ok hr hs₁).2 hlike₁ (.inr (.inl hclean))
        exact .inl (hmatch.imp id fun _ hlike => hlike.lower nofun)

theorem statement_of_if (h : s.cursor.splitLeadingWord.kind = .keyword .«if») :
    n.statement false s = n.conditional false ⟨s.cursor.splitLeadingWord, s.reports⟩ := by
  rw [statement, bind_of_ok (p := move _) rfl,
    bind_of_ok (p := kind) (a := .keyword .«if») (congrArg (EStateM.Result.ok · _) h)]

/-- Behind its first branch a conditional statement is at the same place in both programs, also at
the end of the tokens. -/
theorem statement_behind_branch (h : Follows w n n') {v} (hs : Stands w m s) (hlike : Like w m s s')
    (hrest : s.cursor.rest ≠ []) (hkind : s.cursor.splitLeadingWord.kind = .keyword .«if»)
    (hfirst : n.branch ⟨s.cursor.splitLeadingWord, s.reports⟩ = .ok first v)
    (hclean : Stands w .solid v → v.reports = []) :
    Stands w .solid v ∧ ((∃ t', n'.statement false s' = .error .endless t') ∨
      ∃ v' p', Like w .solid v v' ∧ n'.Pending p' ∧ n'.statement false s' = p' v') := by
  obtain ⟨hs₁, hlike₁, hrest₁, hkind'⟩ := splitLeadingWord_alike hs hlike hrest
  have hbranch : Tracks w .sealed m .solid blind n.branch n'.branch
      ⟨s.cursor.splitLeadingWord, s.reports⟩ ⟨s'.cursor.splitLeadingWord, s'.reports⟩ :=
    tracks_branch h hkind
  obtain ⟨halone, htogether⟩ := hbranch.ok hfirst hs₁
  refine ⟨halone.stands, ?_⟩
  rw [statement_of_if (hkind'.trans hkind), conditional_eq]
  have hmatch := htogether hlike₁ (.inr (.inl (hclean halone.stands)))
  match hr' : n'.branch ⟨s'.cursor.splitLeadingWord, s'.reports⟩ with
  | .ok first' v' =>
    rw [hr'] at hmatch
    rw [bind_of_ok hr']
    obtain ⟨p', hp', heq⟩ := exists_pending (n := n') first' v'
    exact .inr ⟨v', p', hmatch.2, hp', heq⟩
  | .error (.refused r') v' =>
    rw [hr'] at hmatch
    exact hmatch.elim
  | .error .endless v' => exact .inl ⟨v', bind_of_error hr'⟩

/-- **A statement that is read without a report ends in both programs**, unless it hangs. -/
theorem crosses_statement (h : Follows w n n') (hs : Stands w .any s) (hlike : Like w .any s s')
    (heof : s.cursor.kind ≠ .eof) (hr : n.statement false s = .ok stmt t)
    (hclean : t.reports = []) : Crosses w n' stmt t (n'.statement false s') := by
  by_cases hbranch : s.cursor.splitLeadingWord.kind = .keyword .«if»
  · rw [statement_of_if hbranch, conditional_eq] at hr
    obtain ⟨first, v, hfirst, hr⟩ := exists_of_bind_eq_ok hr
    obtain ⟨p, hp, heq⟩ := exists_pending (n := n) first v
    rw [heq] at hr
    obtain ⟨hv, ⟨t', hendless⟩ | ⟨v', p', hlike', ⟨count', found', first', rfl⟩, heq'⟩⟩ :=
      statement_behind_branch h hs hlike (hs.rest_ne_nil heof) hbranch hfirst
        fun hv => clean_of_pending h hp hv hr hclean
    · rw [hendless]
      exact .inl trivial
    · obtain ⟨count, found, first, rfl⟩ := hp
      rw [heq']
      exact crosses_pending h hclean count count' found found' hv hlike' hr
  · exact .inl (((tracks_whole h false heof hbranch).ok hr hs).2 hlike (.inr (.inl hclean)))

end Branching

/-! ## The end of a program -/

/-- From one state to the other a conditional statement is read to its end, from behind one of its
branches on, and then all statements of a program. -/
def Resumes (n : Nested) (s t : State) : Prop :=
  ∃ p found u, n.Pending p ∧ recover p s = .ok found u ∧ Runs n u t

/-- A conditional statement at the end of the tokens is resumed in the larger program. -/
def Hangs (w : Whole) (n' : Nested) (t' : State) : Prop :=
  ∃ v v', v.cursor.rest = [] ∧ v.reports = [] ∧ Stands w .solid v ∧
    Like w .solid v v' ∧ n'.Resumes v' t'

theorem Hanging.hangs {found'} (h : Hanging w n' (p' s')) (hfound' : recover p' s' = .ok found' u')
    (hruns' : Runs n' u' t') : Hangs w n' t' := by
  obtain ⟨v, v', q, hrest, hclean, hv, hlike, hq, heq⟩ := h
  refine ⟨v, v', hrest, hclean, hv, hlike, q, found', u', hq, ?_, hruns'⟩
  rw [← hfound', recover, recover, heq]

include h in
/-- **A program without a report is read alike before other tokens**, but for further branches of a
conditional statement that it ends with. -/
theorem Runs.cross (hruns : Runs n s t) : ∀ {s' t'}, Stands w .any s → Like w .any s s' →
      Runs n' s' t' → t.reports = [] → Arrives w n' t t' ∨ Hangs w n' t' := by
  induction hruns with
  | @done s heof =>
    intro s' t' hs hlike hruns' _
    exact .inl ⟨_, hlike.skipNewlines hs, hruns'.skip (hlike.cursor.settled hs.start hs.settled)⟩
  | @dedent s t hdedent hrest ih =>
    intro s' t' hs hlike hruns' hclean
    have hs₁ := hs.skipNewlines (by decide)
    have hlike₁ := hlike.skipNewlines hs
    have hne := hs₁.rest_ne_nil (hdedent ▸ nofun)
    have hkind := hlike₁.cursor.kind hs₁.settled.final (.inl hne)
    exact ih ((hs₁.advance hne).lower (by decide)) (hlike₁.advance hs₁ hne)
      (hruns'.of_dedent (hkind.trans hdedent)) hclean
  | @further s t u found hdedent heof hfound hrest ih =>
    intro s' t' hs hlike hruns' hclean
    have hs₁ := hs.skipNewlines (by decide)
    have hlike₁ := hlike.skipNewlines hs
    have hkind := hlike₁.cursor.kind hs₁.settled.final (.inl (hs₁.rest_ne_nil heof))
    obtain ⟨found', u', hfound', hrest'⟩ := hruns'.of_further (hkind ▸ hdedent) (hkind ▸ heof)
    have halone := ((tracks_recover h heof s').ok hfound hs₁).1
    have hnil : u.reports = [] :=
      List.suffix_nil.mp (hclean ▸ hrest.reports h halone.stands)
    rcases recover_cases hfound with ⟨stmt, hr, rfl⟩ | ⟨r, v, hr, rfl, rfl⟩
    · rcases crosses_statement h hs₁ hlike₁ heof hr hnil with hmatch | hhanging
      · exact ih halone.stands ((hmatch.recover.like hfound').lower nofun) hrest' hclean
      · exact .inr (hhanging.hangs hfound' hrest')
    · cases hnil

/-- **What is behind a branch is read alike wherever it stands**, if the program ends with it. -/
theorem Resumes.like (h : Follows w n n') (hw : w.behind = []) (hresumes : n.Resumes s t)
    (hs : Stands w .solid s) (hlike : Like w .solid s s') (hresumes' : n'.Resumes s' t') :
    Like w .any t t' := by
  obtain ⟨p, found, u, hp, hfound, hruns⟩ := hresumes
  obtain ⟨p', found', u', hp', hfound', hruns'⟩ := hresumes'
  have hpending : Tracks w .within .solid .any blind p p' s s' :=
    (tracks_pending h hp hp').lower (by decide)
  have hrecover := hpending.recover nofun (by decide) nofun
  obtain ⟨halone, htogether⟩ := hrecover.ok hfound hs
  exact hruns.like h hw halone.stands ((htogether hlike (.inl (.inr hw))).like hfound') hruns'

include h in
/-- **What is behind a branch is read alike before other tokens**, if it is a single line, or a
block is missed on it. -/
theorem Resumes.line (hresumes : n.Resumes s t)
    (hs : Stands w .solid s) (hlike : Like w .solid s s')
    (hresumes' : n'.Resumes s' t') (hline : Line s.cursor.rest) :
    Arrives w n' t t' ∧ Told s t ∨ Misses w n' t t' := by
  obtain ⟨p, found, u, hp, hfound, hruns⟩ := hresumes
  obtain ⟨p', found', u', hp', hfound', hruns'⟩ := hresumes'
  have hpending : Tracks w .ending .solid .any blind p p' s s' :=
    (tracks_pending h hp hp').ending.lower (by decide)
  obtain ⟨hu, ⟨hlike', hline', htold⟩ | ⟨⟨r, hr, hfault⟩, hgives⟩⟩ :=
    line_cases hpending hs hlike hline hfound hfound'
  · exact (hruns.line h hu hlike' hruns' hline').imp_left (.imp_right htold.trans)
  · exact .inr ⟨⟨r, (hruns.reports h hu).subset hr, hfault⟩, fun hhead =>
      ⟨u', hgives hhead, hruns'⟩⟩

end Nested

end Offside
