import Offside.Proofs.Margins
import Offside.Proofs.Recovery

/-!
# Proofs/OneReport — when a malformed line is reported once

A statement that is malformed is reported, and reading goes on behind its line.  A line by itself
that leads to one report does so among statements that are accepted, whichever they are, if and only
if no block is missed on it: the want of a block is found out behind the line break, and then the
first line of the next statement is skipped (`two_le_of_misses`).  What stands before the line
matters only as far as it may be a conditional statement that the line could carry on
(`Reading.hangs`), so two texts are enough to decide it (`reportedOnce_around_iff`).
-/

namespace Offside

open List Offside.Parser Token Cursor Parsed
open Offside.Nested (Runs Arrives Misses Hangs follows_nested)

variable {behind : List Token} {earlier : List Report}
  {text whole after : List Char} {depth depth' : Nat} {t t' : State}

/-! ## Reading a text -/

/-- What is reported of a text. -/
def Parsed.reportsOf (text : List Char) : List Report := (ofTokens (scan text).tokens).reports

/-- The state before the tokens of a text, without their places. -/
def Parser.State.before (text : List Char) : State :=
  ⟨⟨[], bareTokens text, ⟨.eof, "", none, .start⟩⟩, []⟩

@[simp] theorem Token.map_bare_bareTokens (text : List Char) :
    (bareTokens text).map bare = bareTokens text := by
  rw [bareTokens, map_map]
  rfl

theorem Cursor.settled_before (text : List Char) : (State.before text).cursor.Settled :=
  ⟨rfl, (behind_bareTokens text).kind_ne, fun t ht =>
    ((behind_bareTokens text).head t ht).2⟩

theorem Cursor.ended_before (text : List Char) : (State.before text).cursor.Ended :=
  ⟨⟨0, closes_bareTokens text⟩, broken_bareTokens text, fun _ => nofun, fun _ => rfl⟩

theorem Parser.stands_before (text : List Char) (h : Behind behind) :
    Stands ⟨behind, earlier⟩ .any (.before text) :=
  ⟨h, settled_before text, fun _ => ended_before text, trivial⟩

theorem Parser.stands_last (text : List Char) : Stands ⟨[], earlier⟩ .any (.before text) :=
  stands_before text ⟨nofun, nofun⟩

/-- A text is read from its first token to the end. -/
structure Reading (text : List Char) (depth : Nat) (t : State) : Prop where
  runs : Runs (nested depth) (.before text) t
  rest : t.cursor.rest = []
  ended : t.cursor.Ended
  reports : (reportsOf text).map Report.said = (t.reports.map Report.said).reverse

/-- The cursor before the tokens of a text. -/
theorem Cursor.continues_start (text : List Char) : Continues [] (State.before text).cursor
      (start (scan text).tokens) := by
  obtain ⟨body, final, htokens, heq, hfinal, hbody, -⟩ := exists_bareTokens_eq text
  have hhead : ∀ t ∈ body.head?, t.kind ≠ .softNewline := by
    intro t ht
    refine ((behind_bareTokens text).head t.bare ?_).2
    rw [heq, head?_map, ht]
    rfl
  rw [htokens, start_eq hfinal hbody hhead]
  refine ⟨hfinal, ?_, rfl⟩
  rw [append_nil]
  exact heq.symm.trans (map_bare_bareTokens text).symm

theorem exists_reading (text : List Char) : ∃ depth t, Reading text depth t := by
  have hs := settled_before text
  obtain ⟨stmts, t, hok, hreaches, hrest⟩ :=
    Nested.exists_program_eq_ok (s := .before text) hs (Nat.le_refl _)
  obtain ⟨stmts', u, hok', -, -⟩ := Nested.exists_program_eq_ok
    (s := ⟨start (scan text).tokens, []⟩) (settled_start _)
    (Nat.le_succ (2 * (start (scan text).tokens).weight + 1))
  have hreports : reportsOf text = u.reports.reverse := by
    unfold reportsOf ofTokens
    dsimp only
    rw [hok']
  have hruns := Nested.runs_of_program hok
  refine ⟨_, t, hruns, hrest, (ended_before text).reaches hs hreaches, ?_⟩
  have hlike := hruns.like (Nested.follows_nested _ _) rfl (stands_last text)
    ⟨continues_start text, absurd rfl, rfl⟩ (Nested.runs_of_program hok')
  rw [hreports, map_reverse, hlike.reports, append_nil]

/-- The same state before more tokens. -/
theorem Parser.like_before (h : bareTokens whole = bareTokens text ++ behind) :
    Like ⟨behind, []⟩ .any (.before text) (.before whole) := by
  refine ⟨⟨rfl, ?_, rfl⟩, absurd rfl, rfl⟩
  change (bareTokens whole).map bare = _
  rw [h]
  rfl

namespace Reading

/-- Where the tokens of a text are left, it is read as by itself. -/
theorem again {y} (h : Reading text depth t) (hrest : y.cursor.rest.map bare = bareTokens text)
    (hfinal : y.cursor.final.kind = .eof) (hsoft : y.cursor.afterSoftBreak = false)
    (hruns : Runs (nested depth') y t') :
    t'.reports.map Report.said = (t.reports ++ y.reports).map Report.said := by
  refine (h.runs.like (follows_nested _ _) rfl (stands_last text)
    ⟨⟨hfinal, ?_, hsoft⟩, absurd rfl, rfl⟩ hruns).reports
  rw [append_nil, hrest]
  exact (map_bare_bareTokens text).symm

/-- Where reading arrives at a text, what is reported of it is added. -/
theorem reports_of_arrives (h : Reading text depth t) {u depth₁} (hafter : Reading after depth₁ u)
    (harrives : Arrives ⟨bareTokens after, []⟩ (nested depth') t t') :
    t'.reports.map Report.said = (u.reports ++ t.reports).map Report.said := by
  obtain ⟨y, hlike, hruns⟩ := harrives
  have hrest := hlike.cursor.rest
  have hreports := hlike.reports
  rw [h.rest, nil_append, map_bare_bareTokens] at hrest
  rw [append_nil] at hreports
  rw [hafter.again hrest hlike.cursor.final (hlike.cursor.soft.trans (h.ended.soft h.rest)) hruns,
    map_append, hreports, map_append]

end Reading

/-! ## A line that misses a block -/

/-- A conditional statement with two branches. -/
def branchedSource : String := "if a\n  x\nelse\n  y\n"

/-- The same without its first line. -/
def branchesSource : String := "  x\nelse\n  y\n"

theorem skipStatement_branchedSource :
    (State.before branchedSource.toList).cursor.skipStatement.rest
      = bareTokens branchesSource.toList ∧
    (State.before branchedSource.toList).cursor.skipStatement.afterSoftBreak = false ∧
    (∀ u ∈ (bareTokens branchedSource.toList).head?, u.kind ≠ .indent) ∧
    bareTokens branchedSource.toList ≠ [] ∧
    (reportsOf branchesSource.toList).length = 1 := by
  decide +kernel

/-- **A missed block leads to a second report** where a branched statement follows: its first line
is skipped, and then its second branch has no first one. -/
theorem two_le_of_misses (h : Misses ⟨bareTokens branchedSource.toList, []⟩ (nested depth') t t') :
    2 ≤ t'.reports.length := by
  obtain ⟨hskip, hsoft, hhead, hne, hcount⟩ := skipStatement_branchedSource
  obtain ⟨u', ⟨v, v', r', hnil, hv, hlike, hfault, rfl⟩, hruns⟩ := h.2 hhead
  obtain ⟨depth₁, u, hreading⟩ := exists_reading branchesSource.toList
  have hbefore : Like ⟨[], v'.reports⟩ .any (.before branchedSource.toList) v' := by
    refine ⟨⟨hlike.cursor.final, ?_, hlike.cursor.soft.trans ((hv.ended hne).soft hnil)⟩,
      absurd rfl, rfl⟩
    rw [hlike.cursor.rest, hnil, append_nil]
    rfl
  have hskipped := hbefore.skipStatement (r := ⟨⟨.eof, "", none, .start⟩, .expectedBlock⟩)
    (stands_last branchedSource.toList) (.inr rfl) hfault
  have hrest := hskipped.cursor.rest
  rw [append_nil] at hrest
  have hreports := congrArg length (hreading.again
    (hrest.trans ((congrArg _ hskip).trans (map_bare_bareTokens _))) hskipped.cursor.final
    (hskipped.cursor.soft.trans hsoft) hruns)
  have hlength := congrArg length hreading.reports
  simp only [length_map, length_reverse, length_append, length_cons] at hreports hlength
  omega

/-! ## A conditional statement that may go on -/

/-- A conditional statement. -/
def conditionalSource : String := "if a\n  a\n"

/-- Something was read to the end of the tokens, without a report. -/
def Parser.readsAll {α : Type} : EStateM.Result Halt State α → Bool
  | .ok _ t => t.cursor.rest.isEmpty && t.reports.isEmpty
  | .error _ _ => false

theorem Parser.exists_of_readsAll {α : Type} {r : EStateM.Result Halt State α}
    (h : readsAll r = true) : ∃ a t, r = .ok a t ∧ t.cursor.rest = [] ∧ t.reports = [] := by
  cases r with
  | ok a t =>
    have hall := (Bool.and_eq_true _ _).mp h
    exact ⟨a, t, rfl, isEmpty_iff.mp hall.1, isEmpty_iff.mp hall.2⟩
  | error => cases h

theorem readsAll_conditionalSource :
    (State.before conditionalSource.toList).cursor.kind = .identifier ∧
    (State.before conditionalSource.toList).cursor.splitLeadingWord.kind = .keyword .«if» ∧
    readsAll ((nested 10).branch
      ⟨(State.before conditionalSource.toList).cursor.splitLeadingWord, []⟩) = true := by
  decide +kernel

/-- **A conditional statement waits for further branches** in what stands behind it. -/
theorem Reading.hangs (h : Reading whole depth t)
    (hwhole : bareTokens whole = bareTokens conditionalSource.toList ++ bareTokens after) :
    Hangs ⟨bareTokens after, []⟩ (nested depth) t := by
  obtain ⟨hkind, hbranch, hreads⟩ := readsAll_conditionalSource
  obtain ⟨first, v, hfirst, hrest, hclean⟩ := exists_of_readsAll hreads
  have hs : Stands ⟨_, []⟩ _ _ := stands_before conditionalSource.toList (behind_bareTokens after)
  have hlike := like_before hwhole
  have hne := hs.rest_ne_nil (by rw [hkind]; nofun)
  have hkind' := (hlike.cursor.kind hs.settled.final (.inl hne)).trans hkind
  have hskip := skipNewlines_of_kind_ne (settled_before whole) (hkind' ▸ nofun)
  obtain ⟨found, u, hfound, hruns⟩ := h.runs.of_further (by rw [hskip, hkind']; nofun)
    (by rw [hskip, hkind']; nofun)
  rw [hskip] at hfound
  obtain ⟨hv, ⟨t', hendless⟩ | ⟨v', p, hlike', hp, heq⟩⟩ :=
    Nested.statement_behind_branch (follows_nested 10 depth) hs hlike hne hbranch hfirst
      fun _ => hclean
  · rw [recover_of_endless hendless] at hfound
    cases hfound
  · exact Nested.Hanging.hangs ⟨v, v', p, hrest, hclean, hv, hlike', hp, heq⟩ hfound hruns

/-- A state behind a branch of a conditional statement, before these tokens. -/
structure Waits (tokens : List Token) (s : State) : Prop where
  rest : s.cursor.rest.map bare = tokens.map bare
  settled : s.cursor.Settled
  soft : s.cursor.afterSoftBreak = false
  previous : s.cursor.previousKind? = some .dedent
  reports : s.reports = []

namespace Waits

variable {tokens : List Token} {s s' : State}

theorem of_hangs {n} (h : Hangs ⟨tokens, []⟩ n t) (hne : tokens ≠ []) :
    ∃ s, Waits tokens s ∧ n.Resumes s t := by
  obtain ⟨v, s, hnil, hclean, hv, hlike, hresumes⟩ := h
  refine ⟨s, ⟨?_, hlike.cursor.settled hv.start hv.settled, ?_, ?_, ?_⟩, hresumes⟩
  · rw [hlike.cursor.rest, hnil, nil_append]
  · exact hlike.cursor.soft.trans ((hv.ended hne).soft hnil)
  · exact (hlike.agrees nofun).mpr (hv.trail hne hclean hnil)
  · exact map_eq_nil_iff.mp (hlike.reports.trans (by rw [hclean]; rfl))

/-- Two such states are alike. -/
theorem like (h : Waits tokens s) (h' : Waits (tokens ++ behind) s') :
    Like ⟨behind, []⟩ .solid s s' := by
  refine ⟨⟨h'.settled.final, ?_, h'.soft.trans h.soft.symm⟩, fun _ => ?_, ?_⟩
  · rw [h'.rest, map_append, map_append, h.rest]
  · exact iff_of_true h'.previous h.previous
  · rw [h'.reports, h.reports]
    rfl

theorem stands (h : Waits (bareTokens text) s) (hne : bareTokens text ≠ [])
    (hbehind : Behind behind) : Stands ⟨behind, []⟩ .solid s := by
  have hrest := h.rest.trans (map_bare_bareTokens text)
  have hne' : s.cursor.rest ≠ [] := fun hnil => hne (by rw [← hrest, hnil]; rfl)
  exact ⟨hbehind, h.settled, fun _ => ⟨⟨0, .of_bare (hrest ▸ closes_bareTokens text)⟩,
    .of_bare (hrest ▸ broken_bareTokens text), fun hnil => absurd hnil hne',
    fun hnil => absurd hnil hne'⟩, fun _ _ hnil => absurd hnil hne'⟩

end Waits

/-- What stands behind a conditional statement is read alike, whichever statement it is. -/
theorem reports_of_hangs (h : Hangs ⟨bareTokens text, []⟩ (nested depth) t)
    (h' : Hangs ⟨bareTokens text, []⟩ (nested depth') t') (hne : bareTokens text ≠ []) :
    t'.reports.map Report.said = t.reports.map Report.said := by
  obtain ⟨s, hs, hresumes⟩ := Waits.of_hangs h hne
  obtain ⟨s', hs', hresumes'⟩ := Waits.of_hangs h' hne
  rw [← append_nil (bareTokens text)] at hs'
  have hlike := hresumes.like (follows_nested _ _) rfl (hs.stands hne ⟨nofun, nofun⟩) (hs.like hs')
    hresumes'
  rw [hlike.reports, append_nil]

/-! ## What may follow -/

/-- What a text ends with is read alike before another text, or a block was missed on it. -/
def Outlasts (text after whole : List Char) : Prop :=
  ∃ depth t depth' t', Reading text depth t ∧ Reading whole depth' t' ∧
    (Arrives ⟨bareTokens after, []⟩ (nested depth') t t' ∧
        (∀ r ∈ t.reports, r.fault ≠ .expectedBlock) ∨
      Misses ⟨bareTokens after, []⟩ (nested depth') t t')

theorem outlasts_line (hline : Line (bareTokens text))
    (hwhole : bareTokens whole = bareTokens text ++ bareTokens after) :
    Outlasts text after whole := by
  obtain ⟨depth, t, h⟩ := exists_reading text
  obtain ⟨depth', t', h'⟩ := exists_reading whole
  refine ⟨depth, t, depth', t', h, h', ?_⟩
  refine (h.runs.line (follows_nested _ _)
    (stands_before text (behind_bareTokens after)) (like_before hwhole) h'.runs
    (.inl hline)).imp_left (.imp_right fun htold r hr => ?_)
  exact (htold r hr).resolve_left not_mem_nil

/-- The same for a line behind a conditional statement. -/
theorem outlasts_branch {line} (hline : Line (bareTokens line))
    (htext : bareTokens text = bareTokens conditionalSource.toList ++ bareTokens line)
    (hwhole : bareTokens whole
      = bareTokens conditionalSource.toList ++ (bareTokens line ++ bareTokens after))
    (hbehind : bareTokens (line ++ after) = bareTokens line ++ bareTokens after) :
    Outlasts text after whole := by
  obtain ⟨depth, t, h⟩ := exists_reading text
  obtain ⟨depth', t', h'⟩ := exists_reading whole
  have hne := hline.ne_nil
  obtain ⟨s, hs, hresumes⟩ := Waits.of_hangs (h.hangs htext) hne
  obtain ⟨s', hs', hresumes'⟩ := Waits.of_hangs (h'.hangs (hbehind ▸ hwhole))
    (hbehind ▸ append_ne_nil_of_left_ne_nil hne _)
  rw [hbehind] at hs'
  have hrest : Line s.cursor.rest :=
    .of_bare ((hs.rest.trans (map_bare_bareTokens line)).symm ▸ hline)
  refine ⟨depth, t, depth', t', h, h', ?_⟩
  refine (hresumes.line (follows_nested _ _) (hs.stands hne (behind_bareTokens after))
    (hs.like hs') hresumes' hrest).imp_left (.imp_right fun htold r hr => ?_)
  exact (htold r hr).resolve_left (hs.reports ▸ not_mem_nil)

/-- It is reported once what is wrong with a text, and no block is missed. -/
def Settles (text : List Char) : Prop :=
  (reportsOf text).length = 1 ∧ ∀ r ∈ reportsOf text, r.fault ≠ .expectedBlock

namespace Reading

theorem length_reports (h : Reading text depth t) : t.reports.length = (reportsOf text).length := by
  have hlength := congrArg length h.reports
  rwa [length_map, length_reverse, length_map, eq_comm] at hlength

theorem fault_mem_iff (h : Reading text depth t) (fault : SyntaxFault) :
    (∃ r ∈ t.reports, r.fault = fault) ↔ ∃ r ∈ reportsOf text, r.fault = fault := by
  have hfaults : ∀ reports : List Report,
      (∃ r ∈ reports, r.fault = fault) ↔ fault ∈ (reports.map Report.said).map Prod.fst := by
    intro reports
    rw [map_map]
    exact mem_map.symm
  rw [hfaults, hfaults, h.reports, map_reverse, mem_reverse]

/-- A text without tokens leads to no report. -/
theorem bareTokens_ne_nil (h : (reportsOf text).length = 1) : bareTokens text ≠ [] := by
  intro hnil
  obtain ⟨depth, t, hreading⟩ := exists_reading text
  have heof : (State.before text).cursor.skipNewlines.kind = .eof := by
    rw [State.before, hnil]
    rfl
  have hlength := hreading.length_reports
  rw [h, hreading.runs.eq_of_eof heof] at hlength
  cases hlength

end Reading

namespace Outlasts

/-- **What is reported once stays reported once** before a text that leads to no report. -/
theorem length_eq_one (h : Outlasts text after whole) (htext : Settles text)
    (hafter : reportsOf after = []) : (reportsOf whole).length = 1 := by
  obtain ⟨depth, t, depth', t', hreading, hreading', ⟨harrives, -⟩ | ⟨hmissed, -⟩⟩ := h
  · obtain ⟨depth₁, u, hu⟩ := exists_reading after
    have hreports := congrArg length (hreading.reports_of_arrives hu harrives)
    rw [length_map, length_map, length_append, hu.length_reports, hafter,
      hreading.length_reports, hreading'.length_reports, htext.1] at hreports
    exact hreports
  · obtain ⟨r, hr, hfault⟩ := (hreading.fault_mem_iff _).mp hmissed
    exact absurd hfault (htext.2 r hr)

/-- Conversely no block was missed, if a branched statement behind it leads to no report. -/
theorem settles (h : Outlasts text branchedSource.toList whole)
    (htext : (reportsOf text).length = 1) (hwhole : (reportsOf whole).length = 1) :
    Settles text := by
  obtain ⟨depth, t, depth', t', hreading, hreading', ⟨-, htold⟩ | hmisses⟩ := h
  · refine ⟨htext, fun r hr hfault => ?_⟩
    obtain ⟨r', hr', hfault'⟩ := (hreading.fault_mem_iff _).mpr ⟨r, hr, hfault⟩
    exact htold r' hr' hfault'
  · have hcount := two_le_of_misses hmisses
    rw [hreading'.length_reports, hwhole] at hcount
    omega

end Outlasts

/-- **What stands behind statements that are read without a report** is read as by itself, or as
behind a conditional statement. -/
theorem said_behind {other} (htext : reportsOf text = [])
    (hwhole : bareTokens whole = bareTokens text ++ bareTokens after)
    (hother : bareTokens other = bareTokens conditionalSource.toList ++ bareTokens after)
    (hne : bareTokens after ≠ []) :
    (reportsOf whole).length = (reportsOf after).length ∨
      (reportsOf whole).length = (reportsOf other).length := by
  obtain ⟨depth, t, h⟩ := exists_reading text
  obtain ⟨depth', t', h'⟩ := exists_reading whole
  have hclean : t.reports = [] := length_eq_zero_iff.mp (h.length_reports.trans (congrArg _ htext))
  rcases h.runs.cross (follows_nested _ _)
    (stands_before text (behind_bareTokens after)) (like_before hwhole) h'.runs
    hclean with harrives | hhangs
  · obtain ⟨depth₁, u, hu⟩ := exists_reading after
    have hreports := congrArg length (h.reports_of_arrives hu harrives)
    rw [hclean, append_nil, length_map, length_map, hu.length_reports,
      h'.length_reports] at hreports
    exact .inl hreports
  · obtain ⟨depth₁, u, hu⟩ := exists_reading other
    have hreports := congrArg length (reports_of_hangs (hu.hangs hother) hhangs hne)
    rw [length_map, length_map, hu.length_reports, h'.length_reports] at hreports
    exact .inr hreports

/-! ## One report -/

/-- A text that scans without a fault and is read without a report. -/
def Accepted (text : List Char) : Prop :=
  (scan text).faults = [] ∧ reportsOf text = []

/-- A text that scans without a fault and leads to one report. -/
def ReportedOnce (text : List Char) : Prop := (scan text).faults = [] ∧ (reportsOf text).length = 1

instance (text : List Char) : Decidable (Settles text) := inferInstanceAs (Decidable (_ ∧ _))

instance (text : List Char) : Decidable (Accepted text) := inferInstanceAs (Decidable (_ ∧ _))

instance (text : List Char) : Decidable (ReportedOnce text) := inferInstanceAs (Decidable (_ ∧ _))

/-- Whole lines that are accepted. -/
structure Complete (text : List Char) : Prop where
  lines : Scan.WholeLines text
  accepted : Accepted text

/-- A line of text that is not indented, and is reported once by itself. -/
structure Malformed (line : List Char) : Prop where
  flush : Scan.Flush line
  once : ReportedOnce line

theorem accepted_sources : Accepted [] ∧ Accepted branchedSource.toList ∧
    conditionalSource.toList.getLast? = some '\n' ∧ Accepted conditionalSource.toList ∧
    Agree (indentation conditionalSource.toList) (indentation branchedSource.toList) := by
  decide +kernel

theorem complete_conditionalSource : Complete conditionalSource.toList :=
  ⟨.inr accepted_sources.2.2.1, accepted_sources.2.2.2.1⟩

theorem Complete.closedLines (h : Complete text) : ClosedLines text :=
  .of_clean h.lines h.accepted.1

namespace Malformed

variable {line before : List Char} (h : Malformed line)
include h

theorem closedLines : ClosedLines line :=
  .of_clean h.flush.wholeLines h.once.1

theorem bareTokens_ne_nil : bareTokens line ≠ [] :=
  Reading.bareTokens_ne_nil h.once.2

theorem bareTokens_append (after : List Char) :
    bareTokens (line ++ after) = bareTokens line ++ bareTokens after :=
  h.closedLines.bareTokens_append h.flush.complete_start.1 after

theorem bareTokens_around (hbefore : Complete before) (after : List Char) :
    bareTokens (before ++ line ++ after) = bareTokens before ++ bareTokens (line ++ after) := by
  rw [h.bareTokens_append]
  exact hbefore.closedLines.bareTokens_around h.flush h.closedLines h.bareTokens_ne_nil after

theorem outlasts (after : List Char) : Outlasts line after (line ++ after) :=
  outlasts_line (h.flush.line h.closedLines h.bareTokens_ne_nil) (h.bareTokens_append after)

theorem outlasts_branch (after : List Char) : Outlasts (conditionalSource.toList ++ line) after
      (conditionalSource.toList ++ line ++ after) := by
  have htext := h.bareTokens_around complete_conditionalSource []
  rw [append_nil, append_nil] at htext
  have hwhole := h.bareTokens_around complete_conditionalSource after
  rw [h.bareTokens_append] at hwhole
  exact Offside.outlasts_branch (h.flush.line h.closedLines h.bareTokens_ne_nil) htext hwhole
    (h.bareTokens_append after)

/-- The line is reported as by itself, or as behind a conditional statement. -/
theorem length_around (hbefore : Complete before) (after : List Char) :
    (reportsOf (before ++ line ++ after)).length = (reportsOf (line ++ after)).length ∨
      (reportsOf (before ++ line ++ after)).length
        = (reportsOf (conditionalSource.toList ++ line ++ after)).length := by
  refine said_behind hbefore.accepted.2 (h.bareTokens_around hbefore after)
    (h.bareTokens_around complete_conditionalSource after) ?_
  rw [h.bareTokens_append]
  exact append_ne_nil_of_left_ne_nil h.bareTokens_ne_nil _

theorem faults_around_iff (hbefore : Complete before) (hafter : Accepted after) :
    (scan (before ++ line ++ after)).faults = [] ↔
      Agree (indentation before) (indentation after) := by
  rw [hbefore.closedLines.faults_around hbefore.accepted.1 h.flush h.once.1 h.bareTokens_ne_nil
    after]
  exact and_iff_right hafter.1

theorem length_eq_one (hline : Settles line) (hbranch : Settles (conditionalSource.toList ++ line))
    (hbefore : Complete before) (hafter : Accepted after) :
    (reportsOf (before ++ line ++ after)).length = 1 := by
  rcases h.length_around hbefore after with hlength | hlength
  · exact hlength.trans ((h.outlasts after).length_eq_one hline hafter.2)
  · exact hlength.trans ((h.outlasts_branch after).length_eq_one hbranch hafter.2)

/-- Texts whose indentation agrees are enough to find out whether a block is missed. -/
theorem settles (honce : ∀ before after, Complete before → Accepted after →
      Agree (indentation before) (indentation after) →
      (reportsOf (before ++ line ++ after)).length = 1) :
    Settles line ∧ Settles (conditionalSource.toList ++ line) := by
  obtain ⟨hnil, hbranched, -, -, hagree⟩ := accepted_sources
  have hbehind := honce _ [] complete_conditionalSource hnil fun _ _ => nofun
  rw [append_nil] at hbehind
  exact ⟨(h.outlasts _).settles h.once.2 (honce [] _ ⟨.inl rfl, hnil⟩ hbranched nofun),
    (h.outlasts_branch _).settles hbehind (honce _ _ complete_conditionalSource hbranched hagree)⟩

end Malformed

/-- **A malformed line is reported once among statements that are accepted** if and only if it
misses no block, neither by itself nor behind a conditional statement, where it may be read as a
further branch.  The whole is scanned without a fault if and only if the statements before and
behind the line are indented with the same character; what is reported does not depend on that. -/
theorem reportedOnce_around_iff {line : List Char} (h : Malformed line) :
    ((∀ before after, Complete before → Accepted after →
        (reportsOf (before ++ line ++ after)).length = 1) ↔
      Settles line ∧ Settles (conditionalSource.toList ++ line)) ∧
    (∀ before after, Complete before → Accepted after →
      ((scan (before ++ line ++ after)).faults = [] ↔
        Agree (indentation before) (indentation after))) ∧
    ((∀ before after, Complete before → Accepted after →
        Agree (indentation before) (indentation after) →
        ReportedOnce (before ++ line ++ after)) ↔
      Settles line ∧ Settles (conditionalSource.toList ++ line)) := by
  refine ⟨⟨fun honce => h.settles fun before after hbefore hafter _ =>
      honce before after hbefore hafter, fun ⟨hline, hbranch⟩ _ _ hbefore hafter =>
      h.length_eq_one hline hbranch hbefore hafter⟩,
    fun _ _ hbefore hafter => h.faults_around_iff hbefore hafter, ?_, ?_⟩
  · exact fun honce => h.settles fun before after hbefore hafter hagree =>
      (honce before after hbefore hafter hagree).2
  · exact fun ⟨hline, hbranch⟩ _ _ hbefore hafter hagree =>
      ⟨(h.faults_around_iff hbefore hafter).mpr hagree,
        h.length_eq_one hline hbranch hbefore hafter⟩

example : Settles "else\n".toList ∧ ¬ Settles (conditionalSource.toList ++ "else\n".toList) := by
  decide +kernel

/-- A declaration without a name. -/
def namelessSource : String := "var 1\n"

theorem reportedOnce_namelessSource : Malformed namelessSource.toList ∧
    ∀ before after, Complete before → Accepted after →
      (reportsOf (before ++ namelessSource.toList ++ after)).length = 1 ∧
      (Agree (indentation before) (indentation after) →
        ReportedOnce (before ++ namelessSource.toList ++ after)) := by
  have hmalformed : Malformed namelessSource.toList := ⟨by decide +kernel, by decide +kernel⟩
  have hsettles : Settles namelessSource.toList ∧
      Settles (conditionalSource.toList ++ namelessSource.toList) := by decide +kernel
  obtain ⟨hcount, -, honce⟩ := reportedOnce_around_iff hmalformed
  exact ⟨hmalformed, fun before after hbefore hafter =>
    ⟨hcount.mpr hsettles before after hbefore hafter,
      honce.mpr hsettles before after hbefore hafter⟩⟩

/-- The head of a conditional statement, without a block. -/
def blocklessSource : String := "if true\n"

/-- **A line that misses a block is reported twice** before a branched statement. -/
theorem two_reports_blocklessSource :
    Malformed blocklessSource.toList ∧ Accepted branchedSource.toList ∧
      (scan (blocklessSource.toList ++ branchedSource.toList)).faults = [] ∧
      (reportsOf (blocklessSource.toList ++ branchedSource.toList)).length = 2 :=
  ⟨⟨by decide +kernel, by decide +kernel⟩, by decide +kernel⟩

end Offside
