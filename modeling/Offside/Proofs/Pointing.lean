import Offside.Proofs.Conduct
import Offside.Proofs.Indentation
import Offside.Proofs.Places
import Offside.Proofs.Stages

/-!
# Proofs/Pointing — what a program and its diagnostics point at

A diagnostic points where a fault of the scan is, at a token that reading stops at, or at a token of
the statement whose types are refused (`Checker.blames_check`).

`points_into_source` is the result: the tokens in a program stand in its source where they say, and
every diagnostic is inside the source.
-/

namespace Offside

theorem Checker.blames_checkStatement {P : Token → Prop} {c c' : Checker} {statement : Stmt}
    {verdict : Verdict} (hevery : statement.Every P)
    (h : c.checkStatement statement = some (c', verdict)) : ∀ r ∈ verdict.refusal, P r.token := by
  have hwalks := (Check.walks (.pointing P 1 0)).stmt statement hevery
  rcases checkStatement_cases h with ⟨s, -, -, rfl⟩ | ⟨refusal, s, herror, -, rfl⟩
  · exact fun _ hr => by cases hr
  · rintro _ ⟨⟩
    exact (hwalks.refused herror).1

/-- **The statements of a program are refused at tokens in it.** -/
theorem Checker.blames_check {P} : ∀ {program : List Stmt} {c c' : Checker}
    {verdicts : List Verdict}, (∀ st ∈ program, st.Every P) →
    c.check program = some (c', verdicts) → ∀ v ∈ verdicts, ∀ r ∈ v.refusal, P r.token
  | [], _, _, _, _, h => by
    cases h
    exact List.forall_mem_nil _
  | first :: later, c, _, _, hevery, h => by
    rw [check_cons, Option.bind_eq_some_iff] at h
    obtain ⟨⟨c₁, verdict⟩, hfirst, h⟩ := h
    rw [Option.bind_eq_some_iff] at h
    obtain ⟨⟨c₂, verdicts⟩, hlater, h⟩ := h
    cases h
    rw [List.forall_mem_cons] at hevery ⊢
    exact ⟨blames_checkStatement hevery.1 hfirst, blames_check hevery.2 hlater⟩

namespace Session

variable {source : List Char}

/-- **Without lexical faults the tokens in what is read stand in the source**, and so do those that
are reported, but for layout. -/
theorem stands_read (h : (Token.scan source).faults = []) :
    (∀ st ∈ (read source).statements, st.Every (Parser.Kept (Token.Stands source))) ∧
      ∀ r ∈ (read source).reports, Token.Stands source r.token :=
  every_ofTokens ⟨fun _ ht => ht.dropLast, fun _ ht => ht.leadingWord⟩
    (Token.stands_of_mem_scan h) (Token.exists_eof_scan source)

@[simp] theorem position_withLineText (source : List Char) (d : Diagnostic) :
    (withLineText source d).position = d.position := by
  unfold withLineText
  split <;> rfl

/-- What a session that was just started keeps of diagnostics inside a source. -/
theorem within_absorb {options ds} (h : ∀ d ∈ ds, Within source d.position) :
    ∀ d ∈ ((start options).absorb source ds).diagnostics, Within source d.position := by
  rw [absorb, start, List.nil_append, List.forall_mem_map]
  intro d hd
  rw [position_withLineText]
  exact h d hd

theorem within_scanReports (source : List Char) :
    ∀ d ∈ scanReports source, Within source d.position := by
  rw [scanReports, lexicalDiagnostics, List.forall_mem_map]
  exact (Token.within_scan source).2

theorem within_readReports (h : (Token.scan source).faults = []) :
    ∀ d ∈ readReports source, Within source d.position := by
  obtain ⟨-, hreports⟩ := stands_read h
  rw [readReports, List.forall_mem_map]
  exact fun r hr => (hreports r hr).within

theorem within_diagnostics (h : (Token.scan source).faults = []) {c verdicts}
    (hcheck : Checker.start.check (read source).statements = some (c, verdicts)) :
    ∀ d ∈ Verdict.diagnostics verdicts, Within source d.position := by
  intro d hd
  obtain ⟨hevery, -⟩ := stands_read h
  obtain ⟨v, hv, hd⟩ := List.mem_filterMap.mp hd
  obtain ⟨refusal, hrefusal, rfl⟩ := Option.map_eq_some_iff.mp hd
  exact (Checker.blames_check hevery hcheck v hv refusal hrefusal).holds.within

/-- **Every diagnostic of a source is inside it.** -/
theorem within_compile {options session outcome}
    (h : (start options).compile source = some (session, outcome)) :
    ∀ d ∈ session.diagnostics, Within source d.position := by
  have hreaches := reaches_compile (start options) source
  rw [h] at hreaches
  cases hreaches with
  | scanned => exact within_absorb (within_scanReports source)
  | parsed _ hscan => exact within_absorb (within_readReports hscan)
  | checked _ hscan _ hcheck => exact within_absorb (within_diagnostics hscan hcheck)
  | compiled => exact List.forall_mem_nil _

end Session

/-- **Places never drift.**  In a source without lexical faults every token of the tree that is read
stands where it says; and every diagnostic that a source leaves in a session that was just started
is on a line of the source, and not behind the end of that line. -/
theorem points_into_source (source : List Char) : ((Token.scan source).faults = [] →
      ∀ st ∈ (Session.read source).statements,
        st.Every fun t => Within source t.position ∧ Token.Shows source t) ∧
    ∀ options session outcome, (Session.start options).compile source = some (session, outcome) →
      ∀ d ∈ session.diagnostics, 1 ≤ d.position.line ∧
        d.position.line ≤ (Text.lines source).length ∧
        ∃ line, (Text.lines source)[d.position.line - 1]? = some line ∧
          d.position.column ≤ line.length := by
  refine ⟨fun h => ?_, fun options session outcome h d hd => ?_⟩
  · obtain ⟨hevery, -⟩ := Session.stands_read h
    exact fun st hst =>
      (tokenwise.stmt st).mono (fun t ht => ⟨ht.holds.within, ht.holds.shows ht.kind⟩)
        (hevery st hst)
  obtain ⟨line, hline, hcolumn⟩ := Session.within_compile h d hd
  obtain ⟨hfirst, hlast, hline⟩ := Text.wholeLine?_eq_some hline
  exact ⟨hfirst, hlast, line, hline, hcolumn⟩

/-- A source with a type whose question mark is part of a name, and an assignment to a name that
cannot be assigned to, which a withoutSoft blank joins to its keyword. -/
def splicedSource : String := "var x (Number?): null\nlet\u00a0x: 1\n"

theorem points_into_source_splicedSource : (∀ st ∈ (Session.read splicedSource.toList).statements,
        st.Every fun t => Within splicedSource.toList t.position ∧
          Token.Shows splicedSource.toList t) ∧
      ∃ session outcome,
        (Session.start ⟨.check, ""⟩).compile splicedSource.toList = some (session, outcome) ∧
          session.diagnostics.map (·.position) = [⟨2, 4⟩] ∧
          ∀ d ∈ session.diagnostics, 1 ≤ d.position.line ∧
            d.position.line ≤ (Text.lines splicedSource.toList).length ∧
            ∃ line, (Text.lines splicedSource.toList)[d.position.line - 1]? = some line ∧
              d.position.column ≤ line.length := by
  have hclean : (Token.scan splicedSource.toList).faults = [] := by decide +kernel
  have hplaces : ((Session.start ⟨.check, ""⟩).compile splicedSource.toList).map
      (·.1.diagnostics.map (·.position)) = some [⟨2, 4⟩] := by decide +kernel
  obtain ⟨⟨session, outcome⟩, hcompile, hplaces⟩ := Option.map_eq_some_iff.mp hplaces
  obtain ⟨hshows, hwithin⟩ := points_into_source splicedSource.toList
  exact ⟨hshows hclean, session, outcome, hcompile, hplaces, hwithin _ _ _ hcompile⟩

end Offside
