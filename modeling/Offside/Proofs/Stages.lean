import Offside.Proofs.Ending
import Offside.Proofs.Reading
import Offside.Session

/-!
# Proofs/Stages — which sources of a session are compiled

A source goes as far as the first stage that has something to report, and two of the stages count
what earlier sources have left behind as well.  `reaches_compile` says once where a source can stop,
and what it leaves; the rest is read off that.

A source that leaves lexical faults or refused types keeps all later ones from being compiled, one
that is malformed does not (`blocked_after_iff`).  A source whose check has no end leaves nothing at
all, not even to those after it (`after_ne_none_iff`).

`compile_gated` is the result for the sources of a session: the stages gate them exactly if every
check that a source comes to ends.  `compile_circularSource` is a source that comes to one that does
not.
-/

namespace Offside

open List Token
open Checker (circularSource)

/-! ## What each stage reports -/

@[simp] theorem Parsed.ended_ofTokens (tokens : List Token) : (ofTokens tokens).ended = true := by
  obtain ⟨statements, s, hok, -⟩ := Nested.exists_program_eq_ok
    (s := ⟨Cursor.start tokens, []⟩) (Cursor.settled_start tokens)
    (Nat.le_succ (2 * (Cursor.start tokens).weight + 1))
  simp only [ofTokens, hok]

/-- **Tokens read as a program exactly if nothing is reported.** -/
theorem Parsed.program?_ofTokens (tokens : List Token) : (ofTokens tokens).program?
      = if (ofTokens tokens).reports = [] then some (ofTokens tokens).statements else none := by
  simp [program?]

namespace Session

variable {options : Options} {session session' : Session} {source : List Char}
  {earlier : List (List Char)} {outcome : Except Failure Compilation} {ds : List Diagnostic}
  {failure : Failure}

/-- A source as it is read. -/
def read (source : List Char) : Parsed := Parsed.ofTokens (scan source).tokens

/-- The diagnostics of the scan of a source. -/
def scanReports (source : List Char) : List Diagnostic := lexicalDiagnostics source (scan source)

/-- The diagnostics of the reading of a source. -/
def readReports (source : List Char) : List Diagnostic :=
  (read source).reports.map (·.toDiagnostic)

theorem category_scanReports (source : List Char) :
    ∀ d ∈ scanReports source, d.category = .lexical := by
  simp only [scanReports, lexicalDiagnostics, forall_mem_map]
  exact fun _ _ => rfl

theorem category_readReports (source : List Char) :
    ∀ d ∈ readReports source, d.category = .grammar := by
  simp only [readReports, forall_mem_map]
  exact fun _ _ => rfl

theorem category_diagnostics (verdicts : List Verdict) :
    ∀ d ∈ Verdict.diagnostics verdicts, d.category = .typing := by
  simp only [Verdict.diagnostics, mem_filterMap, Option.map_eq_some_iff]
  rintro d ⟨v, -, refusal, -, rfl⟩
  rfl

/-! ## What a session keeps -/

/-- A diagnostic of this category was reported in the session. -/
def Holds (session : Session) (category : Diagnostic.Category) : Prop :=
  ∃ d ∈ session.diagnostics, d.category = category

theorem count_pos_iff {category} : 0 < session.count category ↔ session.Holds category := by
  simp [count, Diagnostic.count, Holds, countP_pos_iff]

@[simp] theorem category_withLineText (source : List Char) (d : Diagnostic) :
    (withLineText source d).category = d.category := by
  unfold withLineText
  split <;> rfl

@[simp] theorem absorb_nil (session : Session) (source : List Char) :
    session.absorb source [] = session := by
  simp [absorb]

/-- What is kept of diagnostics of one category is of that category. -/
theorem category_map_withLineText {category} (h : ∀ d ∈ ds, d.category = category) :
    ∀ d ∈ ds.map (withLineText source), d.category = category := by
  simpa using h

/-- What a session holds once it has kept diagnostics of one category. -/
theorem holds_absorb_iff (session : Session) (source : List Char) {category}
    (h : ∀ d ∈ ds, d.category = category) (other : Diagnostic.Category) :
    (session.absorb source ds).Holds other ↔
      session.Holds other ∨ (other = category ∧ ds ≠ []) := by
  simp only [Holds, absorb, mem_append, or_and_right, exists_or]
  refine or_congr_right ⟨?_, ?_⟩
  · rintro ⟨d, hd, rfl⟩
    refine ⟨category_map_withLineText h d hd, ?_⟩
    rintro rfl
    exact not_mem_nil hd
  · rintro ⟨rfl, hne⟩
    obtain ⟨d, hd⟩ := exists_mem_of_ne_nil ds hne
    exact ⟨_, mem_map_of_mem hd, (category_withLineText source d).trans (h d hd)⟩

/-! ## Where a source can stop -/

/-- **Where a source stops, and what it leaves.**  Lexical faults and refused types of earlier
sources count, malformed statements of earlier sources do not. -/
inductive Reaches (session : Session) (source : List Char) :
    Option (Session × Except Failure Compilation) → Prop
  | scanned (h : session.Holds .lexical ∨ (scan source).faults ≠ []) :
      Reaches session source (some (session.absorb source (scanReports source),
        .error (.lexical ((session.absorb source (scanReports source)).count .lexical))))
  | parsed (hclear : ¬ session.Holds .lexical) (hscan : (scan source).faults = [])
      (h : (read source).reports ≠ []) :
      Reaches session source (some (session.absorb source (readReports source),
        .error (.grammar ((session.absorb source (readReports source)).count .grammar))))
  | endless (hclear : ¬ session.Holds .lexical) (hscan : (scan source).faults = [])
      (hread : (read source).reports = [])
      (h : Checker.start.check (read source).statements = none) :
      Reaches session source none
  | checked {c verdicts} (hclear : ¬ session.Holds .lexical) (hscan : (scan source).faults = [])
    (hread : (read source).reports = [])
    (hcheck : Checker.start.check (read source).statements = some (c, verdicts))
    (h : session.Holds .typing ∨ Verdict.diagnostics verdicts ≠ []) :
    Reaches session source (some (session.absorb source (Verdict.diagnostics verdicts),
      .error (.typing ((session.absorb source (Verdict.diagnostics verdicts)).count .typing))))
  | compiled {c verdicts} (hclear : ¬ session.Holds .lexical) (hscan : (scan source).faults = [])
    (hread : (read source).reports = [])
    (hcheck : Checker.start.check (read source).statements = some (c, verdicts))
    (hnone : ¬ session.Holds .typing) (h : Verdict.diagnostics verdicts = [])
    (compilation : Compilation) : Reaches session source (some (session, .ok compilation))

theorem reaches_compileProgram (hclear : ¬ session.Holds .lexical)
    (hscan : (scan source).faults = []) (hread : (read source).reports = []) :
    Reaches session source (session.compileProgram source (read source).statements) := by
  unfold compileProgram
  cases hcheck : Checker.start.check (read source).statements with
  | none => exact .endless hclear hscan hread hcheck
  | some result =>
    obtain ⟨c, verdicts⟩ := result
    have hholds := holds_absorb_iff session source (category_diagnostics verdicts) .typing
    dsimp only
    split
    · next hpos =>
      refine .checked hclear hscan hread hcheck ?_
      simpa using hholds.mp (count_pos_iff.mp hpos)
    · next hpos =>
      rw [gt_iff_lt, count_pos_iff, hholds] at hpos
      obtain ⟨hnone, h⟩ : ¬ session.Holds .typing ∧ Verdict.diagnostics verdicts = [] := by
        simpa using hpos
      rw [h, absorb_nil]
      exact .compiled hclear hscan hread hcheck hnone h _

/-- **A source stops at the first stage that has something to report.** -/
theorem reaches_compile (session : Session) (source : List Char) :
    Reaches session source (session.compile source) := by
  have hfaults : scanReports source = [] ↔ (scan source).faults = [] := map_eq_nil_iff
  have hholds := holds_absorb_iff session source (category_scanReports source) .lexical
  unfold compile
  dsimp only
  rw [← scanReports]
  split
  · next hpos =>
    refine .scanned ?_
    simpa [hfaults] using hholds.mp (count_pos_iff.mp hpos)
  · next hpos =>
    rw [gt_iff_lt, count_pos_iff, hholds] at hpos
    obtain ⟨hclear, hscan⟩ : ¬ session.Holds .lexical ∧ scanReports source = [] := by
      simpa using hpos
    have hscan' := hfaults.mp hscan
    rw [hscan, absorb_nil, Parsed.program?_ofTokens, ← read, ← readReports]
    by_cases hread : (read source).reports = []
    · have hnone : readReports source = [] := map_eq_nil_iff.mpr hread
      rw [if_pos hread, hnone, absorb_nil]
      exact reaches_compileProgram hclear hscan' hread
    · rw [if_neg hread]
      exact .parsed hclear hscan' hread

/-! ## What earlier sources leave behind -/

/-- The types of a source are refused: it reads as a program, and the check of that ends with
diagnostics. -/
def Refused (source : List Char) : Prop := (scan source).faults = [] ∧ (read source).reports = [] ∧
    ∃ c verdicts, Checker.start.check (read source).statements = some (c, verdicts) ∧
      Verdict.diagnostics verdicts ≠ []

/-- A source that is scanned with faults, or whose types are refused. -/
def Blocks (source : List Char) : Prop := (scan source).faults ≠ [] ∨ Refused source

/-- The stages report nothing of a source. -/
def Silent (source : List Char) : Prop := (scan source).faults = [] ∧ (read source).reports = [] ∧
    ∀ c verdicts, Checker.start.check (read source).statements = some (c, verdicts) →
      Verdict.diagnostics verdicts = []

/-- What keeps a session from compiling any further source was reported. -/
def Blocked (session : Session) : Prop := session.Holds .lexical ∨ session.Holds .typing

theorem not_blocked_iff : ¬ session.Blocked ↔
    ∀ d ∈ session.diagnostics, d.category ≠ .lexical ∧ d.category ≠ .typing := by
  simp only [Blocked, Holds, not_or, not_exists, not_and]
  exact ⟨fun h d hd => ⟨h.1 d hd, h.2 d hd⟩,
    fun h => ⟨fun d hd => (h d hd).1, fun d hd => (h d hd).2⟩⟩

/-- **What one source adds to what keeps later ones from being compiled.** -/
theorem blocked_compile_iff (h : session.compile source = some (session', outcome)) :
    session'.Blocked ↔ session.Blocked ∨ Blocks source := by
  have hreaches := reaches_compile session source
  rw [h] at hreaches
  cases hreaches with
  | scanned hlexical =>
    have hleft : (session.absorb source (scanReports source)).Blocked := by
      refine .inl ((holds_absorb_iff _ _ (category_scanReports source) _).mpr ?_)
      simpa [scanReports, lexicalDiagnostics] using hlexical
    exact iff_of_true hleft (hlexical.imp .inl .inl)
  | parsed hclear hscan hread =>
    have hnot : ¬ Blocks source := by simp [Blocks, Refused, hscan, hread]
    simp [Blocked, holds_absorb_iff session source (category_readReports source), hnot]
  | checked hclear hscan hread hcheck htyping =>
    have hleft : (session.absorb source (Verdict.diagnostics _)).Blocked :=
      .inr ((holds_absorb_iff _ _ (category_diagnostics _) _).mpr (by simpa using htyping))
    exact iff_of_true hleft (htyping.imp .inr fun hne => .inr ⟨hscan, hread, _, _, hcheck, hne⟩)
  | compiled hclear hscan hread hcheck hnone hempty =>
    have hnot : ¬ Blocks source := by simp [Blocks, Refused, hscan, hcheck, hempty]
    simp [hnot]

/-- The session once sources have been compiled one after another. `none` if checking the types of
one of them has no end. -/
def after (session : Session) (sources : List (List Char)) : Option Session :=
  sources.foldlM (fun session source => (session.compile source).map (·.1)) session

/-- **Later sources are kept from being compiled exactly if an earlier one has lexical faults or
refused types.** -/
theorem blocked_after_iff : ∀ {earlier : List (List Char)} {session session' : Session},
    session.after earlier = some session' →
      (session'.Blocked ↔ session.Blocked ∨ ∃ source ∈ earlier, Blocks source)
  | [], session, session', h => by
    obtain rfl : session = session' := Option.some.inj h
    simp
  | first :: later, session, session', h => by
    rw [after, foldlM_cons] at h
    obtain ⟨next, hnext, hlater⟩ := Option.bind_eq_some_iff.mp h
    obtain ⟨⟨_, outcome⟩, hfirst, rfl⟩ := Option.map_eq_some_iff.mp hnext
    rw [blocked_after_iff hlater, blocked_compile_iff hfirst, exists_mem_cons_iff, or_assoc]

/-! ## The sources of a session -/

/-- The category of the diagnostics that a failure counts. -/
def Failure.category : Failure → Diagnostic.Category
  | lexical _ => .lexical
  | grammar _ => .grammar
  | typing _ => .typing

/-- The number in a failure. -/
def Failure.count : Failure → Nat
  | lexical count | grammar count | typing count => count

/-- A source that fails: it adds diagnostics of one category only, and its failure counts those of
this category in the whole session. -/
structure Fails (session session' : Session) (failure : Failure) : Prop where
  counts : failure.count = session'.count failure.category
  positive : 0 < failure.count
  appends : ∃ added, session'.diagnostics = session.diagnostics ++ added ∧
    ∀ d ∈ added, d.category = failure.category

/-- Keeping the diagnostics of one category leaves the diagnostics before them as they are. -/
theorem fails_absorb (hds : ∀ d ∈ ds, d.category = failure.category)
    (hcounts : failure.count = (session.absorb source ds).count failure.category)
    (h : session.Holds failure.category ∨ ds ≠ []) :
    Fails session (session.absorb source ds) failure := by
  refine ⟨hcounts, ?_, ds.map (withLineText source), rfl, category_map_withLineText hds⟩
  rw [hcounts, count_pos_iff, holds_absorb_iff session source hds]
  exact h.imp_right fun hne => ⟨rfl, hne⟩

/-- **A source that is refused adds diagnostics of the category that its failure counts.** -/
theorem fails_of_compile (h : session.compile source = some (session', .error failure)) :
    Fails session session' failure := by
  have hreaches := reaches_compile session source
  rw [h] at hreaches
  cases hreaches with
  | scanned hlexical =>
    refine fails_absorb (category_scanReports source) rfl (hlexical.imp_right fun hne => ?_)
    simpa [scanReports, lexicalDiagnostics] using hne
  | parsed _ _ hread =>
    refine fails_absorb (category_readReports source) rfl (.inr ?_)
    simpa [readReports] using hread
  | checked _ _ _ _ htyping => exact fails_absorb (category_diagnostics _) rfl htyping

theorem eq_of_compile {compilation : Compilation}
    (h : session.compile source = some (session', .ok compilation)) : session' = session := by
  have hreaches := reaches_compile session source
  rw [h] at hreaches
  cases hreaches with
  | compiled => rfl

/-- **A source that comes to an outcome is compiled exactly if its stages report nothing and nothing
was left that blocks it.** -/
theorem compiled_iff (h : session.compile source = some (session', outcome)) :
    (∃ compilation, outcome = .ok compilation) ↔ Silent source ∧ ¬ session.Blocked := by
  have hreaches := reaches_compile session source
  rw [h] at hreaches
  cases hreaches with
  | scanned hlexical =>
    refine iff_of_false (by simp) ?_
    rintro ⟨⟨hscan, -⟩, hblocked⟩
    exact hlexical.elim (fun h => hblocked (.inl h)) fun h => h hscan
  | parsed _ _ hread => simp [Silent, hread]
  | checked _ _ _ hcheck hrefused =>
    refine iff_of_false (by simp) ?_
    rintro ⟨⟨-, -, hsilent⟩, hblocked⟩
    exact hrefused.elim (fun h => hblocked (.inr h)) fun h => h (hsilent _ _ hcheck)
  | compiled hclear hscan hread hcheck hnone hempty compilation =>
    refine iff_of_true ⟨compilation, rfl⟩ ⟨⟨hscan, hread, ?_⟩, not_or.mpr ⟨hclear, hnone⟩⟩
    intro c verdicts h
    rw [hcheck] at h
    cases h
    exact hempty

/-- **A source has no end exactly if it comes to a check that has none.** -/
theorem compile_eq_none_iff : session.compile source = none ↔
    ¬ session.Holds .lexical ∧ (scan source).faults = [] ∧ (read source).reports = [] ∧
      Checker.start.check (read source).statements = none := by
  have hreaches := reaches_compile session source
  generalize session.compile source = result at hreaches
  cases hreaches with
  | scanned h =>
    refine iff_of_false (Option.some_ne_none _) ?_
    rintro ⟨hlexical, hscan, -⟩
    exact h.elim hlexical fun hne => hne hscan
  | parsed _ _ h => simp [h]
  | endless hclear hscan hread h => simp [hclear, hscan, hread, h]
  | checked _ _ _ hcheck | compiled _ _ _ hcheck => simp [hcheck]

/-- Whether lexical faults are left depends on the scans alone. -/
theorem holds_lexical_compile_iff (h : session.compile source = some (session', outcome)) :
    session'.Holds .lexical ↔ session.Holds .lexical ∨ (scan source).faults ≠ [] := by
  have hreaches := reaches_compile session source
  rw [h] at hreaches
  cases hreaches with
  | scanned =>
    rw [holds_absorb_iff _ _ (category_scanReports source)]
    simp [scanReports, lexicalDiagnostics]
  | parsed _ hscan => simp [holds_absorb_iff _ _ (category_readReports source), hscan]
  | checked _ hscan => simp [holds_absorb_iff _ _ (category_diagnostics _), hscan]
  | compiled _ hscan => simp [hscan]

/-- **Every check that the sources of a session come to ends.**  Sources come to one if they read as
programs, up to the first that is scanned with faults. -/
def ChecksEnd (sources : List (List Char)) : Prop :=
  ∀ source ∈ sources.takeWhile fun source => (scan source).faults = [],
    (read source).reports = [] → Checker.start.check (read source).statements ≠ none

instance (sources : List (List Char)) : Decidable (ChecksEnd sources) :=
  inferInstanceAs (Decidable (∀ source ∈ sources.takeWhile fun source => (scan source).faults = [],
    (read source).reports = [] → Checker.start.check (read source).statements ≠ none))

theorem checksEnd_cons {later} : ChecksEnd (source :: later) ↔
    ((scan source).faults = [] →
      ((read source).reports = [] → Checker.start.check (read source).statements ≠ none) ∧
        ChecksEnd later) := by
  by_cases hscan : (scan source).faults = [] <;> simp [ChecksEnd, hscan]

/-- **A session goes on to its last source exactly if every check that it comes to ends.** -/
theorem after_ne_none_iff : ∀ {sources : List (List Char)} {session : Session},
    session.after sources ≠ none ↔ session.Holds .lexical ∨ ChecksEnd sources
  | [], session => by simp [after, ChecksEnd]
  | source :: later, session => by
    rw [after, foldlM_cons, checksEnd_cons]
    cases hfirst : session.compile source with
    | none =>
      obtain ⟨hclear, hscan, hread, hcheck⟩ := compile_eq_none_iff.mp hfirst
      simp [hclear, hscan, hread, hcheck]
    | some result =>
      obtain ⟨next, outcome⟩ := result
      have hends : ¬ session.Holds .lexical → (scan source).faults = [] →
          (read source).reports = [] → Checker.start.check (read source).statements ≠ none := by
        intro hclear hscan hread hcheck
        have hnone := compile_eq_none_iff.mpr ⟨hclear, hscan, hread, hcheck⟩
        exact Option.some_ne_none _ (hfirst.symm.trans hnone)
      have hlater : next.after later ≠ none ↔ _ := after_ne_none_iff
      rw [holds_lexical_compile_iff hfirst] at hlater
      rw [Option.map_some, Option.bind_eq_bind, Option.bind_some, ← after, hlater]
      by_cases hclear : session.Holds .lexical
      · simp [hclear]
      by_cases hscan : (scan source).faults = []
      · simpa [hclear, hscan] using fun _ => hends hclear hscan
      · simp [hscan]

/-- **What a source comes to behind others.**  It is compiled exactly if its own stages report
nothing and no earlier source is scanned with faults or has its types refused; which is to say, no
diagnostic of these categories was left.  One that is compiled adds no diagnostics, and one that
fails adds diagnostics of one category, of which it counts all in the session. -/
structure GatedBehind (earlier : List (List Char)) (source : List Char)
    (session session' : Session) (outcome : Except Failure Compilation) : Prop where
  compiled : (∃ compilation, outcome = .ok compilation) ↔
    Silent source ∧ ∀ e ∈ earlier, (scan e).faults = [] ∧ ¬ Refused e
  left : (∀ e ∈ earlier, (scan e).faults = [] ∧ ¬ Refused e) ↔
    ∀ d ∈ session.diagnostics, d.category ≠ .lexical ∧ d.category ≠ .typing
  keeps : ∀ compilation, outcome = .ok compilation → session'.diagnostics = session.diagnostics
  fails : ∀ failure, outcome = .error failure → Fails session session' failure
  /-- With no source before it, it is compiled exactly if there are no diagnostics, and otherwise
  they are of one category. -/
  alone : earlier = [] → ((∃ compilation, outcome = .ok compilation) ↔ session'.diagnostics = []) ∧
    ∀ failure, outcome = .error failure → ∀ d ∈ session'.diagnostics, d.category = failure.category

/-- The stages gate the sources of a session: each comes to an outcome, and to the one that it
should come to behind those before it. -/
def Gated (options : Options) (sources : List (List Char)) : Prop :=
  ∀ earlier source later, sources = earlier ++ source :: later →
    ∃ session session' outcome, (start options).after earlier = some session ∧
      session.compile source = some (session', outcome) ∧
      GatedBehind earlier source session session' outcome

/-- A source that comes to an outcome comes to the right one. -/
theorem gatedBehind_of_compile (hreached : (start options).after earlier = some session)
    (h : session.compile source = some (session', outcome)) :
    GatedBehind earlier source session session' outcome := by
  have hblocked : ¬ session.Blocked ↔ ∀ e ∈ earlier, (scan e).faults = [] ∧ ¬ Refused e := by
    rw [blocked_after_iff hreached]
    simp [Blocked, Holds, start, Blocks]
  refine ⟨?_, by rw [← hblocked, not_blocked_iff], ?_, ?_, ?_⟩
  · rw [compiled_iff h, hblocked]
  · rintro compilation rfl
    rw [eq_of_compile h]
  · rintro failure rfl
    exact fails_of_compile h
  · rintro rfl
    obtain rfl : start options = session := Option.some.inj hreached
    cases outcome with
    | ok compilation =>
      obtain rfl := eq_of_compile h
      simp [start]
    | error failure =>
      obtain ⟨hcounts, hpositive, added, hadded, hcategory⟩ := fails_of_compile h
      obtain rfl : _ = added := by simpa [start] using hadded
      obtain ⟨d, hd, -⟩ := count_pos_iff.mp (hcounts ▸ hpositive)
      refine ⟨by simp [ne_nil_of_mem hd], ?_⟩
      rintro failure' ⟨⟩
      exact hcategory

/-- **The stages gate the sources of a session exactly if every check that a source comes to
ends.** -/
theorem compile_gated (options : Options) (sources : List (List Char)) :
    Gated options sources ↔ ChecksEnd sources := by
  have hreached : ChecksEnd sources ↔ (start options).after sources ≠ none := by
    rw [after_ne_none_iff]
    simp [Holds, start]
  rw [hreached]
  constructor
  · intro hgated
    rcases eq_nil_or_concat' sources with rfl | ⟨earlier, last, rfl⟩
    · exact Option.some_ne_none _
    · obtain ⟨session, session', outcome, hearlier, hlast, -⟩ := hgated earlier last [] rfl
      rw [after, foldlM_append, ← after, hearlier, Option.bind_eq_bind, Option.bind_some]
      simp [hlast]
  · rintro h earlier source later rfl
    obtain ⟨final, hfinal⟩ := Option.ne_none_iff_exists'.mp h
    rw [after, foldlM_append] at hfinal
    obtain ⟨session, hearlier, hrest⟩ := Option.bind_eq_some_iff.mp hfinal
    rw [foldlM_cons] at hrest
    obtain ⟨next, hnext, -⟩ := Option.bind_eq_some_iff.mp hrest
    obtain ⟨⟨session', outcome⟩, hsource, -⟩ := Option.map_eq_some_iff.mp hnext
    exact ⟨session, session', outcome, hearlier, hsource, gatedBehind_of_compile hearlier hsource⟩

/-- A source that is scanned without faults and reads as a program, and comes to no outcome. -/
theorem compile_circularSource :
    (scan circularSource.toList).faults = [] ∧ (read circularSource.toList).reports = [] ∧
      (start ⟨.run, defaultRuntime⟩).compile circularSource.toList = none ∧
      ¬ Gated ⟨.run, defaultRuntime⟩ [circularSource.toList] := by
  obtain ⟨hscan, program, hprogram, hcheck⟩ := Checker.check_circularSource
  rw [Parsed.program?_ofTokens, ← read] at hprogram
  obtain ⟨hread, heq⟩ := Option.ite_none_right_eq_some.mp hprogram
  obtain rfl := Option.some.inj heq
  have hnone : (start ⟨.run, defaultRuntime⟩).compile circularSource.toList = none :=
    compile_eq_none_iff.mpr ⟨by simp [Holds, start], hscan, hread, hcheck⟩
  refine ⟨hscan, hread, hnone, fun hgated => ?_⟩
  obtain ⟨session, session', outcome, hsession, houtcome, -⟩ := hgated [] _ [] rfl
  obtain rfl : start _ = session := Option.some.inj hsession
  exact Option.some_ne_none _ (houtcome.symm.trans hnone)

/-- Behind a malformed source and one with a stray character, even such a source comes to an
outcome. -/
theorem compile_gated_strayCharacter :
    ChecksEnd ["var x\n".toList, "@\n".toList, circularSource.toList] ∧
      Gated ⟨.run, defaultRuntime⟩ ["var x\n".toList, "@\n".toList, circularSource.toList] := by
  have hends : ChecksEnd ["var x\n".toList, "@\n".toList, circularSource.toList] := by
    decide +kernel
  exact ⟨hends, (compile_gated _ _).mpr hends⟩

end Session

end Offside
