import Offside.Command.Tasks
import Offside.Proofs.Paths
import Offside.Proofs.Stages

/-!
# Proofs/TestRuns — what the tests of a directory come to

A test of a file ends in one of four ways (`Tested`), or it ends the whole run (`Aborts`).  A run
lists the files that it tests in order and counts those that fail (`testFiles_of_tested`), and it
has no result if one of them ends it (`testFiles_of_aborts`).  `test_never_hides_failures` is the
result for the command: it ends well only if every file was found to pass.
-/

namespace Offside

open List Session

/-! ## The files to be tested -/

namespace Entry

/-- The files at or below an entry, given its path. -/
inductive Contains : Entry → String → String → Prop
  | file {contents path} : Contains (.file contents) path path
  | inside {entries name path file entry} (hentry : (name, entry) ∈ entries)
    (h : entry.Contains (Path.join path name) file) : Contains (.directory entries) path file

mutual

theorem mem_filesWith {extension file} : ∀ (entry : Entry) (path : String),
    file ∈ entry.filesWith extension path ↔
      entry.Contains path file ∧ Path.extension? file = some extension
  | .file _, path => by
    rw [filesWith]
    constructor
    · intro h
      split at h
      · next hextension =>
        obtain rfl := mem_singleton.mp h
        exact ⟨.file, by simpa using hextension⟩
      · cases h
    · rintro ⟨⟨⟩, hextension⟩
      rw [if_pos (by simpa using hextension)]
      exact mem_singleton_self _
  | .directory entries, path => by
    rw [filesWith, mem_filesBelow entries path]
    refine and_congr_left fun _ => ⟨?_, ?_⟩
    · rintro ⟨name, entry, hentry, h⟩
      exact .inside hentry h
    · intro h
      cases h with
      | inside hentry h => exact ⟨_, _, hentry, h⟩

theorem mem_filesBelow {extension file} : ∀ (entries : List (String × Entry))
    (path : String), file ∈ filesBelow extension path entries ↔
      (∃ name entry, (name, entry) ∈ entries ∧ entry.Contains (Path.join path name) file) ∧
        Path.extension? file = some extension
  | [], path => by simp [filesBelow]
  | (name, entry) :: later, path => by
    rw [filesBelow, mem_append, mem_filesWith entry, mem_filesBelow later, ← or_and_right]
    refine and_congr_left fun _ => ?_
    simp [or_and_right, exists_or]

end

end Entry

namespace Command

/-! ## What a command does -/

/-- The console once more has been printed. -/
def Console.tell (c : Console) (out err : String) : Console := ⟨c.out ++ out, c.err ++ err, c.files⟩

@[simp] theorem Console.files_tell (c : Console) (out err : String) :
    (c.tell out err).files = c.files := rfl

@[simp] theorem Console.tell_tell (c : Console) (out err out' err' : String) :
    (c.tell out err).tell out' err' = c.tell (out ++ out') (err ++ err') := by
  simp only [tell, String.append_assoc]

namespace Run

variable {α β : Type} {c c' : Console} {x : Run α} {f : α → Run β} {a : α}

theorem bind_of_ok (h : x c = .ok a c') : (x >>= f) c = f a c' := by
  simp only [bind, EStateM.bind, h]

theorem bind_of_error {halt} (h : x c = .error halt c') : (x >>= f) c = .error halt c' := by
  simp only [bind, EStateM.bind, h]

@[simp] theorem printLine_eq (text : String) (c : Console) :
    printLine text c = .ok () (c.tell (text ++ "\n") "") := by
  rw [printLine, print, Console.tell, String.append_empty]

@[simp] theorem ask_bind (g : Files → α) : (ask g >>= f) c = f (g c.files) c := rfl

section

variable {g : Files → Except FileError α} {fault : FileError → Fault}

theorem askOrFail_of_ok (h : g c.files = .ok a) : askOrFail g fault c = .ok a c := by
  rw [askOrFail, h]

theorem askOrFail_of_error {e} (h : g c.files = .error e) :
    askOrFail g fault c = .error (.failed (fault e)) c := by
  rw [askOrFail, h]

end

/-- A run that ends early. -/
def Stops (x : Run α) (c : Console) : Prop := ∃ halt c', x c = .error halt c'

theorem Stops.bind (h : Stops x c) : Stops (x >>= f) c := by
  obtain ⟨halt, c', h⟩ := h
  exact ⟨halt, c', bind_of_error h⟩

theorem Stops.behind (hx : x c = .ok a c') (h : Stops (f a) c') : Stops (x >>= f) c := by
  obtain ⟨halt, d, h⟩ := h
  exact ⟨halt, d, (bind_of_ok hx).trans h⟩

end Run

open Run Offside.Path

/-- The inputs lead somewhere. -/
def Exist (files : Files) (inputs : List String) : Prop :=
  ∀ input ∈ inputs, ∃ entry, files.entry input = .ok entry

/-- A source file at or below one of the inputs. -/
structure IsSource (files : Files) (inputs : List String) (path : String) : Prop where
  below : ∃ input ∈ inputs, ∃ entry, files.entry input = .ok entry ∧ entry.Contains input path
  extension : extension? path = some "slate"

/-- The paths with those of the source files at or below an input. -/
def addSources (files : Files) (found : List String) (input : String) : List String :=
  match files.entry input with
  | .ok entry =>
    (entry.filesWith "slate" input).foldl (fun found path => Path.insert path found) found
  | .error _ => found

section

variable {files : Files} {inputs later : List String} {input path : String} {c : Console}

theorem isSource_cons : IsSource files (input :: later) path ↔
    (∃ entry, files.entry input = .ok entry ∧ path ∈ entry.filesWith "slate" input) ∨
      IsSource files later path := by
  constructor
  · rintro ⟨⟨_, hmem, entry, hentry, hcontains⟩, hextension⟩
    rcases mem_cons.mp hmem with rfl | hlater
    · exact .inl ⟨entry, hentry, (Entry.mem_filesWith entry _).mpr ⟨hcontains, hextension⟩⟩
    · exact .inr ⟨⟨_, hlater, entry, hentry, hcontains⟩, hextension⟩
  · rintro (⟨entry, hentry, hfile⟩ | ⟨⟨other, hlater, h⟩, hextension⟩)
    · obtain ⟨hcontains, hextension⟩ := (Entry.mem_filesWith entry _).mp hfile
      exact ⟨⟨input, mem_cons_self, entry, hentry, hcontains⟩, hextension⟩
    · exact ⟨⟨other, mem_cons_of_mem _ hlater, h⟩, hextension⟩

theorem lists_addSources (files : Files) (inputs : List String) {P found} (h : Lists P found) :
    Lists (fun path => IsSource files inputs path ∨ P path)
      (inputs.foldl (addSources files) found) := by
  induction inputs generalizing P found with
  | nil =>
    have hnone : ∀ path, ¬ IsSource files [] path := by
      rintro path ⟨⟨input, hinput, -⟩, -⟩
      exact not_mem_nil hinput
    simpa only [hnone, false_or, foldl_nil] using h
  | cons input later ih =>
    have hadd : Lists (fun path => (∃ entry, files.entry input = .ok entry ∧
        path ∈ entry.filesWith "slate" input) ∨ P path) (addSources files found input) := by
      unfold addSources
      cases hentry : files.entry input with
      | error e => simpa using h
      | ok entry => simpa using h.insertAll (entry.filesWith "slate" input)
    simpa only [isSource_cons, foldl_cons, or_assoc, or_left_comm] using ih hadd

theorem sourceFiles_of_exist (found : List String) (h : Exist c.files inputs) :
    sourceFiles found inputs c = .ok (inputs.foldl (addSources c.files) found) c := by
  induction inputs generalizing found with
  | nil => rfl
  | cons input later ih =>
    obtain ⟨⟨entry, hentry⟩, hlater⟩ := forall_mem_cons.mp h
    rw [sourceFiles, bind_of_ok (askOrFail_of_ok hentry), ih _ hlater, foldl_cons, addSources,
      hentry]

theorem sourceFiles_of_missing (found : List String) (h : ¬ Exist c.files inputs) :
    Stops (sourceFiles found inputs) c := by
  induction inputs generalizing found with
  | nil => exact absurd (forall_mem_nil _) h
  | cons input later ih =>
    cases hentry : c.files.entry input with
    | error e => exact .bind ⟨_, _, askOrFail_of_error hentry⟩
    | ok entry =>
      exact .behind (askOrFail_of_ok hentry) <| ih _ fun hlater =>
        h (forall_mem_cons.mpr ⟨⟨entry, hentry⟩, hlater⟩)

end

/-! ## What there is to a test -/

/-- The file beside a source that has what the program is to print: `out` stands in place of
`slate`.  None is looked for beside a source that is named `..slate`. -/
structure Expects (files : Files) (path expected : String) : Prop where
  undotted : fileName? path ≠ some "..slate"
  beside : ∃ base, path = base ++ ".slate" ∧ expected = base ++ ".out"
  isFile : files.isFile expected = true

/-- A test that has a result: the file, its text and its diagnostics, and what is wrong with it. -/
structure Test where
  path : String
  source : String
  diagnostics : List Diagnostic
  reason : Option String

/-- The end of a program that did not end well, and the first line of what it complained. -/
def crash (execution : Execution) : String :=
  "exited with " ++ execution.status.message ++ ": " ++
    ((Text.firstLine? execution.err.toList).map String.ofList).getD "no output"

section

variable (executor : Executor) (files : Files) (runtime : String)

/-- What compiling a source for a test comes to. -/
def compiled (source : String) : Option (Session × Except Failure Compilation) :=
  (start ⟨.test, runtime⟩).compile source.toList

/-- A source file is text that compiles without diagnostics, and its module could be executed. -/
structure Executes (path source : String) (execution : Execution) : Prop where
  extension : extension? path = some "slate"
  text : files.read path = .ok source
  result : ∃ session compilation, compiled runtime source = some (session, .ok compilation) ∧
    session.diagnostics = [] ∧
      executor path (moduleOf path compilation.javascript []) = .ok execution

/-- What a program printed is what the file beside it has, up to white space at the end. -/
def PrintsExpected (path : String) (execution : Execution) : Prop :=
  ∀ expected, Expects files path expected →
    ∃ text, files.read expected = .ok text ∧ trimEnd execution.out = trimEnd text

/-- **A file passes its test.** -/
def Passes (path : String) : Prop :=
  ∃ source execution, Executes executor files runtime path source execution ∧
    execution.status.isSuccess = true ∧ PrintsExpected files path execution

/-- **How a test ends** that does not end the whole run. -/
inductive Tested : Test → Prop
  | uncompiled {path source session failure} (htext : files.read path = .ok source)
    (h : compiled runtime source = some (session, .error failure)) :
    Tested ⟨path, source, session.diagnostics, some (Fault.compilationFailed failure).summary⟩
  | crashed {path source execution} (h : Executes executor files runtime path source execution)
    (hstatus : execution.status.isSuccess = false) :
    Tested ⟨path, source, [], some (crash execution)⟩
  | differs {path source expected text execution}
    (h : Executes executor files runtime path source execution)
    (hstatus : execution.status.isSuccess = true) (hexpects : Expects files path expected)
    (htext : files.read expected = .ok text) (hdiffers : trimEnd execution.out ≠ trimEnd text) :
    Tested ⟨path, source, [], some ("output differs from " ++ expected)⟩
  | passed {path source execution} (h : Executes executor files runtime path source execution)
    (hstatus : execution.status.isSuccess = true) (hprints : PrintsExpected files path execution) :
    Tested ⟨path, source, [], none⟩

/-- **A file that ends the whole run**: it is no text, its types cannot be checked to an end, its
module cannot be executed, or the file beside it is no text. -/
inductive Aborts : String → Prop
  | unreadable {path e} (h : files.read path = .error e) : Aborts path
  | endless {path source} (htext : files.read path = .ok source)
    (h : compiled runtime source = none) : Aborts path
  | unstarted {path source session compilation e} (htext : files.read path = .ok source)
    (hcompiled : compiled runtime source = some (session, .ok compilation))
    (h : executor path (moduleOf path compilation.javascript []) = .error e) : Aborts path
  | uncompared {path source expected execution e}
    (h : Executes executor files runtime path source execution)
    (hstatus : execution.status.isSuccess = true) (hexpects : Expects files path expected)
    (herror : files.read expected = .error e) : Aborts path

end

variable {executor : Executor} {files : Files} {settings : Settings} {runtime path source : String}
  {session : Session} {execution : Execution} {c : Console} {t : Test} {tests : List Test}

theorem Executes.expects_iff {expected : String}
    (h : Executes executor files runtime path source execution) : Expects files path expected ↔
      expected = withExtension path "out" ∧ files.isFile expected = true := by
  have hfile := Files.isFile_of_read h.text
  by_cases hname : fileName? path = some "..slate"
  · refine ⟨fun h => absurd hname h.undotted, ?_⟩
    rintro ⟨rfl, hout⟩
    rw [Files.isFile_withExtension_dotted hfile h.extension hname] at hout
    cases hout
  · obtain ⟨base, hbase, hout⟩ := Files.withExtension_of_isFile hfile h.extension hname "out"
    rw [String.append_assoc] at hbase hout
    constructor
    · rintro ⟨-, ⟨base', hbase', rfl⟩, hisFile⟩
      obtain rfl : base' = base := (String.append_left_inj ".slate").mp (hbase'.symm.trans hbase)
      exact ⟨hout.symm, hisFile⟩
    · rintro ⟨rfl, hisFile⟩
      exact ⟨hname, ⟨base, hbase, hout⟩, hisFile⟩

/-- What compiles leaves no diagnostics. -/
theorem diagnostics_of_compiled {compilation}
    (h : compiled runtime source = some (session, .ok compilation)) : session.diagnostics = [] := by
  have hreaches := reaches_compile (start ⟨.test, runtime⟩) source.toList
  rw [compiled] at h
  rw [h] at hreaches
  cases hreaches
  rfl

/-- **A test has a result, or it ends the whole run.** -/
theorem tested_or_aborts (executor : Executor) (files : Files) (runtime : String)
    (hextension : extension? path = some "slate") :
    (∃ t : Test, t.path = path ∧ Tested executor files runtime t) ∨
      Aborts executor files runtime path := by
  cases htext : files.read path with
  | error e => exact .inr (.unreadable htext)
  | ok source =>
    cases hcompiled : compiled runtime source with
    | none => exact .inr (.endless htext hcompiled)
    | some outcome =>
      obtain ⟨session, result⟩ := outcome
      cases result with
      | error failure => exact .inl ⟨_, rfl, .uncompiled htext hcompiled⟩
      | ok compilation =>
        cases hexecutor : executor path (moduleOf path compilation.javascript []) with
        | error e => exact .inr (.unstarted htext hcompiled hexecutor)
        | ok execution =>
          have h : Executes executor files runtime path source execution := ⟨hextension, htext,
            session, compilation, hcompiled, diagnostics_of_compiled hcompiled, hexecutor⟩
          cases hstatus : execution.status.isSuccess with
          | false => exact .inl ⟨_, rfl, .crashed h hstatus⟩
          | true =>
            by_cases hprints : PrintsExpected files path execution
            · exact .inl ⟨_, rfl, .passed h hstatus hprints⟩
            · obtain ⟨expected, hexpects, hother⟩ : ∃ expected, Expects files path expected ∧
                  ¬ ∃ text, files.read expected = .ok text ∧
                    trimEnd execution.out = trimEnd text := by
                simpa [PrintsExpected] using hprints
              cases hread : files.read expected with
              | error e => exact .inr (.uncompared h hstatus hexpects hread)
              | ok text =>
                exact .inl ⟨_, rfl, .differs h hstatus hexpects hread fun hsame =>
                  hother ⟨text, hread, hsame⟩⟩

theorem passes_of_tested (h : Tested executor files runtime t) (hreason : t.reason = none) :
    Passes executor files runtime t.path := by
  cases h with
  | passed h hstatus hprints => exact ⟨_, _, h, hstatus, hprints⟩
  | _ => cases hreason

theorem tested_of_passes (h : Passes executor files runtime path) :
    ∃ t : Test, t.path = path ∧ Tested executor files runtime t ∧ t.reason = none := by
  obtain ⟨source, execution, hexecutes, hstatus, hprints⟩ := h
  exact ⟨_, rfl, .passed hexecutes hstatus hprints, rfl⟩

/-! ## One test -/

/-- The tokens of a source, where they are asked for. -/
def dump (settings : Settings) (source : String) : String :=
  if settings.dumpTokens then tokenDump source.toList else ""

/-- What is told about the diagnostics of a test. -/
def Test.complaint (settings : Settings) (t : Test) : String :=
  reportDiagnostics settings.format t.path t.diagnostics

theorem compile_of_none (h : compiled runtime source = none) :
    compile settings path source .test runtime c = .error .endless c := by
  rw [compiled] at h
  rw [compile, h]
  rfl

theorem compile_of_some {result} (h : compiled runtime source = some (session, result)) :
    compile settings path source .test runtime c = .ok result (c.tell (dump settings source)
      (reportDiagnostics settings.format path session.diagnostics)) := by
  rw [compiled] at h
  rw [compile, h]
  unfold dump Console.tell
  cases settings.dumpTokens <;> simp [bind, EStateM.bind, print, complain, pure, EStateM.pure]

theorem compareOutput_of_none (h : c.files.isFile (withExtension path "out") = false) :
    compareOutput path execution c = .ok none c := by
  rw [compareOutput, ask_bind, h]
  rfl

theorem compareOutput_of_text {text} (hfile : c.files.isFile (withExtension path "out") = true)
    (htext : c.files.read (withExtension path "out") = .ok text) :
    compareOutput path execution c = .ok (if trimEnd execution.out = trimEnd text then none
      else some ("output differs from " ++ withExtension path "out")) c := by
  rw [compareOutput, ask_bind, hfile, if_pos rfl, bind_of_ok (askOrFail_of_ok htext)]
  by_cases hsame : trimEnd execution.out = trimEnd text <;> simp [hsame, pure, EStateM.pure]

/-- A file that was executed is compared, or its crash is told. -/
theorem testFile_of_executes (h : Executes executor c.files runtime path source execution) :
    testFile executor settings runtime path c
      = (if execution.status.isSuccess then compareOutput path execution
        else pure (some (crash execution))) (c.tell (dump settings source) "") := by
  obtain ⟨-, htext, session, compilation, hcompiled, hnone, hexecutor⟩ := h
  rw [testFile, load, bind_of_ok (askOrFail_of_ok htext), bind_of_ok (compile_of_some hcompiled),
    hnone]
  dsimp only
  rw [execute, hexecutor]
  rfl

/-- A test with a result comes to it, and tells the tokens and the diagnostics. -/
theorem testFile_of_tested (h : Tested executor c.files runtime t) :
    testFile executor settings runtime t.path c
      = .ok t.reason (c.tell (dump settings t.source) (t.complaint settings)) := by
  cases h with
  | uncompiled htext h =>
    rw [testFile, load, bind_of_ok (askOrFail_of_ok htext), bind_of_ok (compile_of_some h)]
    rfl
  | crashed h hstatus =>
    rw [testFile_of_executes h, hstatus]
    rfl
  | differs h hstatus hexpects htext hdiffers =>
    obtain ⟨rfl, hfile⟩ := h.expects_iff.mp hexpects
    rw [testFile_of_executes h, hstatus, if_pos rfl,
      compareOutput_of_text (c := c.tell _ _) hfile htext, if_neg hdiffers]
    rfl
  | @passed path _ execution h hstatus hprints =>
    rw [testFile_of_executes h, hstatus, if_pos rfl]
    cases hfile : c.files.isFile (withExtension path "out") with
    | false => exact compareOutput_of_none hfile
    | true =>
      obtain ⟨text, htext, hsame⟩ := hprints _ (h.expects_iff.mpr ⟨rfl, hfile⟩)
      rw [compareOutput_of_text (c := c.tell _ _) hfile htext, if_pos hsame]
      rfl

theorem testFile_of_aborts (h : Aborts executor c.files runtime path) :
    Stops (testFile executor settings runtime path) c := by
  cases h with
  | unreadable h => exact .bind ⟨_, _, askOrFail_of_error h⟩
  | endless htext h =>
    exact .behind (askOrFail_of_ok htext) (.bind ⟨_, _, compile_of_none h⟩)
  | unstarted htext hcompiled h =>
    refine .behind (askOrFail_of_ok htext) (.behind (compile_of_some hcompiled) (.bind ?_))
    rw [execute, h]
    exact ⟨_, _, rfl⟩
  | uncompared h hstatus hexpects herror =>
    obtain ⟨rfl, hfile⟩ := h.expects_iff.mp hexpects
    rw [Stops, testFile_of_executes h, hstatus, if_pos rfl, compareOutput, ask_bind,
      Console.files_tell, hfile, if_pos rfl]
    exact Stops.bind ⟨_, _, askOrFail_of_error herror⟩

/-! ## A run of tests -/

/-- What is printed about a test. -/
def Test.listing (settings : Settings) (t : Test) : String :=
  dump settings t.source ++ (match t.reason with
    | none => "  ✓ " ++ t.path
    | some reason => "  ✗ " ++ t.path ++ " (" ++ reason ++ ")") ++ "\n"

/-- How many tests failed. -/
def failures (tests : List Test) : Nat := tests.countP (·.reason.isSome)

/-- What a run prints about its tests, one after the other. -/
def listings (settings : Settings) (tests : List Test) : String :=
  String.join (tests.map (·.listing settings))

/-- What a run tells about the diagnostics of its tests. -/
def complaints (settings : Settings) (tests : List Test) : String :=
  String.join (tests.map (·.complaint settings))

/-- A test is listed before those behind it are run. -/
theorem testFiles_cons (h : Tested executor c.files runtime t) (later : List String) :
    testFiles executor settings runtime (t.path :: later) c
      = (do return (← testFiles executor settings runtime later) + failures [t])
        (c.tell (t.listing settings) (t.complaint settings)) := by
  have hlisted (line : String) : (c.tell (dump settings t.source) (t.complaint settings)).tell
      (line ++ "\n") "" =
        c.tell (dump settings t.source ++ line ++ "\n") (t.complaint settings) := by
    rw [Console.tell_tell, String.append_empty, String.append_assoc]
  rw [testFiles, bind_of_ok (testFile_of_tested h), Test.listing, ← hlisted]
  cases hreason : t.reason with
  | none =>
    have hcount : failures [t] = 0 := by simp [failures, hreason]
    dsimp only
    rw [bind_of_ok (printLine_eq _ _)]
    simp only [hcount, Nat.add_zero, bind_pure]
  | some reason =>
    have hcount : failures [t] = 1 := by simp [failures, hreason]
    dsimp only
    rw [bind_of_ok (printLine_eq _ _), hcount]

/-- **Every test of a run is listed, and those that fail are counted.** -/
theorem testFiles_of_tested (h : ∀ t ∈ tests, Tested executor c.files runtime t) :
    testFiles executor settings runtime (tests.map (·.path)) c
      = .ok (failures tests) (c.tell (listings settings tests) (complaints settings tests)) := by
  induction tests generalizing c with
  | nil => simp [testFiles, failures, listings, complaints, Console.tell, pure, EStateM.pure]
  | cons t later ih =>
    obtain ⟨ht, hlater⟩ := forall_mem_cons.mp h
    rw [map_cons, testFiles_cons ht, bind_of_ok (ih (c := c.tell _ _) hlater), Console.tell_tell]
    simp [pure, EStateM.pure, failures, listings, complaints, countP_cons, String.join_cons]

/-- **A file that ends the run leaves it without a result.** -/
theorem testFiles_of_aborts {paths} (hextension : ∀ path ∈ paths, extension? path = some "slate")
    (h : ∃ path ∈ paths, Aborts executor c.files runtime path) :
    Stops (testFiles executor settings runtime paths) c := by
  induction paths generalizing c with
  | nil => simp at h
  | cons path later ih =>
    obtain ⟨hfirst, hlater⟩ := forall_mem_cons.mp hextension
    by_cases haborts : Aborts executor c.files runtime path
    · exact (testFile_of_aborts haborts).bind
    · obtain ⟨t, rfl, ht⟩ :=
        (tested_or_aborts executor c.files runtime hfirst).resolve_right haborts
      have hbehind : ∃ path ∈ later, Aborts executor c.files runtime path := by
        simpa [haborts] using h
      rw [Stops, testFiles_cons ht]
      exact (ih (c := c.tell _ _) hlater hbehind).bind

/-! ## The whole command -/

/-- The first line of what a run of tests prints. -/
def heading (total : Nat) : String := "Running " ++ toString total ++ " test file(s)..."

/-- The last lines, if no test failed. -/
def closing (total : Nat) : String := "\nAll " ++ toString total ++ " test file(s) passed"

/-- How a command ends that has run tests: each of them is listed, and those that failed are
counted. -/
def Outcome.ofTests (settings : Settings) (files : Files) (tests : List Test) : Outcome :=
  let listed := heading tests.length ++ "\n" ++ listings settings tests
  if tests.isEmpty then ⟨0, "no test files found\n", "", files⟩
  else if failures tests = 0 then
    ⟨0, listed ++ closing tests.length ++ "\n", complaints settings tests, files⟩
  else
    ⟨1, listed, complaints settings tests ++
      (Fault.testsFailed (failures tests) tests.length).report, files⟩

theorem exit_ofTests (files : Files) (tests : List Test) :
    (Outcome.ofTests settings files tests).exit = 0 ↔ ∀ t ∈ tests, t.reason = none := by
  unfold Outcome.ofTests failures
  dsimp only
  split
  · next h => simp [isEmpty_iff.mp h]
  · split
    · next h => simpa using h
    · next h => simpa using h

theorem exists_tests {paths : List String} {Q : Test → Prop}
    (h : ∀ path ∈ paths, ∃ t : Test, t.path = path ∧ Q t) :
    ∃ tests : List Test, tests.map (·.path) = paths ∧ ∀ t ∈ tests, Q t := by
  induction paths with
  | nil => exact ⟨[], rfl, forall_mem_nil _⟩
  | cons path later ih =>
    obtain ⟨⟨t, rfl, ht⟩, hlater⟩ := forall_mem_cons.mp h
    obtain ⟨tests, rfl, htests⟩ := ih hlater
    exact ⟨t :: tests, rfl, forall_mem_cons.mpr ⟨ht, htests⟩⟩

/-- How a command ends, given how its task did. -/
def Outcome.ofResult : EStateM.Result Halt Console Unit → Option Outcome
  | .ok () c => some ⟨0, c.out, c.err, c.files⟩
  | .error (.failed fault) c => some ⟨1, c.out, c.err ++ fault.report, c.files⟩
  | .error .endless _ => none

theorem exit_of_stops {task} (h : Stops task c) :
    (Outcome.ofResult (task c)).map (·.exit) ≠ some 0 := by
  obtain ⟨halt, c', h⟩ := h
  rw [h]
  cases halt <;> simp [Outcome.ofResult]

section

variable {arguments inputs : List String} {environment : Option String}

theorem outcome_eq (hsettings : Settings.ofArguments arguments environment = .ok settings)
    (htask : settings.task = .test inputs) :
    Outcome.ofArguments executor environment arguments files
      = Outcome.ofResult (test executor settings inputs ⟨"", "", files⟩) := by
  simp only [Outcome.ofArguments, hsettings, perform, htask]
  rcases test executor settings inputs ⟨"", "", files⟩ with ⟨_, c⟩ | ⟨fault | _, c⟩ <;> rfl

variable (hinputs : inputs ≠ [])

include hinputs

theorem test_of_missing (h : ¬ Exist c.files inputs) : Stops (test executor settings inputs) c := by
  rw [test, if_neg (by simpa using hinputs)]
  exact .behind rfl (sourceFiles_of_missing [] h).bind

/-- The files that are found are run, and then it is told if any failed. -/
theorem test_of_exist (h : Exist c.files inputs) : test executor settings inputs c
    = (let paths := inputs.foldl (addSources c.files) []
      if paths.isEmpty then printLine "no test files found" else do
        printLine (heading paths.length)
        let runtime ← ask (executionRuntime settings.runtime)
        let failed ← testFiles executor settings runtime paths
        if failed > 0 then fail (.testsFailed failed paths.length)
        printLine (closing paths.length)) c := by
  rw [test, if_neg (by simpa using hinputs), pure_bind]
  exact bind_of_ok (sourceFiles_of_exist [] h)

variable (hexist : Exist files inputs)

include hexist

/-- Where every file is tested, that is how the command ends. -/
theorem ofResult_of_tested (hpaths : tests.map (·.path) = inputs.foldl (addSources files) [])
    (h : ∀ t ∈ tests, Tested executor files (executionRuntime settings.runtime files) t) :
    Outcome.ofResult (test executor settings inputs ⟨"", "", files⟩)
      = some (.ofTests settings files tests) := by
  rw [test_of_exist hinputs hexist, ← hpaths]
  dsimp only
  by_cases hne : tests.isEmpty
  · obtain rfl := isEmpty_iff.mp hne
    rfl
  · rw [if_neg (by simpa using hne), bind_of_ok (printLine_eq _ _), ask_bind,
      bind_of_ok (testFiles_of_tested (c := Console.tell _ _ _) h), Console.tell_tell, length_map]
    rw [Outcome.ofTests, if_neg hne]
    by_cases hpassed : failures tests = 0
    · rw [if_pos hpassed, if_neg (by simp [hpassed]), printLine_eq]
      simp [Outcome.ofResult, Console.tell, String.append_assoc]
    · rw [if_neg hpassed, if_pos (by omega), bind_of_error (x := fail _) rfl]
      simp [Outcome.ofResult, Console.tell]

theorem test_of_aborts
    (hextension : ∀ path ∈ inputs.foldl (addSources files) [], extension? path = some "slate")
    (h : ∃ path ∈ inputs.foldl (addSources files) [],
      Aborts executor files (executionRuntime settings.runtime files) path) :
    Stops (test executor settings inputs) ⟨"", "", files⟩ := by
  rw [Stops, test_of_exist hinputs hexist]
  dsimp only
  have hne : inputs.foldl (addSources files) [] ≠ [] := by
    obtain ⟨path, hmem, -⟩ := h
    exact ne_nil_of_mem hmem
  rw [if_neg (by simpa using hne), bind_of_ok (printLine_eq _ _), ask_bind]
  exact (testFiles_of_aborts (c := Console.tell _ _ _) hextension h).bind

omit hexist

/-- **A run of tests never hides a failure.**  It ends well if and only if its inputs exist and
every source file at or below them passes its test: the file is text, it compiles without
diagnostics, its module is executed and ends well, and it prints what the file beside it has, unless
it is named `..slate`.  If no file ends the run, each is listed once and in order, and those that
failed are counted. -/
theorem test_never_hides_failures
    (hsettings : Settings.ofArguments arguments environment = .ok settings)
    (htask : settings.task = .test inputs) (executor : Executor) (files : Files) :
    let runtime := executionRuntime settings.runtime files
    let outcome := Outcome.ofArguments executor environment arguments files
    ∃ paths, Lists (IsSource files inputs) paths ∧
      (outcome.map (·.exit) = some 0 ↔
        Exist files inputs ∧ ∀ path ∈ paths, Passes executor files runtime path) ∧
      (Exist files inputs → (∀ path ∈ paths, ¬ Aborts executor files runtime path) →
        ∃ tests : List Test, tests.map (·.path) = paths ∧
          (∀ t ∈ tests, Tested executor files runtime t) ∧
            outcome = some (.ofTests settings files tests)) := by
  intro runtime outcome
  have houtcome : outcome = Outcome.ofResult (test executor settings inputs ⟨"", "", files⟩) :=
    outcome_eq hsettings htask
  have hlists : Lists (IsSource files inputs) (inputs.foldl (addSources files) []) := by
    have hnone : Lists (fun _ => False) [] :=
      ⟨.nil, fun _ h => absurd h not_mem_nil, fun _ h => h.elim⟩
    simpa only [or_false] using lists_addSources files inputs hnone
  have hextension := fun path hpath => (hlists.sound path hpath).extension
  have htested (hexist : Exist files inputs)
      (hnone : ∀ path ∈ inputs.foldl (addSources files) [], ¬ Aborts executor files runtime path) :
      ∃ tests : List Test, tests.map (·.path) = inputs.foldl (addSources files) [] ∧
        (∀ t ∈ tests, Tested executor files runtime t) ∧
          outcome = some (.ofTests settings files tests) := by
    obtain ⟨tests, hpaths, htests⟩ := exists_tests fun path hpath =>
      (tested_or_aborts executor files runtime (hextension path hpath)).resolve_right
        (hnone path hpath)
    exact ⟨tests, hpaths, htests,
      houtcome.trans (ofResult_of_tested hinputs hexist hpaths htests)⟩
  refine ⟨_, hlists, ⟨fun hexit => ?_, fun ⟨hexist, hpass⟩ => ?_⟩, htested⟩
  · rw [houtcome] at hexit
    have hexist : Exist files inputs := by
      by_contra hmissing
      exact exit_of_stops (test_of_missing hinputs hmissing) hexit
    obtain ⟨tests, hpaths, htests, hended⟩ := htested hexist fun path hpath haborts =>
      exit_of_stops (test_of_aborts hinputs hexist hextension ⟨path, hpath, haborts⟩) hexit
    rw [← houtcome, hended, Option.map_some, Option.some.injEq, exit_ofTests] at hexit
    rw [← hpaths]
    exact ⟨hexist, forall_mem_map.mpr fun t ht => passes_of_tested (htests t ht) (hexit t ht)⟩
  · obtain ⟨tests, hpaths, htests⟩ := exists_tests fun path hpath =>
      tested_of_passes (hpass path hpath)
    rw [houtcome, ofResult_of_tested hinputs hexist hpaths fun t ht => (htests t ht).1,
      Option.map_some, Option.some.injEq, exit_ofTests]
    exact fun t ht => (htests t ht).2

end

/-- A directory with two programs, and with what the first one is to print in the file beside it. -/
def greetingTree : Files :=
  ⟨.directory [("d", .directory [("b.slate", .file "print('v')\n".toUTF8),
    ("a.slate", .file "print('v')\n".toUTF8), ("a.out", .file "v\n".toUTF8)])], []⟩

/-- A program that executes modules and always prints the same. -/
def greeter : Executor := fun _ _ => .ok ⟨"v", "", .exited 0⟩

/-- A program that executes modules, all of which end badly. -/
def crasher : Executor := fun _ _ => .ok ⟨"", "", .exited 3⟩

/-- A source of that directory can be read and compiled. -/
theorem compiled_greetingTree {path} (h : IsSource greetingTree ["d"] path) :
    ∃ source, greetingTree.read path = .ok source ∧
      (compiled (executionRuntime "slate-runtime" greetingTree) source).isSome := by
  have hall : (greetingTree.entry "d").toOption.all fun entry =>
      (entry.filesWith "slate" "d").all fun path =>
        (greetingTree.read path).toOption.any fun source =>
        (compiled (executionRuntime "slate-runtime" greetingTree) source).isSome := by
    decide +kernel
  rcases isSource_cons.mp h with ⟨entry, hentry, hmem⟩ | ⟨⟨_, hnone, -⟩, -⟩
  · rw [hentry] at hall
    obtain ⟨source, hread, hsome⟩ := (Option.any_eq_true _ _).mp (all_eq_true.mp hall path hmem)
    cases htext : greetingTree.read path with
    | error e =>
      rw [htext] at hread
      cases hread
    | ok text =>
      rw [htext] at hread
      cases hread
      exact ⟨_, rfl, hsome⟩
  · exact absurd hnone not_mem_nil

/-- Both programs pass where they print what is expected, and both are counted where they crash. -/
theorem test_never_hides_failures_greetingTree :
    (∃ paths, Lists (IsSource greetingTree ["d"]) paths ∧ Exist greetingTree ["d"] ∧
      ∀ path ∈ paths, Passes greeter greetingTree
        (executionRuntime "slate-runtime" greetingTree) path) ∧
    ∃ paths tests, Lists (IsSource greetingTree ["d"]) paths ∧ tests.map Test.path = paths ∧
      (∀ t ∈ tests, Tested crasher greetingTree
        (executionRuntime "slate-runtime" greetingTree) t) ∧
      Outcome.ofArguments crasher none ["test", "d"] greetingTree
        = some (.ofTests ⟨"slate-runtime", false, .human, .test ["d"]⟩ greetingTree tests) ∧
      (Outcome.ofArguments crasher none ["test", "d"] greetingTree).map (fun o => (o.exit, o.err))
        = some (1, "Error: 2 of 2 test file(s) failed\n") := by
  have hsettings : Settings.ofArguments ["test", "d"] none
      = .ok ⟨"slate-runtime", false, .human, .test ["d"]⟩ := rfl
  have hended : (Outcome.ofArguments greeter none ["test", "d"] greetingTree).map (·.exit)
      = some 0 := by decide +kernel
  obtain ⟨paths, hlists, hexit, -⟩ :=
    test_never_hides_failures (by decide) hsettings rfl greeter greetingTree
  have hpass := hexit.mp hended
  refine ⟨⟨paths, hlists, hpass⟩, ?_⟩
  obtain ⟨paths, hlists, -, hcounted⟩ :=
    test_never_hides_failures (by decide) hsettings rfl crasher greetingTree
  obtain ⟨tests, hpaths, htests, houtcome⟩ := hcounted hpass.1 fun path hpath haborts => by
    obtain ⟨source, hread, hsome⟩ := compiled_greetingTree (hlists.sound path hpath)
    cases haborts with
    | unreadable h => cases hread.symm.trans h
    | endless htext h =>
      cases hread.symm.trans htext
      rw [h] at hsome
      cases hsome
    | unstarted _ _ h => cases h
    | uncompared h hstatus =>
      obtain ⟨_, _, -, -, hexecutor⟩ := h.result
      cases hexecutor
      cases hstatus
  exact ⟨paths, tests, hlists, hpaths, htests, houtcome, by decide +kernel⟩

/-- A program whose name begins with two dots, and what it is to print in the file beside it. -/
def dottedTree : Files :=
  ⟨.directory [("..slate", .file "print('v')\n".toUTF8), ("..out", .file "w\n".toUTF8)], []⟩

/-- **The file beside `..slate` is not compared.** -/
theorem dottedTree_passes :
    (Outcome.ofArguments greeter none ["test", "..slate"] dottedTree).map
        (fun outcome => (outcome.exit, outcome.out, outcome.err))
      = some (0, "Running 1 test file(s)...\n  ✓ ..slate\n\nAll 1 test file(s) passed\n", "") ∧
    dottedTree.isFile "..out" = true ∧ dottedTree.read "..out" = .ok "w\n" ∧
      trimEnd "v" ≠ trimEnd "w\n" := by
  decide +kernel

end Command

end Offside
