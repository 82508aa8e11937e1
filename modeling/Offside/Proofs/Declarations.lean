import Offside.Proofs.Conduct
import Offside.Proofs.Scoping

/-!
# Proofs/Declarations — what is recorded of an accepted program

Every declaration of a program that is accepted is recorded once, wherever it stands, and nothing
else is (`declarations_of_check`).  The order is that of evaluation: what is declared inside a value
or inside a function comes before the name of the value or of the function.
-/

namespace Offside

namespace Checker

/-- **A statement that is accepted has its declarations recorded.** -/
theorem declarations_of_checkStatement {c c' : Checker} {statement : Stmt} {verdict : Verdict}
    (h : c.checkStatement statement = some (c', verdict)) (haccepted : verdict.refusal = none) :
    List.Forall₂ Written.Recorded statement.declarations verdict.declarations := by
  obtain ⟨s, hok, -, hdeclarations⟩ := ok_of_checkStatement h haccepted
  obtain ⟨new, hnew, hrecorded⟩ := (Check.plain_statement 1 0 statement).recorded hok
  have hall : s.recorded.reverse = new := by simp [hnew]
  rwa [hdeclarations, hall]

theorem declarations_of_accepted : ∀ {program : List Stmt} {c c' : Checker}
    {verdicts : List Verdict}, c.check program = some (c', verdicts) →
      (∀ v ∈ verdicts, v.refusal = none) →
        List.Forall₂ Written.Recorded (declarationsIn program) (Verdict.allDeclarations verdicts)
  | [], c, c', verdicts, h, _ => by
    cases h
    rw [declarationsIn]
    exact .nil
  | first :: later, c, c', verdicts, h, haccepted => by
    obtain ⟨c₁, verdict, verdicts₁, hfirst, hlater, rfl⟩ := check_cons_eq_some h
    obtain ⟨hverdict, hverdicts⟩ := List.forall_mem_cons.mp haccepted
    rw [declarationsIn]
    exact List.rel_append (declarations_of_checkStatement hfirst hverdict)
      (declarations_of_accepted hlater hverdicts)

/-- **The declarations of an accepted program are all recorded, once each and in the order of
evaluation**, with their names, places, mutability and written types; and nothing else is. -/
theorem declarations_of_check {program : List Stmt} {c c' : Checker} {verdicts : List Verdict}
    (hcheck : c.check program = some (c', verdicts))
    (haccepted : Verdict.diagnostics verdicts = []) :
    List.Forall₂ Written.Recorded (declarationsIn program) (Verdict.allDeclarations verdicts) :=
  declarations_of_accepted hcheck (Verdict.diagnostics_eq_nil haccepted)

end Checker

/-- Declarations in a function literal that is the value of a declaration in a function, and in a
block. -/
def nestedDeclarations : String :=
  "fn f ()\n  var g : fn (x)\n    var y (Number) : x\n    return y\n  return g\n" ++
    "if true\n  mut z (Text?) : null\n"

theorem declarations_nestedDeclarations : ∃ program c verdicts,
    (Parsed.ofTokens (Token.scan nestedDeclarations.toList).tokens).program? = some program ∧
      Checker.start.check program = some (c, verdicts) ∧ Verdict.diagnostics verdicts = [] ∧
      (declarationsIn program).map (fun w => (w.name.lexeme, w.name.position.line, w.mutable))
        = [("y", 3, false), ("g", 2, false), ("f", 1, false), ("z", 7, true)] ∧
      List.Forall₂ Written.Recorded (declarationsIn program)
        (Verdict.allDeclarations verdicts) := by
  obtain ⟨program, c, verdicts, hprogram, hcheck, haccepted, hnames⟩ :=
    exists_accepted (s := nestedDeclarations) (P := fun program =>
      (declarationsIn program).map (fun w => (w.name.lexeme, w.name.position.line, w.mutable))
        = [("y", 3, false), ("g", 2, false), ("f", 1, false), ("z", 7, true)]) (by decide +kernel)
  exact ⟨program, c, verdicts, hprogram, hcheck, haccepted, hnames,
    Checker.declarations_of_check hcheck haccepted⟩

end Offside
