import Mathlib.Data.List.Forall2
import Offside.Proofs.Scoping

/-!
# Proofs/Shadowing — which names are builtin functions

Generating code keeps a list of the names that are declared so far, type checking a stack of scopes
with the builtin functions below all others.  In a program that is accepted both tell, place by
place, the same names apart from the builtin functions that they hide (`builtin_uses_iff_lookups`).
-/

namespace Offside

/-- A name that the check has found becomes a builtin function where it is one, and a variable where
it is declared. -/
theorem Occurrence.use_cases {o} (hfound : Check.Found o) :
    (o.use.builtin = true ∧ o.meant = some (.builtin o.name)) ∨
      (o.use.builtin = false ∧ ∃ depth, o.meant = some (.declared depth o.name)) := by
  unfold use meant Script.isBuiltin
  by_cases hvisible : o.name ∈ Block.visible o.blocks
  · obtain ⟨depth, -, hamong⟩ := among_of_visible hvisible
    refine .inr ⟨?_, depth, hamong⟩
    simp [hvisible]
  · -- A name that is assigned to is declared, so this one is used.
    obtain ⟨hassigned, hbuiltin⟩ := builtin_of_not_visible hfound hvisible
    refine .inl ⟨?_, ?_⟩
    · simp [hassigned, hvisible, hbuiltin]
    · rw [among_of_not_visible hvisible, among, if_pos hbuiltin]

/-- **In the code of an accepted program a name is that of a builtin function exactly where the
check has found it in the scope of the builtin functions**, and that of a variable exactly where the
check has found it in a scope of the program: for occurrence after occurrence. -/
theorem builtin_uses_iff_lookups {program : List Stmt} {c : Checker} {verdicts : List Verdict}
    (hcheck : Checker.start.check program = some (c, verdicts))
    (haccepted : Verdict.diagnostics verdicts = []) (runtime : String) :
    (Script.ofProgram runtime program).uses.map (·.name) = (occurrences program).map (·.name) ∧
      List.Forall₂ (fun use found =>
          (use.builtin = true ↔ found = some (.builtin use.name)) ∧
            (use.builtin = false ↔ ∃ depth, found = some (.declared depth use.name)))
        (Script.ofProgram runtime program).uses (Checker.start.lookups program) := by
  obtain ⟨hlookups, hfound⟩ := Checker.lookups_eq program
    (Checker.holds_start (declaredNames program)) hcheck (Verdict.diagnostics_eq_nil haccepted)
  rw [uses_program, hlookups]
  refine ⟨List.map_map, ?_⟩
  rw [List.forall₂_map_left_iff, List.forall₂_map_right_iff]
  refine List.forall₂_same.mpr fun o ho => ?_
  have hname : o.use.name = o.name := rfl
  rcases Occurrence.use_cases (hfound o ho) with ⟨hbuiltin, hmeant⟩ | ⟨hbuiltin, depth, hmeant⟩
  · simp [hbuiltin, hmeant, hname]
  · simp [hbuiltin, hmeant, hname]

/-- Builtin functions that are hidden by a variable, by a parameter and by a function of the
program, and used before, within and behind. -/
def shadowingSource : String :=
  "print(1)\nif true\n  var print : fn (length): length\n  print(2)\n" ++
    "fn length (x)\n  return length(x)\nprint(3)\n"

theorem builtin_uses_shadowingSource : ∃ program c verdicts,
    (Parsed.ofTokens (Token.scan shadowingSource.toList).tokens).program? = some program ∧
      Checker.start.check program = some (c, verdicts) ∧ Verdict.diagnostics verdicts = [] ∧
      (Script.ofProgram "" program).uses.map (fun use => (use.name, use.builtin))
        = [("print", true), ("length", false), ("print", false), ("length", false),
            ("x", false), ("print", true)] ∧
      List.Forall₂ (fun use found =>
          (use.builtin = true ↔ found = some (.builtin use.name)) ∧
            (use.builtin = false ↔ ∃ depth, found = some (.declared depth use.name)))
        (Script.ofProgram "" program).uses (Checker.start.lookups program) := by
  obtain ⟨program, c, verdicts, hprogram, hcheck, haccepted, huses⟩ :=
    exists_accepted (s := shadowingSource) (P := fun program =>
      (Script.ofProgram "" program).uses.map (fun use => (use.name, use.builtin))
        = [("print", true), ("length", false), ("print", false), ("length", false),
            ("x", false), ("print", true)]) (by decide +kernel)
  exact ⟨program, c, verdicts, hprogram, hcheck, haccepted, huses,
    (builtin_uses_iff_lookups hcheck haccepted "").2⟩

end Offside
