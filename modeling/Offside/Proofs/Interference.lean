import Offside.Proofs.Freshness

/-!
# Proofs/Interference — statements that declare nothing

A statement at the top that declares no name leaves the scopes as they are, however much it opens
and binds inside and wherever it is refused.  What it does leave behind is that variables have been
taken: the statements after it get others than they would get without it.

The types found before it have none of those (`rename_of_check`), so a permutation leads from the
check without the statement to the one with it (`check_insert`).
-/

namespace Offside.Checker

open Check (Shifts)

/-- Some permutation keeps the numbers below `lo` and moves those from there up to `hi`. -/
theorem exists_shifts {lo hi} (h : lo ≤ hi) (k : Nat) :
    ∃ π : Equiv.Perm Nat, KeepsBelow lo π ∧ Shifts π k lo hi := by
  obtain ⟨π, hπ⟩ := Check.exists_perm (fun i => if i < lo then i else i + k) (List.range hi)
    fun i _ j _ hij => by
      split at hij <;> split at hij <;> omega
  refine ⟨π, fun i hi => ?_, fun i hlo hhi => ?_⟩
  · rw [hπ i (List.mem_range.mpr (by omega)), if_pos hi]
  · rw [hπ i (List.mem_range.mpr hhi), if_neg (by omega)]

/-- **What has been found so far does not change where the variables taken keep their numbers.** -/
theorem rename_of_check {program c verdicts π} (h : start.check program = some (c, verdicts))
    (hπ : KeepsBelow c.nextVar π) :
    c.rename π 0 = c ∧ verdicts.map (Verdict.rename π) = verdicts := by
  obtain ⟨-, hc, hverdicts⟩ := below_check below_start h
  refine ⟨allTypes_below_iff.mp hc π hπ, map_eq_self_iff.mpr fun v hv => ?_⟩
  exact Verdict.allTypes_below_iff.mp (hverdicts v hv) π hπ

/-- **A statement that declares nothing does not interfere with the others.**  Whether it is
accepted or refused, as long as its check ends, the verdicts on the statements before it are the
same with it as without it, and those on the statements after it are the same up to an injective
renaming of variables: the same ones are refused, at the same tokens. -/
theorem check_insert (before after : List Stmt) {statement : Stmt}
    (hnone : statement.declared? = none)
    (hends : ∀ c verdicts, start.check before = some (c, verdicts) →
      c.checkStatement statement ≠ none) :
    ∃ r : Nat → Nat, r.Injective ∧
      (start.check (before ++ statement :: after)).map (·.2.eraseIdx before.length)
        = (start.check (before ++ after)).map (·.2.map (Verdict.rename r)) ∧
      ∀ c verdicts, start.check before = some (c, verdicts) →
        verdicts.map (Verdict.rename r) = verdicts := by
  rw [check_append, check_append]
  cases hbefore : start.check before with
  | none => exact ⟨id, Function.injective_id, rfl, by simp⟩
  | some result =>
    obtain ⟨c, verdicts⟩ := result
    obtain ⟨⟨c', verdict⟩, hstatement⟩ := Option.ne_none_iff_exists'.mp (hends c verdicts hbefore)
    obtain ⟨global, hc, -⟩ := gains_check stands_start hbefore
    have hscopes : c'.scopes = c.scopes := scopes_checkStatement_of_none hc hstatement hnone
    have hnext : c.nextVar ≤ c'.nextVar :=
      (c.nextVar_le_reachOf statement).trans (nextVar_eq_reachOf hstatement).ge
    -- The statement takes as many variables as the later ones are moved by.
    obtain ⟨π, hkeeps, hshifts⟩ :=
      exists_shifts (nextVar_le_reach after c) (c'.nextVar - c.nextVar)
    obtain ⟨hc₀, hverdicts⟩ := rename_of_check hbefore hkeeps
    have hmoved : c.rename π (c'.nextVar - c.nextVar) = c' := by
      have hkept : c.scopes.map (Scope.rename π) = c.scopes := congrArg scopes hc₀
      rw [rename, hkept, ← hscopes, Nat.add_sub_cancel' hnext]
    have hafter := check_rename after c hshifts
    rw [hmoved] at hafter
    refine ⟨π, π.injective, ?_, fun c₁ verdicts₁ h => ?_⟩
    · rw [Option.bind_some, Option.bind_some, check_cons, hstatement, Option.bind_some, hafter,
        ← length_check hbefore]
      cases c.check after with
      | none => rfl
      | some result => simp [List.eraseIdx_append_of_length_le, hverdicts]
    · cases h
      exact hverdicts

/-- An empty list is printed between two declarations, of which the second one adds a list to a
number. -/
def literalBetween : String := "var a : []\nprint([])\nvar b : append([a], []) + 1\n"

/-- What is told about a program. -/
def messages (program : List Stmt) : Option (List String) :=
  (start.check program).map fun result => (Verdict.diagnostics result.2).map (·.message)

/-- Without the list printed, the one that cannot be added has a variable of another number. -/
theorem check_insert_literalBetween : ∃ first second later,
    (Parsed.ofTokens (Token.scan literalBetween.toList).tokens).program?
        = some (first :: second :: later) ∧
      second.declared? = none ∧
      (∃ r : Nat → Nat, r.Injective ∧ (start.check (first :: second :: later)).map (·.2.eraseIdx 1)
          = (start.check (first :: later)).map (·.2.map (Verdict.rename r))) ∧
      messages (first :: second :: later)
        = some ["operator '+' expects Number operands, found [[t8]] (at '+')"] ∧
      messages (first :: later)
        = some ["operator '+' expects Number operands, found [[t7]] (at '+')"] := by
  have hrun : ((Parsed.ofTokens (Token.scan literalBetween.toList).tokens).program?).any fun p =>
      (p[1]?).any (fun second => second.declared?.isNone &&
        (start.check (p.take 1)).all fun result => (result.1.checkStatement second).isSome) &&
      decide ([messages p, messages (p.eraseIdx 1)]
        = [some ["operator '+' expects Number operands, found [[t8]] (at '+')"],
          some ["operator '+' expects Number operands, found [[t7]] (at '+')"]]) := by
    decide +kernel
  obtain ⟨program, hprogram, hrun⟩ := (Option.any_eq_true _ _).mp hrun
  obtain ⟨hsecond, hmessages⟩ := Bool.and_eq_true_iff.mp hrun
  obtain ⟨second, hget, hsecond⟩ := (Option.any_eq_true _ _).mp hsecond
  obtain ⟨hnone, hends⟩ := Bool.and_eq_true_iff.mp hsecond
  rcases program with _ | ⟨first, _ | ⟨other, later⟩⟩
  · cases hget
  · cases hget
  · obtain rfl : other = second := Option.some.inj hget
    have hdeclared := Option.isNone_iff_eq_none.mp hnone
    obtain ⟨hwith, hwithout⟩ :
        messages (first :: other :: later) = _ ∧ messages (first :: later) = _ := by
      simpa using of_decide_eq_true hmessages
    obtain ⟨r, hr, hsame, -⟩ := check_insert [first] later hdeclared fun c verdicts hc => by
      change (start.check [first]).all _ = true at hends
      rw [hc] at hends
      exact Option.isSome_iff_ne_none.mp hends
    exact ⟨first, other, later, hprogram, hdeclared, ⟨r, hr, hsame⟩, hwith, hwithout⟩

end Offside.Checker
