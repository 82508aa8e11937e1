import Offside.Proofs.Naturality
import Offside.Syntax.Program
import Offside.Token.Scan

/-!
# Proofs/Joining — what the branches of a conditional expression join to

Branches that agree join to the more telling one of them, and nil and a type that is no option to an
option of that type (`Joins`).  What they join to accepts both, as long as it accepts itself.  But
nil does not join with an option, nor a type with an option of it, although the option would accept
both (`check_ternary_iff`).
-/

namespace Offside

open Checker

namespace Check

/-- Branches, and what they join to. -/
inductive Joins : Ty → Ty → Ty → Prop
  | agree {A B} (hnil : A.isNil = B.isNil) (h : A.compatible B = true) : Joins A B (prefer A B)
  | nilLeft {B} (hnil : B.isNil = false) (hmaybe : B.isMaybe = false) : Joins .nil B (.maybe B)
  | nilRight {A} (hnil : A.isNil = false) (hmaybe : A.isMaybe = false) : Joins A .nil (.maybe A)

variable {A B C : Ty}

@[simp] theorem isNil_nil : Ty.nil.isNil = true := rfl

theorem eq_nil_of_isNil (h : A.isNil = true) : A = .nil := by
  cases A with
  | nil => rfl
  | _ => cases h

theorem join?_eq_some_iff : join? A B = some C ↔ Joins A B C := by
  rw [join?_eq]
  constructor
  · intro h
    cases hA : A.isNil <;> cases hB : B.isNil <;>
      simp only [hA, hB, Bool.false_eq_true, if_true, if_false, Option.ite_none_right_eq_some,
        Option.ite_none_left_eq_some, Option.some.injEq, Bool.not_eq_true] at h
    · obtain ⟨hagree, rfl⟩ := h
      exact .agree (hA.trans hB.symm) hagree
    · obtain ⟨hmaybe, rfl⟩ := h
      obtain rfl := eq_nil_of_isNil hB
      exact .nilRight hA hmaybe
    · obtain ⟨hmaybe, rfl⟩ := h
      obtain rfl := eq_nil_of_isNil hA
      exact .nilLeft hB hmaybe
    · obtain rfl := eq_nil_of_isNil hA
      obtain rfl := eq_nil_of_isNil hB
      exact h ▸ .agree rfl rfl
  · rintro (⟨hnil, hagree⟩ | ⟨hnil, hmaybe⟩ | ⟨hnil, hmaybe⟩)
    · cases hB : B.isNil with
      | false => simp [hnil, hB, hagree]
      | true =>
        obtain rfl := eq_nil_of_isNil hB
        obtain rfl := eq_nil_of_isNil hnil
        rfl
    · simp [hnil, hmaybe]
    · simp [hnil, hmaybe]

/-- **Which branches join**: those that agree, and nil with what is no option. -/
theorem exists_joins_iff : (∃ C, Joins A B C) ↔ A.compatible B = true ∨
    A.isNil ≠ B.isNil ∧ A.isMaybe = false ∧ B.isMaybe = false := by
  constructor
  · rintro ⟨_, ⟨-, hagree⟩ | ⟨hnil, hmaybe⟩ | ⟨hnil, hmaybe⟩⟩
    · exact .inl hagree
    · exact .inr ⟨by simp [hnil], rfl, hmaybe⟩
    · exact .inr ⟨by simp [hnil], hmaybe, rfl⟩
  · intro h
    cases hA : A.isNil <;> cases hB : B.isNil
    · exact ⟨_, .agree (hA.trans hB.symm) (h.resolve_right fun hnil => hnil.1 (hA.trans hB.symm))⟩
    · obtain rfl := eq_nil_of_isNil hB
      refine ⟨_, .nilRight hA ?_⟩
      rcases h with hagree | ⟨-, hmaybe, -⟩
      · cases A <;> first | rfl | cases hagree
      · exact hmaybe
    · obtain rfl := eq_nil_of_isNil hA
      refine ⟨_, .nilLeft hB ?_⟩
      rcases h with hagree | ⟨-, -, hmaybe⟩
      · cases B <;> first | rfl | cases hagree
      · exact hmaybe
    · obtain rfl := eq_nil_of_isNil hA
      obtain rfl := eq_nil_of_isNil hB
      exact ⟨_, .agree rfl rfl⟩

/-! ## Joins as upper bounds -/

/-- The more telling one of two branches, as nil tells nothing of the other. -/
def moreInformative (A B : Ty) : Ty := if A.isVar || A.isNil then B else A

/-- An option of a type takes it if the type takes itself. -/
theorem accepts_option_iff (hmaybe : A.isMaybe = false) :
    (Ty.maybe A).accepts A = true ↔ A.accepts A = true := by
  refine ⟨fun h => ?_, Ty.accepts_of_inner⟩
  rcases Ty.accepts_cases h with hagree | ⟨_, ⟨rfl⟩, rfl | hinner⟩
  · cases A with
    | maybe => cases hmaybe
    | var => rfl
    | _ => cases hagree
  · rfl
  · exact hinner

/-- **What branches join to accepts both**, if the more telling one accepts itself. -/
theorem Joins.accepts_iff (h : Joins A B C) : C.accepts A = true ∧ C.accepts B = true ↔
    (moreInformative A B).accepts (moreInformative A B) = true := by
  cases h with
  | agree hnil hagree =>
    unfold moreInformative prefer
    cases hvar : A.isVar with
    | true =>
      exact and_iff_right (Ty.accepts_of_compatible (Ty.compatible_iff.mpr (.inr (.inl hvar))))
    | false =>
      cases hA : A.isNil with
      | false => exact and_iff_left (Ty.accepts_of_compatible hagree)
      | true =>
        obtain rfl := eq_nil_of_isNil hA
        obtain rfl := eq_nil_of_isNil (hnil.symm.trans hA)
        exact iff_of_true ⟨rfl, rfl⟩ rfl
  | nilLeft _ hmaybe => exact (and_iff_right (Ty.accepts_nil B)).trans (accepts_option_iff hmaybe)
  | nilRight hnil hmaybe =>
    rw [and_iff_left (Ty.accepts_nil A), accepts_option_iff hmaybe, moreInformative, hnil,
      Bool.or_false]
    cases A with
    | var => exact iff_of_true rfl rfl
    | _ => rfl

/-- A type accepts itself, if the names in its records differ. -/
theorem accepts_moreInformative (hA : A.Distinct) (hB : B.Distinct) :
    (moreInformative A B).accepts (moreInformative A B) = true := by
  unfold moreInformative
  split
  · exact Ty.accepts_of_compatible (Ty.compatible_self hB)
  · exact Ty.accepts_of_compatible (Ty.compatible_self hA)

/-- Where one branch accepts the other, or one of them is nil, options alone keep them from
joining. -/
theorem joins_of_accepts (hA : B.Distinct)
    (h : A.accepts B = true ∨ B.accepts A = true ∨ A.isNil ≠ B.isNil) :
    (A.compatible B = true ∨ A.isNil ≠ B.isNil ∧ A.isMaybe = false ∧ B.isMaybe = false) ↔
      (A.compatible B = true ∨ A.isMaybe = false ∧ B.isMaybe = false) := by
  refine ⟨.imp_right And.right, fun hjoins => hjoins.elim .inl fun hmaybe => ?_⟩
  rcases h with haccepts | haccepts | hnil
  · rcases Ty.accepts_cases haccepts with hagree | ⟨_, rfl, -⟩
    · exact .inl hagree
    · cases hmaybe.1
  · rcases Ty.accepts_cases haccepts with hagree | ⟨_, rfl, -⟩
    · exact .inl (Ty.compatible_symm hA hagree)
    · cases hmaybe.2
  · exact .inr ⟨hnil, hmaybe⟩

/-! ## Conditional expressions -/

/-- A conditional expression whose parts have types comes to what these join to. -/
theorem check_ternary {question test consequent alternative s s₁ s₂ s₃ T}
    (htest : test.check s = .ok T s₁) (hboolean : T.compatible .boolean = true)
    (hfirst : consequent.check s₁ = .ok A s₂) (hsecond : alternative.check s₂ = .ok B s₃) :
    (Expr.ternary question test consequent alternative).check s = ternary question A B s₃ := by
  have hcondition : condition test.anchor T s₁ = .ok () s₁ := by
    rw [condition, require, if_pos hboolean]
    rfl
  rw [Expr.check] at htest hfirst hsecond ⊢
  rw [Expr.checkBy, bind_ok htest, bind_ok hcondition, bind_ok hfirst, bind_ok hsecond]

end Check

open Check in
/-- **Which conditional expressions have a type that accepts both branches.**  The branches have to
agree, or one is nil and neither an option; and the more telling one has to accept itself, as types
without repeated names do.  So of branches of which one accepts the other, or is nil, those are
refused that do not agree and of which one is an option. -/
theorem check_ternary_iff {question : Token} {test consequent alternative : Expr}
    {s s₁ s₂ s₃ : Check.State} {T A B : Ty} (htest : test.check s = .ok T s₁)
    (hboolean : T.compatible .boolean = true) (hfirst : consequent.check s₁ = .ok A s₂)
    (hsecond : alternative.check s₂ = .ok B s₃) :
    let conditional := Expr.ternary question test consequent alternative
    let accepted := ∃ C, conditional.check s = .ok C s₃ ∧ C.accepts A = true ∧ C.accepts B = true
    let joined := A.compatible B = true ∨ A.isNil ≠ B.isNil ∧ A.isMaybe = false ∧ B.isMaybe = false
    (accepted ↔ joined ∧ (moreInformative A B).accepts (moreInformative A B) = true) ∧
      (¬joined → conditional.check s = .error (.refused ⟨question, .branchesDiffer A B⟩) s₃) ∧
      (A.Distinct → B.Distinct → A.accepts B = true ∨ B.accepts A = true ∨ A.isNil ≠ B.isNil →
        (accepted ↔ A.compatible B = true ∨ A.isMaybe = false ∧ B.isMaybe = false)) := by
  intro conditional accepted joined
  have hcheck : conditional.check s = ternary question A B s₃ :=
    check_ternary htest hboolean hfirst hsecond
  have hiff : accepted ↔ joined ∧ (moreInformative A B).accepts (moreInformative A B) = true := by
    constructor
    · rintro ⟨C, hC, hboth⟩
      rw [hcheck, ternary] at hC
      cases hjoin : join? A B with
      | none =>
        rw [hjoin] at hC
        cases hC
      | some type =>
        rw [hjoin] at hC
        cases hC
        have hjoins := join?_eq_some_iff.mp hjoin
        exact ⟨exists_joins_iff.mp ⟨_, hjoins⟩, hjoins.accepts_iff.mp hboth⟩
    · rintro ⟨hjoined, hself⟩
      obtain ⟨C, hjoins⟩ := exists_joins_iff.mpr hjoined
      refine ⟨C, ?_, hjoins.accepts_iff.mpr hself⟩
      rw [hcheck, ternary, join?_eq_some_iff.mpr hjoins]
      rfl
  refine ⟨hiff, fun hnot => ?_, fun hA hB hbranches => ?_⟩
  · rw [hcheck, ternary]
    cases hjoin : join? A B with
    | none => rfl
    | some type => exact absurd (exists_joins_iff.mp ⟨_, join?_eq_some_iff.mp hjoin⟩) hnot
  · rw [hiff, and_iff_left (accepts_moreInformative hA hB)]
    exact joins_of_accepts hB hbranches

/-- The literals at the end of a chain of two conditions that begins with nil. -/
def chainEnd? : List Stmt → Option (Token.Literal × Token.Literal)
  | [.declare _ _ none (.ternary _ (.literal _ (.boolean _)) (.literal _ .null)
      (.ternary _ (.literal _ (.boolean _)) (.literal _ first) (.literal _ second)))] =>
    some (first, second)
  | _ => none

/-- Nil beside texts, in a chain of conditions. -/
def nilThenTexts : String := "var m : true ? null ! true ? 'a' ! 'b'\n"

theorem check_nilThenTexts : ∃ mutable name question test consequent alternative,
    (Parsed.ofTokens (Token.scan nilThenTexts.toList).tokens).program?
        = some [.declare mutable name none (.ternary question test consequent alternative)] ∧
      test.check ⟨start, []⟩ = .ok .boolean ⟨start, []⟩ ∧
      consequent.check ⟨start, []⟩ = .ok .nil ⟨start, []⟩ ∧
      alternative.check ⟨start, []⟩ = .ok .text ⟨start, []⟩ ∧
      ∃ C, (Expr.ternary question test consequent alternative).check ⟨start, []⟩
          = .ok C ⟨start, []⟩ ∧ C.accepts .nil = true ∧ C.accepts .text = true := by
  have hrun : (Parsed.ofTokens (Token.scan nilThenTexts.toList).tokens).program?.bind chainEnd?
      = some (.text "a", .text "b") := by decide +kernel
  obtain ⟨program, hprogram, hend⟩ := Option.bind_eq_some_iff.mp hrun
  unfold chainEnd? at hend
  split at hend
  · cases hend
    refine ⟨_, _, _, _, _, _, hprogram, rfl, rfl, rfl, ?_⟩
    exact (check_ternary_iff rfl rfl rfl rfl).2.2 (by decide) (by decide) (.inr (.inr (by decide)))
      |>.mpr (.inr ⟨rfl, rfl⟩)
  · cases hend

/-- A chain of conditions that begins with nil and ends with it. -/
def nilAtBothEnds : String := "var m : true ? null ! true ? 1 ! null\n"

/-- Nil beside an optional number is refused. -/
theorem nilAtBothEnds_refused : ∃ mutable name question test consequent alternative,
    (Parsed.ofTokens (Token.scan nilAtBothEnds.toList).tokens).program?
        = some [.declare mutable name none (.ternary question test consequent alternative)] ∧
      test.check ⟨start, []⟩ = .ok .boolean ⟨start, []⟩ ∧
      consequent.check ⟨start, []⟩ = .ok .nil ⟨start, []⟩ ∧
      alternative.check ⟨start, []⟩ = .ok (.maybe .number) ⟨start, []⟩ ∧
      (Ty.maybe .number).accepts .nil = true ∧
      (Expr.ternary question test consequent alternative).check ⟨start, []⟩
        = .error (.refused ⟨question, .branchesDiffer .nil (.maybe .number)⟩) ⟨start, []⟩ := by
  have hrun : (Parsed.ofTokens (Token.scan nilAtBothEnds.toList).tokens).program?.bind chainEnd?
      = some (.number "1", .null) := by decide +kernel
  obtain ⟨program, hprogram, hend⟩ := Option.bind_eq_some_iff.mp hrun
  unfold chainEnd? at hend
  split at hend
  · cases hend
    exact ⟨_, _, _, _, _, _, hprogram, rfl, rfl, rfl, rfl, rfl⟩
  · cases hend

end Offside
