import Offside.Proofs.Numbers

/-!
# Proofs/Constants — the numbers of a module as constants

Every number of a program is defined once at the top of its module, under a name that tells the
number (`constantName_inj`).
-/

namespace Offside.Script

open List
open Token (IsNumber)
open Token.Cut (isNumberChar)

/-! ## Names of numbers -/

/-- The character of a number that a character of its constant stands for. -/
def numberOfChar : Char → Char
  | '_' => '.'
  | 'm' => '-'
  | 'p' => '+'
  | c => c

theorem numberOfChar_numberChar {c} (h : isNumberChar c = true) :
    numberOfChar (numberChar c) = c := by
  unfold numberChar
  split
  · rfl
  · rfl
  · rfl
  · unfold numberOfChar
    -- No number has one of the three characters that take the place of others.
    split
    · exact absurd h (by decide)
    · exact absurd h (by decide)
    · exact absurd h (by decide)
    · rfl

/-- **A number can be read back from the name of its constant.** -/
theorem constantName_inj {a b} (ha : IsNumber a) (hb : IsNumber b)
    (h : constantName a = constantName b) : a = b := by
  have hread : ∀ {digits : String}, IsNumber digits →
      (digits.toList.map numberChar).map numberOfChar = digits.toList := by
    intro digits hdigits
    rw [map_map]
    exact (map_congr_left fun c hc => numberOfChar_numberChar (hdigits c hc)).trans (map_id _)
  have hchars := String.ofList_injective ((String.append_right_inj _).mp h)
  rw [← String.toList_inj, ← hread ha, ← hread hb, hchars]

/-- No character of a number is escaped. -/
theorem escape_of_isNumberChar {c} (h : isNumberChar c = true) : Text.Quoted.escape c = [c] := by
  have hne : ∀ d : Char, isNumberChar d = false → (c == d) = false := by
    intro d hd
    refine beq_eq_false_iff_ne.mpr ?_
    rintro rfl
    rw [hd] at h
    cases h
  have hvisible : ¬ c.toNat < 32 := by
    rcases Bool.or_eq_true_iff.mp h with hdigit | hother
    · simp only [Char.isDigit, Bool.and_eq_true, decide_eq_true_eq, ge_iff_le,
        UInt32.le_iff_toNat_le] at hdigit
      exact Nat.not_lt.mpr (le_trans (by decide) hdigit.1)
    · have hall : ['.', 'e', 'E', '+', '-'].all (32 ≤ ·.toNat) = true := by decide
      have hle := all_eq_true.mp hall c (contains_iff_mem.mp hother)
      exact Nat.not_lt.mpr (of_decide_eq_true hle)
  simp [Text.Quoted.escape, hne, hvisible, isNumberChar]

theorem quote_of_isNumber {digits} (h : IsNumber digits) :
    Text.quote digits = "\"" ++ digits ++ "\"" := by
  rw [← String.toList_inj, Text.quote, Text.Quoted.encode, String.toList_ofList,
    flatMap_congr fun c hc => escape_of_isNumberChar (h c hc), flatMap_singleton',
    String.toList_append, String.toList_append]
  rfl

theorem constantLine_of_isNumber {digits} (h : IsNumber digits) : constantLine digits
      = "const " ++ constantName digits ++ " = $rt.num(\"" ++ digits ++ "\");\n" := by
  have hopening : " = $rt.num(\"" = " = $rt.num(" ++ "\"" := by decide +kernel
  have hclosing : "\");\n" = "\"" ++ ");\n" := by decide +kernel
  rw [constantLine, quote_of_isNumber h, hopening, hclosing]
  simp only [String.append_assoc]

/-! ## The numbers that are defined -/

/-- No name is defined twice. -/
theorem nodup_distinctNumbers : ∀ (numbers seen : List String),
    ((distinctNumbers seen numbers).map constantName).Nodup ∧
      ∀ name ∈ (distinctNumbers seen numbers).map constantName, name ∉ seen
  | [], _ => ⟨.nil, fun _ h => by cases h⟩
  | digits :: later, seen => by
    unfold distinctNumbers
    split
    · exact nodup_distinctNumbers later seen
    · next hseen =>
      obtain ⟨hnodup, hnew⟩ := nodup_distinctNumbers later (constantName digits :: seen)
      rw [map_cons]
      refine ⟨nodup_cons.mpr ⟨fun h => hnew _ h mem_cons_self, hnodup⟩, ?_⟩
      intro name hname
      rcases mem_cons.mp hname with rfl | hname
      · simpa using hseen
      · exact fun h => hnew name hname (mem_cons_of_mem _ h)

/-- Where names tell the numbers, every number is defined that was not before. -/
theorem distinctNumbers_eq : ∀ (numbers seen : List String),
    (∀ digits ∈ numbers, IsNumber digits) → (∀ digits ∈ seen, IsNumber digits) →
    distinctNumbers (seen.map constantName) numbers
      = (numbers.filter fun digits => !seen.contains digits).eraseDups
  | [], _, _, _ => rfl
  | digits :: later, seen, hnumbers, hseen => by
    obtain ⟨hdigits, hlater⟩ := forall_mem_cons.mp hnumbers
    have hcontains : (seen.map constantName).contains (constantName digits)
        = seen.contains digits := by
      rw [Bool.eq_iff_iff, contains_iff_mem, contains_iff_mem, mem_map]
      refine ⟨?_, fun h => ⟨digits, h, rfl⟩⟩
      rintro ⟨earlier, hearlier, hname⟩
      rwa [← constantName_inj (hseen earlier hearlier) hdigits hname]
    rw [distinctNumbers, hcontains, filter_cons]
    cases h : seen.contains digits with
    | true =>
      rw [if_pos rfl, if_neg (by decide)]
      exact distinctNumbers_eq later seen hlater hseen
    | false =>
      have ih := distinctNumbers_eq later (digits :: seen) hlater
        (forall_mem_cons.mpr ⟨hdigits, hseen⟩)
      rw [map_cons] at ih
      rw [if_neg (by decide), if_pos (by decide), ih, eraseDups_cons, filter_filter]
      refine congrArg (digits :: ·) (congrArg eraseDups (congrArg (later.filter ·) ?_))
      funext other
      rw [contains_cons, Bool.not_or]

theorem render_eq (script : Script) :
    script.render = "import * as $rt from " ++ Text.quote script.runtime ++ ";\n" ++
      "".intercalate (script.constants.map constantLine) ++ renderBody 0 script.body :=
  rfl

@[simp] theorem toList_pushn (c : Char) : ∀ (n : Nat) (text : String),
    (text.pushn c n).toList = text.toList ++ replicate n c
  | 0, text => (append_nil _).symm
  | n + 1, text => by
    have hlast : text.pushn c (n + 1) = (text.pushn c n).push c := rfl
    rw [hlast, String.toList_push, toList_pushn c n, append_assoc, ← replicate_succ']

end Offside.Script
