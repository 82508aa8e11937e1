import Offside.Proofs.Nesting

/-!
# Proofs/Citations — the numbers of a module where they are used

The statements of a module cite the names of its constants as whole words, in the order of the
numbers (`Cites`).
-/

namespace Offside.Script

open List

/-! ## The numbers that are cited -/

/-- A character of a name in JavaScript. -/
def isIdentifierChar (c : Char) : Bool := Token.isWordChar c || c == '_' || c == '$'

/-- **A text that names the constants of numbers in order**, each as a whole word. -/
inductive Cites : List String → String → Prop
  | none (text : String) : Cites [] text
  | constant {digits before after later}
    (hbefore : ∀ c ∈ before.toList.getLast?, isIdentifierChar c = false)
    (hafter : ∀ c ∈ after.toList.head?, isIdentifierChar c = false) (h : Cites later after) :
    Cites (digits :: later) (before ++ constantName digits ++ after)

/-- What may stand behind a name: a text that does not go on with it. -/
structure Follows (numbers : List String) (text : String) : Prop where
  apart : ∀ c ∈ text.toList.head?, isIdentifierChar c = false
  cites : Cites numbers text

theorem isIdentifierChar_of_mem_delimiters : ∀ c ∈ delimiters, isIdentifierChar c = false := by
  have hall : delimiters.all (!isIdentifierChar ·) = true := by decide +kernel
  intro c hc
  exact Bool.not_eq_true' _ |>.mp (all_eq_true.mp hall c hc)

section

variable {numbers : List String} {text : String}

/-- A number in front. -/
theorem Follows.constant (digits : String) (h : Follows numbers text) :
    Cites (digits :: numbers) (constantName digits ++ text) := by
  rw [← String.empty_append (s := constantName digits)]
  exact .constant (fun c hc => by cases hc) h.apart h.cites

/-- What stands apart at its end does so behind any text that does, or behind any at all if it is
not empty. -/
theorem apart_append {lead before : String}
    (hlead : before.toList = [] → ∀ c ∈ lead.toList.getLast?, isIdentifierChar c = false)
    (hbefore : ∀ c ∈ before.toList.getLast?, isIdentifierChar c = false) :
    ∀ c ∈ (lead ++ before).toList.getLast?, isIdentifierChar c = false := by
  intro c hc
  rw [String.toList_append, getLast?_append] at hc
  cases hlast : before.toList.getLast? with
  | none =>
    rw [hlast] at hc
    exact hlead (getLast?_eq_none_iff.mp hlast) c hc
  | some d =>
    rw [hlast] at hc
    exact hbefore c (hlast ▸ hc)

/-- Text in front that ends in a delimiter. -/
theorem Cites.behind (h : Cites numbers text) (lead : String)
    (hlead : endsApart lead = true) : Cites numbers (lead ++ text) := by
  cases h with
  | none => exact .none _
  | constant hbefore hafter h =>
    rw [← String.append_assoc, ← String.append_assoc]
    refine .constant (apart_append (fun _ c hc => ?_) hbefore) hafter h
    have hdelimiter := Option.all_eq_true _ _ |>.mp hlead c hc
    exact isIdentifierChar_of_mem_delimiters c (contains_iff_mem.mp hdelimiter)

/-- A whole word in front. -/
theorem Follows.word (word : String) (h : Follows numbers text) : Cites numbers (word ++ text) := by
  obtain ⟨hapart, hcites⟩ := h
  cases hcites with
  | none => exact .none _
  | constant hbefore hafter h =>
    rw [← String.append_assoc, ← String.append_assoc]
    refine .constant (apart_append (fun hnil => ?_) hbefore) hafter h
    -- The text would begin with a constant, and a name goes on with that.
    have hdollar := hapart '$' (by
      rw [String.toList_append, String.toList_append, hnil, toList_constantName]
      rfl)
    exact absurd hdollar (by decide +kernel)

/-- A mark in front. -/
theorem Cites.mark (h : Cites numbers text) (mark : String)
    (hmark : isMark mark = true) : Follows numbers (mark ++ text) := by
  obtain ⟨hfirst, hlast⟩ := Bool.and_eq_true_iff.mp hmark
  refine ⟨fun d hd => ?_, h.behind mark hlast⟩
  obtain ⟨c, hc, hdelimiter⟩ := Option.any_eq_true _ _ |>.mp hfirst
  rw [String.toList_append, head?_append, hc] at hd
  cases hd
  exact isIdentifierChar_of_mem_delimiters _ (contains_iff_mem.mp hdelimiter)

/-- **The numbers of a text of some shape are cited in it**, in front of the numbers of any other
text that may stand behind it. -/
theorem Shape.cites {ends opened opened'} (h : Shape ends numbers text opened opened') :
    ∀ {rest later},
      (if ends then Cites rest later else Follows rest later) →
        Cites (numbers ++ rest) (text ++ later) := by
  induction h with
  | word => exact fun hlater => hlater.word _
  | constant => exact fun hlater => hlater.constant _
  | space _ hends => exact fun hlater => Cites.behind hlater _ hends
  | of_apart _ ih => exact fun hlater => ih hlater.cites
  | append _ _ ih ih' =>
    intro rest later hlater
    rw [append_assoc, String.append_assoc]
    exact ih (ih' hlater)
  | before _ hmark _ ih =>
    intro rest later hlater
    rw [String.append_assoc]
    exact ih (Cites.mark hlater _ hmark)

end

end Offside.Script

namespace Offside

open Script (constantName renderBody Cites)

/-- **The numbers of a program are defined at the top of its module**, each once and in the order of
their first tokens, under names that tell them apart; and the statements below cite, for token after
token, the name that is defined with its text. -/
theorem constants_of_program? {text : List Char} {program : List Stmt} (runtime : String)
    (h : (Parsed.ofTokens (Token.scan text).tokens).program? = some program) :
    let numbers := Token.numbersAmong (Token.scan text).tokens
    let script := Script.ofProgram runtime program
    script.render = "import * as $rt from " ++ Text.quote runtime ++ ";\n" ++
        "".intercalate (numbers.eraseDups.map fun digits =>
          "const " ++ constantName digits ++ " = $rt.num(\"" ++ digits ++ "\");\n") ++
        renderBody 0 script.body ∧
      (numbers.eraseDups.map constantName).Nodup ∧
      (∀ a ∈ numbers, ∀ b ∈ numbers, constantName a = constantName b → a = b) ∧
      numbersBody program = numbers ∧ Script.numbersOfBody script.body = numbers ∧
      Cites numbers (renderBody 0 script.body) := by
  intro numbers script
  have hnumbers : ∀ digits ∈ numbers, Token.IsNumber digits :=
    Token.isNumber_of_mem_numbersAmong text
  have htree : numbersBody program = numbers := numbers_of_program? h
  have hcode : Script.numbersOfBody script.body = numbers :=
    (numbers_generate.body program []).trans htree
  have hdistinct : script.constants = numbers.eraseDups := by
    rw [Script.constants, hcode]
    refine (Script.distinctNumbers_eq numbers [] hnumbers (by simp)).trans ?_
    exact congrArg List.eraseDups (List.filter_eq_self.mpr fun _ _ => rfl)
  have hlines : script.constants.map Script.constantLine = numbers.eraseDups.map fun digits =>
      "const " ++ constantName digits ++ " = $rt.num(\"" ++ digits ++ "\");\n" := by
    rw [hdistinct]
    refine List.map_congr_left fun digits hdigits => ?_
    exact Script.constantLine_of_isNumber (hnumbers digits (List.mem_eraseDups.mp hdigits))
  have htext := script.render_eq
  rw [hlines] at htext
  refine ⟨htext, ?_, ?_, htree, hcode, ?_⟩
  · rw [← hdistinct]
    exact (Script.nodup_distinctNumbers _ []).1
  · intro a ha b hb
    exact Script.constantName_inj (hnumbers a ha) (hnumbers b hb)
  · have hwords := words_generate.body program [] (wellSpelled_of_program? h)
    have hcites := (@Script.shape_lines 0 [] script.body hwords).cites (Cites.none "")
    rwa [hcode, List.append_nil, String.append_empty] at hcites

/-- Numbers that differ by a sign or a point only, some of them twice, within a function, a record
and a list. -/
def numericSource : String :=
  "var f : fn (x): x + 1e5\nvar r : \x7ba: 1e+5, b: 15\x7d\nmut z : [1.5, 1e-5]\n" ++
    "if f(15) > 1e5\n  let z[1] : 1.5\n"

theorem constants_numericSource : ∃ program,
    (Parsed.ofTokens (Token.scan numericSource.toList).tokens).program? = some program ∧
      (Script.ofProgram "runtime" program).render
        = "import * as $rt from \"runtime\";\nconst $n1e5 = $rt.num(\"1e5\");\n" ++
          "const $n1ep5 = $rt.num(\"1e+5\");\nconst $n15 = $rt.num(\"15\");\n" ++
          "const $n1_5 = $rt.num(\"1.5\");\nconst $n1em5 = $rt.num(\"1e-5\");\n" ++
          "const $n1 = $rt.num(\"1\");\n" ++
          renderBody 0 (Script.ofProgram "runtime" program).body ∧
      Cites ["1e5", "1e+5", "15", "1.5", "1e-5", "15", "1e5", "1", "1.5"]
        (renderBody 0 (Script.ofProgram "runtime" program).body) := by
  have hparses : (Parsed.ofTokens (Token.scan numericSource.toList).tokens).program?.isSome := by
    decide +kernel
  obtain ⟨program, hprogram⟩ := Option.isSome_iff_exists.mp hparses
  have hnumbers : Token.numbersAmong (Token.scan numericSource.toList).tokens
      = ["1e5", "1e+5", "15", "1.5", "1e-5", "15", "1e5", "1", "1.5"] := by
    decide +kernel
  obtain ⟨htext, -, -, -, -, hcites⟩ := constants_of_program? "runtime" hprogram
  rw [hnumbers] at htext hcites
  refine ⟨program, hprogram, htext.trans (congrArg (· ++ _) ?_), hcites⟩
  decide +kernel

end Offside
