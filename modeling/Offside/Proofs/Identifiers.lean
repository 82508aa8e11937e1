import Offside.Proofs.Indentation
import Offside.Proofs.Spelling

/-!
# Proofs/Identifiers — the names of programs as names in JavaScript

Whatever name stands in a program that is read from a text, be it of a binding, a field or a type,
is spelled as names are (`spelled_of_isProgramName`): also what is left of it behind a leading
keyword, and the name of an optional type without its question mark.  So no two of them become one
name in JavaScript, and none becomes a name that is taken.
-/

namespace Offside

open List

namespace Token

/-! ## Parts of names -/

/-- A question mark is the last character of a name. -/
theorem Spelled.question_notMem {last} : ∀ {name}, Spelled (name ++ [last]) → '?' ∉ name
  | [], _ => not_mem_nil
  | c :: name, h => by
    have hc : isWordChar c = true ∨ c = ' ' := by
      cases name <;> exact h.1
    rw [mem_cons, not_or]
    refine ⟨?_, question_notMem h.tail⟩
    rintro rfl
    rcases hc with hc | hc
    · rw [not_isWordChar.2.2.1] at hc
      cases hc
    · cases hc

/-- A name without the question mark at its end. -/
def bareName (name : List Char) : List Char :=
  if name.getLast? = some '?' then name.dropLast else name

/-- A name that is spelled as names are, also without its question mark. -/
structure FullySpelled (name : List Char) : Prop where
  whole : Spelled name
  bare : Spelled (bareName name)

theorem FullySpelled.of_append {first later} (h : FullySpelled (first ++ later)) :
    FullySpelled later := by
  refine ⟨h.whole.of_append first, ?_⟩
  by_cases hnil : later = []
  · subst hnil
    trivial
  · have hbare := h.bare
    unfold bareName at hbare ⊢
    rw [getLast?_append_of_ne_nil _ hnil] at hbare
    split at hbare
    · next hlast =>
      rw [if_pos hlast]
      rw [dropLast_append_of_ne_nil hnil] at hbare
      exact hbare.of_append first
    · next hlast =>
      rw [if_neg hlast]
      exact hbare.of_append first

/-- **A name that is cut off a text is spelled as names are**, also without its question mark. -/
theorem fullySpelled_of_cut {c text lexeme literal}
    (h : (cut c text).piece = .token .identifier lexeme literal) : FullySpelled lexeme := by
  refine ⟨spelled_of_cut h, ?_⟩
  obtain ⟨words, mark, hmark, rfl⟩ := exists_joinedWords_of_cut h
  have hplain := spelled_joinedWords (.inl rfl) words
  have hmarked := spelled_joinedWords (.inr rfl) words
  rw [append_nil] at hplain
  rw [map_append] at hmarked ⊢
  rcases hmark with rfl | rfl
  · rw [map_nil, append_nil, bareName, if_neg]
    · exact hplain
    · exact fun hlast => hmarked.question_notMem (mem_of_getLast? hlast)
  · have hquestion : plainJoiner '?' = '?' := rfl
    rw [map_singleton, hquestion, bareName, if_pos getLast?_concat, dropLast_concat]
    exact hplain

theorem fullySpelled_of_mem_scan (text : List Char) :
    ∀ t ∈ (scan text).tokens, t.kind = .identifier → FullySpelled t.lexeme.toList :=
  forall_lexeme_of_mem_scan (by decide) fullySpelled_of_cut text

@[simp] theorem kind_unquestioned (t : Token) : t.unquestioned.kind = t.kind := by
  unfold unquestioned
  split <;> rfl

theorem toList_unquestioned (t : Token) :
    t.unquestioned.lexeme.toList = bareName t.lexeme.toList := by
  unfold unquestioned bareName
  split
  · exact String.toList_ofList
  · rfl

end Token

/-! ## Names in trees -/

theorem Respelled.fullySpelled {tokens words} (h : Respelled tokens words)
    (htokens : ∀ t ∈ tokens, t.kind = .identifier → Token.FullySpelled t.lexeme.toList) :
    ∀ w ∈ words, w.token.kind = .identifier → Token.FullySpelled w.token.lexeme.toList := by
  refine h.forall_names (fun first joiner later _ hname => ?_) htokens
  rw [append_cons] at hname
  exact hname.of_append

theorem Word.spelled_of_leaf? {w : Word} {t : Token} (hleaf : w.leaf? = some t)
    (hw : w.token.kind = .identifier → Token.FullySpelled w.token.lexeme.toList)
    (ht : t.kind = .identifier) : Token.Spelled t.lexeme.toList := by
  unfold Word.leaf? at hleaf
  split at hleaf
  · cases hleaf
    split at ht
    · next hrole =>
      rw [if_pos hrole, Token.toList_unquestioned]
      exact (hw (w.token.kind_unquestioned ▸ ht)).bare
    · next hrole =>
      rw [if_neg hrole]
      exact (hw ht).whole
  · cases hleaf

/-- **A name of a program that is read from a text**, wherever it stands in it. -/
def IsProgramName (name : String) : Prop :=
  ∃ text program, (Parsed.ofTokens (Token.scan text).tokens).program? = some program ∧
    ∃ t ∈ leavesOf (layoutBody program), t.kind = .identifier ∧ t.lexeme = name

theorem spelled_of_isProgramName {name} (h : IsProgramName name) : Token.Spelled name.toList := by
  obtain ⟨text, program, hprogram, t, ht, hkind, rfl⟩ := h
  obtain ⟨body, final, words, hscan, -, hrespelled, hderives, -⟩ :=
    exists_words_of_program? hprogram
  rw [leaves_of_derivesProgram hderives] at ht
  obtain ⟨w, hw, hleaf⟩ := mem_filterMap.mp ht
  have hbody : ∀ t ∈ body, t.kind = .identifier → Token.FullySpelled t.lexeme.toList := by
    intro t ht
    refine Token.fullySpelled_of_mem_scan text t ?_
    rw [hscan]
    exact mem_append_left _ ht
  exact Word.spelled_of_leaf? hleaf (hrespelled.fullySpelled hbody w hw) hkind

/-! ## Names in JavaScript -/

namespace Script

/-- What takes the place of a name is no word of the language, and no global of the module. -/
theorem bindingName_notMem (name : String) :
    bindingName name ∉ reservedWords ∧ bindingName name ∉ usedGlobals := by
  have hplain : ∀ word ∈ reservedWords ++ usedGlobals, '$' ∉ word.toList := by decide
  unfold bindingName
  dsimp only
  split
  · have hdollar : '$' ∈ ("$$" ++ memberName name).toList := by
      rw [String.toList_append]
      exact mem_append_left _ (by decide)
    exact ⟨fun h => hplain _ (mem_append_left _ h) hdollar,
      fun h => hplain _ (mem_append_right _ h) hdollar⟩
  · next h =>
    simpa [not_or] using h

/-- A dollar sign at its beginning, if there is one, is followed by another. -/
theorem bindingName_ne_dollar {name} (hname : Token.Spelled name.toList) {c} (hc : c ≠ '$')
    (later : List Char) : (bindingName name).toList ≠ '$' :: c :: later := by
  intro h
  unfold bindingName at h
  dsimp only at h
  split at h
  · rw [String.toList_append] at h
    cases h
    exact hc rfl
  · rw [memberName, String.toList_ofList] at h
    exact dollar_not_mem hname (h ▸ mem_cons_self)

end Script

open Script

/-- **No two names of programs become one name in JavaScript**, neither as bindings nor as
properties, and no binding has a name that is taken: by the language, by the runtime, by the
variable that objects are built in, or by the constant of a number. -/
theorem bindingName_collision_free {a b : String} (ha : IsProgramName a) (hb : IsProgramName b) :
    (bindingName a = bindingName b ↔ a = b) ∧ (memberName a = memberName b ↔ a = b) ∧
      bindingName a ∉ reservedWords ∧ bindingName a ∉ usedGlobals ∧
      bindingName a ≠ "$rt" ∧ bindingName a ≠ "$r" ∧
      ∀ digits, bindingName a ≠ constantName digits := by
  have hspelled := spelled_of_isProgramName ha
  have hother := spelled_of_isProgramName hb
  obtain ⟨hreserved, hglobal⟩ := bindingName_notMem a
  refine ⟨⟨bindingName_inj hspelled hother, congrArg _⟩,
    ⟨memberName_inj hspelled hother, congrArg _⟩, hreserved, hglobal, ?_, ?_, ?_⟩
  · intro h
    exact bindingName_ne_dollar hspelled (by decide) ['t'] (congrArg String.toList h)
  · intro h
    exact bindingName_ne_dollar hspelled (by decide) [] (congrArg String.toList h)
  · intro digits h
    refine bindingName_ne_dollar hspelled (c := 'n') (by decide) (digits.toList.map numberChar) ?_
    simp [h]

/-- Names that differ by a question mark, joined to keywords and not, and a word of JavaScript. -/
def namingSource : String := "var class : fn (do it, do it?): do it?\nlet class.do it? : true\n"

theorem namingSource_collision_free :
    IsProgramName "class" ∧ IsProgramName "do it?" ∧
      (bindingName "class" = bindingName "do it?" ↔ "class" = "do it?") ∧
      (memberName "class" = memberName "do it?" ↔ "class" = "do it?") ∧
      bindingName "class" ∉ reservedWords ∧ bindingName "class" ∉ usedGlobals ∧
      bindingName "class" ≠ "$rt" ∧ bindingName "class" ≠ "$r" ∧
      ∀ digits, bindingName "class" ≠ constantName digits := by
  have hnames : ∀ name ∈ ["class", "do it?"], IsProgramName name := by
    have hrun : (Parsed.ofTokens (Token.scan namingSource.toList).tokens).program?.any
        fun program => ["class", "do it?"].all fun name =>
          (leavesOf (layoutBody program)).any fun t =>
            t.kind = .identifier ∧ t.lexeme = name := by
      decide +kernel
    obtain ⟨program, hprogram, hall⟩ := (Option.any_eq_true _ _).mp hrun
    intro name hname
    obtain ⟨t, ht, hfound⟩ := any_eq_true.mp (all_eq_true.mp hall name hname)
    exact ⟨_, program, hprogram, t, ht, of_decide_eq_true hfound⟩
  have hclass := hnames "class" (by decide)
  have hdo := hnames "do it?" (by decide)
  exact ⟨hclass, hdo, bindingName_collision_free hclass hdo⟩

end Offside
