import Offside.Proofs.Records
import Offside.Script.Name

/-!
# Proofs/Spelling — how names are spelled

A name that scanning finds is made of words with single spaces between them and perhaps a question
mark at its end (`Spelled`), and so is what is left of it behind a leading keyword.  Such a name can
be read back from what takes its place in JavaScript (`bindingName_inj`): an underscore at the end
stands for a question mark and any other for a space.
-/

namespace Offside

open List

namespace Token

variable {literal : Option Literal} {c : Char} {text : List Char}

/-! ## Names -/

/-- Words with single spaces between them, and perhaps a question mark at the end. -/
def Spelled : List Char → Prop
  | [] => True
  | [c] => isWordChar c = true ∨ c = '?'
  | c :: d :: later => (isWordChar c = true ∨ c = ' ') ∧ Spelled (d :: later)

theorem Spelled.tail : ∀ {c later}, Spelled (c :: later) → Spelled later
  | _, [], _ => trivial
  | _, _ :: _, h => h.2

theorem Spelled.cons {later} (hc : isWordChar c = true ∨ c = ' ')
    (hlast : later = [] → isWordChar c = true) (h : Spelled later) : Spelled (c :: later) := by
  cases later with
  | nil => exact .inl (hlast rfl)
  | cons d later => exact ⟨hc, h⟩

theorem not_isWordChar : isWordChar ' ' = false ∧ isWordChar '\u00a0' = false ∧
    isWordChar '?' = false ∧ isWordChar '_' = false ∧ isWordChar '$' = false := by
  decide +kernel

/-- A joiner that goes on with a name is followed by a word of it. -/
theorem joinedWords_ne_nil (h : Cut.joins text = true) : Cut.joinedWords text ≠ [] := by
  cases text with
  | nil => exact absurd h (by decide)
  | cons c text =>
    unfold Cut.joins at h
    rw [takeWhile_cons] at h
    unfold Cut.joinedWords
    cases hc : isWordChar c with
    | true => simp
    | false => simp [hc] at h

/-- A joiner is written as a space. -/
def plainJoiner (c : Char) : Char := if c == '\u00a0' then ' ' else c

theorem spelled_joinedWords {mark} (hmark : mark = [] ∨ mark = ['?']) :
    ∀ text : List Char, Spelled ((Cut.joinedWords text ++ mark).map plainJoiner)
  | [] => by
    rcases hmark with rfl | rfl
    · trivial
    · exact .inr rfl
  | c :: text => by
    have ih := spelled_joinedWords hmark text
    unfold Cut.joinedWords
    split
    · next hc =>
      rw [cons_append, map_cons]
      rcases Bool.or_eq_true_iff.mp hc with hword | hjoin
      · have hplain : plainJoiner c = c := by
          refine if_neg fun hn => ?_
          rw [eq_of_beq hn, not_isWordChar.2.1] at hword
          cases hword
        rw [hplain]
        exact .cons (.inl hword) (fun _ => hword) ih
      · obtain ⟨hjoiner, hjoins⟩ := Bool.and_eq_true_iff.mp hjoin
        refine .cons (.inr ?_) (fun hnil => ?_) ih
        · rcases Bool.or_eq_true_iff.mp hjoiner with h | h
          · rw [eq_of_beq h]
            rfl
          · exact if_pos h
        · have hnone := (append_eq_nil_iff.mp (map_eq_nil_iff.mp hnil)).1
          exact absurd hnone (joinedWords_ne_nil hjoins)
    · rcases hmark with rfl | rfl
      · trivial
      · exact .inr rfl

theorem questionMark_cases (text : List Char) :
    Cut.questionMark text = [] ∨ Cut.questionMark text = ['?'] := by
  unfold Cut.questionMark
  split
  · exact .inr rfl
  · exact .inl rfl

theorem symbol?_ne_identifier (c : Char) : Cut.symbol? c ≠ some .identifier := by
  unfold Cut.symbol?
  split <;> simp

theorem pair?_ne_identifier (c d : Char) : Cut.pair? c d ≠ some .identifier := by
  unfold Cut.pair?
  split <;> simp

theorem reserved?_ne_identifier {word} : reserved? word ≠ some (.identifier, literal) := by
  unfold reserved?
  repeat' split
  all_goals simp

/-- A name that is cut off a text is made of joined words, and perhaps a question mark. -/
theorem exists_joinedWords_of_cut {lexeme}
    (h : (cut c text).piece = .token .identifier lexeme literal) : ∃ words mark,
      (mark = [] ∨ mark = ['?']) ∧ lexeme = (Cut.joinedWords words ++ mark).map plainJoiner := by
  cases yields_of_cut h with
  | symbol hsymbol => exact absurd hsymbol (symbol?_ne_identifier _)
  | pair hpair => exact absurd hpair (pair?_ne_identifier _ _)
  | reserved hreserved => exact absurd hreserved reserved?_ne_identifier
  | name => exact ⟨_, _, questionMark_cases _, rfl⟩

/-- **A name that is cut off a text is spelled as names are.** -/
theorem spelled_of_cut {lexeme} (h : (cut c text).piece = .token .identifier lexeme literal) :
    Spelled lexeme := by
  obtain ⟨words, mark, hmark, rfl⟩ := exists_joinedWords_of_cut h
  exact spelled_joinedWords hmark words

/-- **Every name of a scanned text is spelled as names are.** -/
theorem spelled_of_mem_scan (text : List Char) :
    ∀ t ∈ (scan text).tokens, t.kind = .identifier → Spelled t.lexeme.toList :=
  forall_lexeme_of_mem_scan (by decide) spelled_of_cut text

/-- What a name ends with is spelled as names are. -/
theorem Spelled.of_append : ∀ (first : List Char) {later : List Char}, Spelled (first ++ later) →
    Spelled later
  | [], _, h => h
  | _ :: first, _, h => of_append first h.tail

end Token

/-! ## Names in JavaScript -/

namespace Script

open Token (Spelled isWordChar not_isWordChar)

variable {c : Char} {a b : String}

/-- A letter or a numeral stands for itself. -/
theorem nameChar_of_isWordChar (h : isWordChar c = true) : nameChar c = c := by
  refine if_neg fun hc => ?_
  obtain ⟨hspace, hnbsp, hquestion, -, -⟩ := not_isWordChar
  rcases Bool.or_eq_true_iff.mp hc with hc | hc
  · rcases Bool.or_eq_true_iff.mp hc with hc | hc
    · rw [eq_of_beq hc, hspace] at h
      cases h
    · rw [eq_of_beq hc, hnbsp] at h
      cases h
  · rw [eq_of_beq hc, hquestion] at h
    cases h

/-- Of a letter or numeral and one other character, what takes their place tells which it was. -/
theorem nameChar_inj {other d} (hother : nameChar other = '_')
    (hc : isWordChar c = true ∨ c = other) (hd : isWordChar d = true ∨ d = other)
    (h : nameChar c = nameChar d) : c = d := by
  have hunder : ∀ {e : Char}, isWordChar e = true → nameChar e ≠ '_' := by
    intro e he heq
    rw [nameChar_of_isWordChar he] at heq
    rw [heq, not_isWordChar.2.2.2.1] at he
    cases he
  rcases hc with hc | rfl <;> rcases hd with hd | rfl
  · rwa [nameChar_of_isWordChar hc, nameChar_of_isWordChar hd] at h
  · exact absurd (h.trans hother) (hunder hc)
  · exact absurd (h.symm.trans hother) (hunder hd)
  · rfl

/-- **A name can be read back from the property that takes its place.** -/
theorem map_nameChar_inj : ∀ {a b}, Spelled a → Spelled b → a.map nameChar = b.map nameChar → a = b
  | [], b, _, _, h => (map_eq_nil_iff.mp h.symm).symm
  | c :: a, [], _, _, h => by cases h
  | [c], [d], ha, hb, h => by
    rw [nameChar_inj (rfl : nameChar '?' = '_') ha hb (cons.inj h).1]
  | [_], _ :: _ :: _, _, _, h => by cases (cons.inj h).2
  | _ :: _ :: _, [_], _, _, h => by cases (cons.inj h).2
  | c :: c' :: a, d :: d' :: b, ha, hb, h => by
    obtain ⟨hhead, htail⟩ := cons.inj h
    rw [nameChar_inj rfl ha.1 hb.1 hhead, map_nameChar_inj ha.2 hb.2 htail]

theorem memberName_inj (ha : Spelled a.toList) (hb : Spelled b.toList)
    (h : memberName a = memberName b) : a = b :=
  String.toList_inj.mp (map_nameChar_inj ha hb (String.ofList_injective h))

theorem nameChar_ne_dollar (h : isWordChar c = true ∨ c = ' ' ∨ c = '?') : nameChar c ≠ '$' := by
  rcases h with h | rfl | rfl
  · rw [nameChar_of_isWordChar h]
    rintro rfl
    rw [not_isWordChar.2.2.2.2] at h
    cases h
  · decide
  · decide

theorem dollar_not_mem : ∀ {a}, Spelled a → '$' ∉ a.map nameChar
  | [], _ => not_mem_nil
  | [c], h => by
    rw [map_singleton, mem_singleton]
    exact (nameChar_ne_dollar (h.imp_right .inr)).symm
  | c :: d :: later, h => by
    rw [map_cons, mem_cons, not_or]
    exact ⟨(nameChar_ne_dollar (h.1.imp_right .inl)).symm, dollar_not_mem h.2⟩

/-- What takes the place of a name has no dollar sign, so it is no reserved word respelled. -/
theorem memberName_ne_dollars (ha : Spelled a.toList) : memberName a ≠ "$$" ++ b := by
  intro h
  have hlist := congrArg String.toList h
  rw [memberName, String.toList_ofList, String.toList_append] at hlist
  refine dollar_not_mem ha ?_
  rw [hlist]
  exact mem_append_left _ (by decide)

/-- **A name can be read back from the binding that takes its place.** -/
theorem bindingName_inj (ha : Spelled a.toList) (hb : Spelled b.toList)
    (h : bindingName a = bindingName b) : a = b := by
  unfold bindingName at h
  dsimp only at h
  split at h <;> split at h
  · exact memberName_inj ha hb (String.append_right_inj _ |>.mp h)
  · exact absurd h.symm (memberName_ne_dollars hb)
  · exact absurd h (memberName_ne_dollars ha)
  · exact memberName_inj ha hb h

@[simp] theorem toList_constantName (digits : String) :
    (constantName digits).toList = '$' :: 'n' :: digits.toList.map numberChar := by
  rw [constantName, String.toList_append]
  exact congrArg ("$n".toList ++ ·) String.toList_ofList

end Script

end Offside
