import Offside.Proofs.Concatenation
import Offside.Proofs.Quoting

/-!
# Proofs/Rescanning — names and other tokens in a text that is put together

Whether words are a name depends on the words alone (`IsWords`), so a name that was found in one
text is found again in another (`cut_words`), if what stands behind it there cannot go on with it.
A text that is put together of such pieces has the tokens that its pieces have (`Adds`).
-/

namespace Offside.Token

open List
open Cut (joins joinedWords questionMark)

/-! ## Words -/

theorem takeWhile_joinedWords : ∀ text : List Char,
    (joinedWords text).takeWhile isWordChar = text.takeWhile isWordChar
  | [] => rfl
  | c :: text => by
    unfold joinedWords
    cases hc : isWordChar c with
    | true =>
      rw [Bool.true_or, if_pos rfl, takeWhile_cons_of_pos hc, takeWhile_cons_of_pos hc,
        takeWhile_joinedWords text]
    | false =>
      rw [takeWhile_cons_of_neg (by simp [hc])]
      split
      · rw [takeWhile_cons_of_neg (by simp [hc])]
      · rfl

@[simp] theorem joins_joinedWords (text : List Char) : joins (joinedWords text) = joins text := by
  unfold joins
  rw [takeWhile_joinedWords]

/-- Words that are joined are joined by themselves. -/
@[simp] theorem joinedWords_joinedWords : ∀ text : List Char,
    joinedWords (joinedWords text) = joinedWords text
  | [] => rfl
  | c :: text => by
    rw [joinedWords]
    split
    · next hc =>
      rw [joinedWords, joins_joinedWords, if_pos hc, joinedWords_joinedWords text]
    · rfl

variable {c : Char} {literal : Option Literal} {lexeme after text words later : List Char}
  {kind : Kind}

theorem plainJoiner_of_isWordChar (h : isWordChar c = true) : plainJoiner c = c := by
  refine if_neg fun hc => ?_
  rw [eq_of_beq hc, not_isWordChar.2.1] at h
  cases h

@[simp] theorem isWordChar_plainJoiner (c : Char) : isWordChar (plainJoiner c) = isWordChar c := by
  unfold plainJoiner
  split
  · next hc => rw [eq_of_beq hc, not_isWordChar.1, not_isWordChar.2.1]
  · rfl

@[simp] theorem isJoiner_plainJoiner (c : Char) : isJoiner (plainJoiner c) = isJoiner c := by
  unfold plainJoiner
  split
  · next hc => rw [eq_of_beq hc]; rfl
  · rfl

theorem takeWhile_map_plainJoiner : ∀ text : List Char,
    (text.map plainJoiner).takeWhile isWordChar = text.takeWhile isWordChar
  | [] => rfl
  | c :: text => by
    rw [map_cons]
    cases hc : isWordChar c with
    | true =>
      rw [plainJoiner_of_isWordChar hc, takeWhile_cons_of_pos hc,
        takeWhile_cons_of_pos hc, takeWhile_map_plainJoiner text]
    | false =>
      rw [takeWhile_cons_of_neg (by simp [hc]),
        takeWhile_cons_of_neg (by simp [hc])]

/-- Words are joined the same by either joiner. -/
theorem joinedWords_map_plainJoiner : ∀ text : List Char,
    joinedWords (text.map plainJoiner) = (joinedWords text).map plainJoiner
  | [] => rfl
  | c :: text => by
    have hjoins : joins (text.map plainJoiner) = joins text := by
      unfold joins
      rw [takeWhile_map_plainJoiner]
    rw [map_cons, joinedWords, joinedWords, isWordChar_plainJoiner, isJoiner_plainJoiner,
      hjoins, joinedWords_map_plainJoiner text]
    split
    · rw [map_cons]
    · rfl

/-- Words that are a name by themselves, with spaces between them. -/
structure IsWords (words : List Char) : Prop where
  joins : Cut.joins words = true
  whole : joinedWords words = words
  plain : words.map plainJoiner = words

theorem isWords_iff : IsWords words ↔
    Cut.joins words = true ∧ joinedWords words = words ∧ words.map plainJoiner = words := by
  refine ⟨fun h => ⟨h.joins, h.whole, h.plain⟩, fun h => ?_⟩
  exact ⟨h.1, h.2.1, h.2.2⟩

instance : DecidablePred IsWords := fun _ => decidable_of_iff _ isWords_iff.symm

/-- A name as scanning finds it: words, and perhaps a question mark. -/
def IsName (name : List Char) : Prop :=
  ∃ words mark, name = words ++ mark ∧ IsWords words ∧ (mark = [] ∨ mark = ['?'])

@[simp] theorem plainJoiner_plainJoiner (c : Char) :
    plainJoiner (plainJoiner c) = plainJoiner c := by
  unfold plainJoiner
  split <;> rfl

theorem isWords_joinedWords (h : joins text = true) :
    IsWords ((joinedWords text).map plainJoiner) := by
  refine ⟨?_, ?_, ?_⟩
  · unfold Cut.joins
    rw [takeWhile_map_plainJoiner, takeWhile_joinedWords]
    exact h
  · simp [joinedWords_map_plainJoiner]
  · rw [map_map]
    exact map_congr_left fun c _ => plainJoiner_plainJoiner c

/-- What is cut as a name is one. -/
theorem isName_of_name (hc : Text.isAlphabetic c = true)
    (h : (Cut.name (c :: text)).piece = .token .identifier lexeme literal) : IsName lexeme := by
  have hword : isWordChar c = true := by rw [isWordChar, hc, Bool.true_or]
  unfold Cut.name at h
  dsimp only at h
  split at h
  · next kind literal' hreserved =>
    cases h
    exact absurd hreserved reserved?_ne_identifier
  · next hnone =>
    cases h
    refine ⟨_, _, map_append, isWords_joinedWords ?_, ?_⟩
    · rw [takeWhile_cons_of_pos hword] at hnone
      unfold Cut.joins
      rw [takeWhile_cons_of_pos hword]
      dsimp only
      rw [hc, hnone]
      rfl
    · rcases questionMark_cases ((c :: text).drop (joinedWords (c :: text)).length) with hq | hq
      · exact .inl (by rw [hq]; rfl)
      · exact .inr (by rw [hq]; rfl)

/-- **What is cut off a text as a name is a name by itself.** -/
theorem isName_of_cut
    (h : (cut c text).piece = .token .identifier lexeme literal) : IsName lexeme := by
  unfold cut at h
  split at h
  · cases h
  split at h
  · cases h
  split at h
  · cases h
  split at h
  · unfold Cut.quoted at h
    dsimp only at h
    split at h <;> cases h
  split at h
  · cases h
  split at h
  · next hfound =>
    obtain ⟨kind, ⟨hkind, rfl⟩ | ⟨d, -, -, hpair, rfl⟩⟩ := Cut.symbol_cases hfound
    · cases h
      exact absurd hkind (symbol?_ne_identifier _)
    · cases h
      exact absurd hpair (pair?_ne_identifier _ _)
  split at h
  · next hc => exact isName_of_name hc h
  · cases h

theorem isName_of_mem_scan (text : List Char) :
    ∀ t ∈ (scan text).tokens, t.kind = .identifier → IsName t.lexeme.toList :=
  forall_lexeme_of_mem_scan (by decide) isName_of_cut text

theorem joinedWords_of_append :
    ∀ {first later}, joinedWords (first ++ later) = first ++ later → joinedWords later = later
  | [], _, h => h
  | c :: first, later, h => by
    rw [cons_append, joinedWords] at h
    split at h
    · exact joinedWords_of_append (cons.inj h).2
    · cases h

/-- What stands behind a joiner in words is words. -/
theorem IsWords.behind_joiner {first joiner} (h : IsWords (first ++ joiner :: later))
    (hjoiner : isJoiner joiner = true) : IsWords later := by
  have hword : isWordChar joiner = false := by
    rcases Bool.or_eq_true_iff.mp hjoiner with hc | hc
    · rw [eq_of_beq hc, not_isWordChar.1]
    · rw [eq_of_beq hc, not_isWordChar.2.1]
  have hwhole := joinedWords_of_append h.whole
  rw [joinedWords, hword, hjoiner, Bool.false_or, Bool.true_and] at hwhole
  have hplain := h.plain
  rw [map_append, map_cons] at hplain
  obtain ⟨-, hbehind⟩ := append_inj hplain (length_map _)
  split at hwhole
  · next hjoins => exact ⟨hjoins, (cons.inj hwhole).2, (cons.inj hbehind).2⟩
  · cases hwhole

/-- What follows a joiner in a name is a name. -/
theorem IsName.behind_joiner {first joiner} (h : IsName (first ++ joiner :: later))
    (hjoiner : isJoiner joiner = true) : IsName later := by
  obtain ⟨words, mark, hname, hwords, hmark⟩ := h
  rcases append_eq_append_iff.mp hname with ⟨behind, hbehind, hlater⟩ | ⟨behind, rfl, hbehind⟩
  · cases behind with
    | nil =>
      rw [nil_append] at hlater
      rcases hmark with rfl | rfl
      · cases hlater
      · cases hlater
        cases hjoiner
    | cons c behind =>
      cases hlater
      rw [hbehind] at hwords
      exact ⟨behind, mark, rfl, hwords.behind_joiner hjoiner, hmark⟩
  · rcases hmark with rfl | rfl
    · cases behind <;> cases hbehind
    · cases behind with
      | nil =>
        cases hbehind
        cases hjoiner
      | cons c behind =>
        obtain ⟨-, hnone⟩ := cons.inj hbehind
        cases behind <;> cases hnone

theorem mem_joinedWords : ∀ (text : List Char), ∀ c ∈ joinedWords text,
    isWordChar c = true ∨ isJoiner c = true
  | [], _, h => by cases h
  | d :: text, c, h => by
    rw [joinedWords] at h
    split at h
    · next hd =>
      rcases mem_cons.mp h with rfl | h
      · simp only [Bool.or_eq_true, Bool.and_eq_true] at hd
        exact hd.imp_right And.left
      · exact mem_joinedWords text c h
    · cases h

theorem IsWords.question_notMem (h : IsWords words) : '?' ∉ words := by
  intro hmem
  rw [← h.whole] at hmem
  rcases mem_joinedWords words '?' hmem with hword | hjoiner
  · rw [not_isWordChar.2.2.1] at hword
    cases hword
  · cases hjoiner

theorem IsName.isWords {name} (h : IsName name) (hlast : name.getLast? ≠ some '?') :
    IsWords name := by
  obtain ⟨words, mark, rfl, hwords, rfl | rfl⟩ := h
  · rwa [append_nil]
  · exact absurd getLast?_concat hlast

theorem IsName.isWords_dropLast {name} (h : IsName name) (hlast : name.getLast? = some '?') :
    IsWords name.dropLast := by
  obtain ⟨words, mark, rfl, hwords, rfl | rfl⟩ := h
  · rw [append_nil] at hlast
    exact absurd (mem_of_getLast? hlast) hwords.question_notMem
  · rwa [dropLast_concat]

/-! ## Names in front of other text -/

/-- Nothing of the text goes on with a name before it, but for a question mark. -/
def Closes (after : List Char) : Prop := joinedWords after = []

theorem closes_cons (hword : isWordChar c = false)
    (hjoiner : isJoiner c = false) : Closes (c :: after) := by
  rw [Closes, joinedWords, hword, hjoiner]
  rfl

theorem takeWhile_append_closes (h : Closes after) :
    (words ++ after).takeWhile isWordChar = words.takeWhile isWordChar := by
  have hnone : after.takeWhile isWordChar = [] := by
    cases after with
    | nil => rfl
    | cons c after =>
      refine takeWhile_cons_of_neg fun hword => ?_
      rw [Closes, joinedWords, hword] at h
      cases h
  rw [takeWhile_append, hnone]
  split
  · next hall => rw [append_nil, (List.takeWhile_prefix _).eq_of_length hall]
  · rfl

/-- Words end where the text closes them. -/
theorem joinedWords_append_closes (h : Closes after) :
    ∀ {words}, joinedWords words = words → joinedWords (words ++ after) = words
  | [], _ => h
  | c :: words, hwords => by
    have hjoins : joins (words ++ after) = joins words := by
      unfold joins
      rw [takeWhile_append_closes h]
    rw [joinedWords] at hwords
    rw [cons_append, joinedWords, hjoins]
    split at hwords
    · next hc => rw [if_pos hc, joinedWords_append_closes h (cons.inj hwords).2]
    · cases hwords

theorem questionMark_of_ne (h : c ≠ '?') : questionMark (c :: text) = [] := by
  unfold questionMark
  split
  · next hc => exact absurd (cons.inj hc).1 h
  · rfl

theorem map_questionMark (text : List Char) :
    (questionMark text).map plainJoiner = questionMark text := by
  rcases questionMark_cases text with hq | hq <;> rw [hq] <;> rfl

/-- The characters that scanning asks for before it asks for a letter, but for digits. -/
def marksOfScan : List Char :=
  [' ', '\t', '\r', '\u00a0', '\n', '#', '\'', '(', '[', '{', ')', ']', '}', ',', '.', ':', '?',
    '!', '+', '-', '*', '/', '%', '=', '<', '>', '≠', '≤', '≥', '∧', '∨', '→']

theorem not_isAlphabetic_of_mem : ∀ c ∈ marksOfScan, Text.isAlphabetic c = false := by
  have hall : marksOfScan.all (!Text.isAlphabetic ·) = true := by decide +kernel
  simpa [all_eq_true] using hall

theorem not_isAlphabetic_of_isDigit (h : c.isDigit = true) : Text.isAlphabetic c = false := by
  have hdigits : ∀ n < 58, 48 ≤ n → Text.alphabeticRanges.covers n = false := by decide +kernel
  obtain ⟨hleast, hmost⟩ := Bool.and_eq_true_iff.mp h
  have hleast := UInt32.le_iff_toNat_le.mp (of_decide_eq_true hleast)
  have hmost := UInt32.le_iff_toNat_le.mp (of_decide_eq_true hmost)
  exact hdigits c.toNat (Nat.lt_succ_of_le hmost) hleast

theorem mem_marksOfScan_of_symbol? (h : Cut.symbol? c = some kind) : c ∈ marksOfScan := by
  unfold Cut.symbol? at h
  split at h <;> first | decide | cases h

theorem mem_marksOfScan_of_isSpacing (h : isSpacing c = true) : c ∈ marksOfScan := by
  simp only [isSpacing, Bool.or_eq_true, beq_iff_eq] at h
  rcases h with ((rfl | rfl) | rfl) | rfl <;> decide

/-- A letter is nothing else. -/
theorem isAlphabetic_cases (h : Text.isAlphabetic c = true) : isSpacing c = false ∧
    c ≠ '\n' ∧ c ≠ '#' ∧ c ≠ '\'' ∧ c.isDigit = false ∧ Cut.symbol? c = none := by
  have hmark : c ∉ marksOfScan := fun hc => by
    rw [not_isAlphabetic_of_mem c hc] at h
    cases h
  refine ⟨?_, fun hc => ?_, fun hc => ?_, fun hc => ?_, ?_, ?_⟩
  · exact Bool.eq_false_iff.mpr fun hc => hmark (mem_marksOfScan_of_isSpacing hc)
  · exact hmark (hc ▸ by decide)
  · exact hmark (hc ▸ by decide)
  · exact hmark (hc ▸ by decide)
  · refine Bool.eq_false_iff.mpr fun hc => ?_
    rw [not_isAlphabetic_of_isDigit hc] at h
    cases h
  · exact Option.eq_none_iff_forall_ne_some.mpr fun kind hc => hmark (mem_marksOfScan_of_symbol? hc)

theorem symbol_eq_none_of_symbol? (h : Cut.symbol? c = none) (text : List Char) :
    Cut.symbol c text = none := by
  unfold Cut.symbol
  split
  · split
    · next hpair =>
      unfold Cut.pair? at hpair
      split at hpair <;> first | cases h | cases hpair
    · rw [h]
      rfl
  · rw [h]
    rfl

/-- **Words are a name again**, in front of a text that does not go on with them. -/
theorem cut_words (h : IsWords (c :: later)) (hafter : Closes after) : cut c (later ++ after)
      = Cut.plain .identifier (c :: later ++ questionMark after) := by
  have hjoins := h.joins
  unfold Cut.joins at hjoins
  have hc : Text.isAlphabetic c = true := by
    cases hc : isWordChar c with
    | true =>
      rw [takeWhile_cons_of_pos hc] at hjoins
      exact (Bool.and_eq_true_iff.mp hjoins).1
    | false =>
      rw [takeWhile_cons_of_neg (by simp [hc])] at hjoins
      cases hjoins
  have hword : isWordChar c = true := by rw [isWordChar, hc, Bool.true_or]
  obtain ⟨hspacing, hnewline, hhash, hquote, hdigit, hsymbol⟩ := isAlphabetic_cases hc
  have hreserved : reserved? ((c :: (later ++ after)).takeWhile isWordChar) = none := by
    rw [← cons_append, takeWhile_append_closes hafter, takeWhile_cons_of_pos hword]
    rw [takeWhile_cons_of_pos hword] at hjoins
    exact Option.isNone_iff_eq_none.mp (Bool.and_eq_true_iff.mp hjoins).2
  have hwords : joinedWords (c :: (later ++ after)) = c :: later :=
    joinedWords_append_closes hafter h.whole
  unfold cut
  rw [hspacing, if_neg Bool.false_ne_true, if_neg (by simpa using hnewline),
    if_neg (by simpa using hhash), if_neg (by simpa using hquote), hdigit,
    if_neg Bool.false_ne_true, symbol_eq_none_of_symbol? hsymbol]
  dsimp only
  rw [if_pos hc, Cut.name]
  dsimp only
  rw [hreserved]
  dsimp only
  rw [hwords, length_cons, drop_succ_cons, drop_left]
  have hplain : (c :: later ++ questionMark after).map plainJoiner
      = c :: later ++ questionMark after := by
    rw [map_append, h.plain, map_questionMark]
  exact congrArg (fun lexeme => (⟨_, .token .identifier lexeme none, []⟩ : Cut)) hplain

/-! ## Symbols -/

theorem symbol?_cases (h : Cut.symbol? c = some kind) :
    isSpacing c = false ∧ (c == '\n') = false ∧ (c == '#') = false ∧ (c == '\'') = false ∧
      c.isDigit = false := by
  unfold Cut.symbol? at h
  split at h <;> first | decide | cases h

theorem cut_symbol (h : Cut.symbol? c = some kind)
    (hpair : ∀ d, Cut.pair? c d = none) (text : List Char) : cut c text = Cut.plain kind [c] := by
  have hsymbol : Cut.symbol c text = some (Cut.plain kind [c]) := by
    unfold Cut.symbol
    split
    · rw [hpair, h]
      rfl
    · rw [h]
      rfl
  obtain ⟨hspacing, hnewline, hhash, hquote, hdigit⟩ := symbol?_cases h
  rw [cut, hspacing, hnewline, hhash, hquote, hdigit, hsymbol]
  rfl

namespace Scan

variable {tokens : List Token} {s : Scan}

/-! ## Pieces of a line -/

/-- A scan within a first line, without a fault so far. -/
structure Stands (rest : List Char) (opened : List Bracket) (tokens : List Token) (s : Scan) :
    Prop where
  inside : s.atMargin = false
  rest : s.rest = rest
  opened : s.brackets.map (·.1) = opened
  tokens : s.tokens.map bare = tokens
  levels : s.levels = []
  faults : s.faults = []

/-- In front of `after` the text adds the tokens, and opens and closes brackets. -/
def Adds (opened : List Bracket) (text after : List Char) (tokens : List Token)
    (opened' : List Bracket) : Prop :=
  ∀ s earlier, Stands (text ++ after) opened earlier s →
    ∃ s', s'.complete = s.complete ∧ Stands after opened' (tokens.reverse ++ earlier) s'

namespace Adds

variable {opened opened' : List Bracket} {second : List Char}

theorem nil : Adds opened [] after [] opened := fun s _ hs => ⟨s, rfl, hs⟩

/-- Pieces in a row add their tokens in a row. -/
theorem append {opened'' first tokens'} (h : Adds opened first (second ++ after) tokens opened')
    (h' : Adds opened' second after tokens' opened'') :
    Adds opened (first ++ second) after (tokens ++ tokens') opened'' := by
  intro s earlier hs
  rw [append_assoc] at hs
  obtain ⟨s₁, hcomplete₁, hs₁⟩ := h s earlier hs
  obtain ⟨s₂, hcomplete₂, hs₂⟩ := h' s₁ _ hs₁
  refine ⟨s₂, hcomplete₂.trans hcomplete₁, ?_⟩
  rwa [reverse_append, append_assoc]

/-- A piece of text that is a token. -/
theorem token {text} (hcut : cut c (text ++ after) = ⟨c :: text, .token kind lexeme literal, []⟩)
    (htrack : ∀ s : Scan, s.brackets.map (·.1) = opened → ∀ position, ∃ brackets,
      s.trackBrackets kind position = { s with brackets } ∧ brackets.map (·.1) = opened') :
    Adds opened (c :: text) after [⟨kind, String.ofList lexeme, literal, .start⟩] opened' := by
  intro s earlier hs
  have hrest : s.rest = c :: (text ++ after) := hs.rest
  have hstep : s.step = (s.addToken kind lexeme literal).move (c :: text) := by
    rw [step, hs.inside, if_neg Bool.false_ne_true]
    exact takePiece_of_cut hrest hcut
  obtain ⟨brackets, hbrackets, hopened⟩ := htrack s hs.opened s.position
  refine ⟨s.step, complete_step (by rw [hrest]; exact cons_ne_nil _ _), ?_⟩
  rw [hstep, addToken, hbrackets]
  refine ⟨hs.inside, ?_, hopened, ?_, hs.levels, hs.faults⟩
  · change s.rest.drop (c :: text).length = after
    rw [hs.rest, drop_left]
  · change (⟨kind, String.ofList lexeme, literal, s.position⟩ :: s.tokens).map bare = _
    rw [map_cons, hs.tokens]
    rfl

/-- Blanks add no token. -/
theorem spacing (hc : isSpacing c = true) : Adds opened [c] after [] opened := by
  intro s earlier hs
  have hrest : s.rest = c :: after := hs.rest
  have hstep : s.step = s.move [c] := by
    rw [step, hs.inside, if_neg Bool.false_ne_true]
    have hcut : cut c after = ⟨[c], .skipped, []⟩ := by rw [cut, if_pos hc]
    simp only [takePiece, hrest, hcut]
    rfl
  refine ⟨s.step, complete_step (by rw [hrest]; exact cons_ne_nil _ _), ?_⟩
  rw [hstep]
  refine ⟨hs.inside, ?_, hs.opened, hs.tokens, hs.levels, hs.faults⟩
  change s.rest.drop [c].length = after
  rw [hrest]
  rfl

/-- A name in front of a text that does not go on with it, but for a question mark. -/
theorem name (h : IsWords words) (hafter : Closes (second ++ after))
    (hmark : questionMark (second ++ after) = second) :
    Adds opened (words ++ second) after
      [⟨.identifier, String.ofList (words ++ second), none, .start⟩] opened := by
  cases words with
  | nil =>
    have hjoins := h.joins
    cases hjoins
  | cons c words =>
    have hcut : cut c (words ++ second ++ after)
        = ⟨c :: (words ++ second), .token .identifier (c :: (words ++ second)) none, []⟩ := by
      rw [append_assoc, cut_words h hafter, hmark]
      rfl
    exact token hcut fun s hs _ => ⟨s.brackets, rfl, hs⟩

theorem symbol (hkind : Cut.symbol? c = some kind) (hpair : ∀ d, Cut.pair? c d = none)
    (htrack : ∀ s : Scan, s.brackets.map (·.1) = opened → ∀ position, ∃ brackets,
      s.trackBrackets kind position = { s with brackets } ∧ brackets.map (·.1) = opened') :
    Adds opened [c] after [⟨kind, String.ofList [c], none, .start⟩] opened' :=
  token (cut_symbol hkind hpair after) htrack

theorem opening (sort : Bracket) : Adds opened [sort.opener] after
    [⟨.opening sort, String.ofList [sort.opener], none, .start⟩] (sort :: opened) := by
  refine symbol (by cases sort <;> rfl) (by cases sort <;> exact fun _ => rfl)
    fun s hs position => ⟨(sort, position) :: s.brackets, rfl, ?_⟩
  rw [map_cons, hs]

theorem closing (sort : Bracket) : Adds (sort :: opened) [sort.closer] after
    [⟨.closing sort, String.ofList [sort.closer], none, .start⟩] opened := by
  refine symbol (by cases sort <;> rfl) (by cases sort <;> exact fun _ => rfl)
    fun s hs position => ?_
  obtain ⟨⟨pair, place⟩, outer, hbrackets, rfl, houter⟩ := map_eq_cons_iff.mp hs
  refine ⟨outer, ?_, houter⟩
  rw [trackBrackets, hbrackets]
  exact if_pos rfl

end Adds

/-- The scan behind the last token of a line. -/
theorem complete_of_stands (h : Stands ['\n'] [] tokens s)
    (hlast : ∃ t ∈ s.tokens.head?, t.kind ≠ .newline) : s.complete.faults = [] ∧
      s.complete.brackets = [] ∧
      s.complete.closed = ⟨.newline, "\n", none, s.position⟩ :: s.tokens := by
  have hrest : s.rest = ['\n'] := h.rest
  have hbrackets : s.brackets = [] := List.map_eq_nil_iff.mp h.opened
  have hadds : s.lastIsNot [.newline] = true := by
    obtain ⟨newest, hnewest, hkind⟩ := hlast
    obtain ⟨earlier, htokens⟩ := List.head?_eq_some_iff.mp hnewest
    simp [lastIsNot, htokens, hkind]
  have hcomplete : s.complete
      = ({ s.move ['\n'] with atMargin := true }).emit .newline "\n" none s.position := by
    rw [← complete_step (by rw [hrest]; exact List.cons_ne_nil _ _), step, h.inside,
      if_neg Bool.false_ne_true, takePiece_newline hrest,
      complete_of_newline hrest (by rw [hrest]; exact List.not_mem_nil)]
    unfold breakLine
    rw [if_pos (by rw [List.isEmpty_iff]; exact hbrackets)]
    exact if_pos hadds
  rw [hcomplete]
  refine ⟨h.faults, hbrackets, ?_⟩
  rw [closed]
  change List.replicate s.levels.length _ ++ _ = _
  rw [h.levels]
  rfl

end Scan

/-! ## Texts by what their tokens are -/

/-- The token stands for text: it is no end of input, nor a line break inside brackets. -/
def IsVisible (t : Token) : Prop := t.kind ≠ .eof ∧ t.kind ≠ .softNewline

/-- In front of what `Behind` allows, the text adds tokens that `Holds` is true of wherever they
stand, and closes the brackets that it opens. -/
def Comes (Behind : List Char → Prop) (text : List Char) (Holds : List Token → Prop) : Prop :=
  ∃ tokens, (∀ opened after, Behind after → Scan.Adds opened text after tokens opened) ∧
    (∀ t ∈ tokens, IsVisible t) ∧ ∀ actual : List Token, actual.map bare = tokens → Holds actual

theorem isVisible_of_symbol? {lexeme} (h : Cut.symbol? c = some kind) :
    IsVisible ⟨kind, lexeme, literal, .start⟩ := by
  unfold Cut.symbol? at h
  split at h <;> cases h <;> exact ⟨nofun, nofun⟩

theorem isVisible_identifier (lexeme : String) :
    ∀ t ∈ [(⟨.identifier, lexeme, none, .start⟩ : Token)], IsVisible t :=
  forall_mem_singleton.mpr ⟨nofun, nofun⟩

namespace Comes

variable {Behind Behind' : List Char → Prop} {Holds Holds' : List Token → Prop} {text' : List Char}

theorem mono (h : Comes Behind text Holds) (hbehind : ∀ after, Behind' after → Behind after)
    (hholds : ∀ actual, Holds actual → Holds' actual) : Comes Behind' text Holds' := by
  obtain ⟨tokens, hadds, hvisible, hactual⟩ := h
  exact ⟨tokens, fun opened after hafter => hadds opened after (hbehind after hafter), hvisible,
    fun actual hbare => hholds actual (hactual actual hbare)⟩

theorem append (h : Comes Behind text Holds) (h' : Comes Behind' text' Holds')
    (hbehind : ∀ after, Behind' after → Behind (text' ++ after)) :
    Comes Behind' (text ++ text') fun actual =>
      ∃ front back, actual = front ++ back ∧ Holds front ∧ Holds' back := by
  obtain ⟨tokens, hadds, hvisible, hactual⟩ := h
  obtain ⟨tokens', hadds', hvisible', hactual'⟩ := h'
  refine ⟨tokens ++ tokens', fun opened after hafter =>
    (hadds opened _ (hbehind after hafter)).append (hadds' opened after hafter),
    forall_mem_append.mpr ⟨hvisible, hvisible'⟩, fun actual hbare => ?_⟩
  obtain ⟨front, back, rfl, hfront, hback⟩ := map_eq_append_iff.mp hbare
  exact ⟨front, back, rfl, hactual front hfront, hactual' back hback⟩

theorem nothing : Comes (fun _ => True) [] (· = []) :=
  ⟨[], fun _ _ _ => .nil, forall_mem_nil _, fun _ hbare => map_eq_nil_iff.mp hbare⟩

theorem spacing (hc : isSpacing c = true) : Comes (fun _ => True) [c] (· = []) :=
  ⟨[], fun _ _ _ => .spacing hc, forall_mem_nil _, fun _ hbare => map_eq_nil_iff.mp hbare⟩

theorem single {lexeme actual} (h : actual.map bare = [⟨kind, lexeme, literal, .start⟩]) :
    ∃ t, actual = [t] ∧ t.kind = kind ∧ t.lexeme = lexeme := by
  obtain ⟨t, rfl, ht⟩ := map_eq_singleton_iff.mp h
  exact ⟨t, rfl, congrArg Token.kind ht, congrArg Token.lexeme ht⟩

theorem symbol (hkind : Cut.symbol? c = some kind) (hpair : ∀ d, Cut.pair? c d = none)
    (htrack : ∀ (s : Scan) position, s.trackBrackets kind position = s) :
    Comes (fun _ => True) [c] fun actual => ∃ t, actual = [t] ∧ t.kind = kind := by
  refine ⟨_, fun opened after _ => .symbol hkind hpair fun s hs position =>
    ⟨s.brackets, htrack s position, hs⟩, forall_mem_singleton.mpr (isVisible_of_symbol? hkind),
    fun actual hbare => ?_⟩
  obtain ⟨t, ht, hkind, -⟩ := single hbare
  exact ⟨t, ht, hkind⟩

/-- Nothing goes on with a name, nor is there a question mark. -/
def EndsName (after : List Char) : Prop := Closes after ∧ questionMark after = []

theorem endsName_cons (hword : isWordChar c = false)
    (hjoiner : isJoiner c = false) (hmark : c ≠ '?') : EndsName (c :: after) :=
  ⟨closes_cons hword hjoiner, questionMark_of_ne hmark⟩

/-- A name comes as one token. -/
theorem name (h : IsName words) : Comes EndsName words fun actual =>
    ∃ t, actual = [t] ∧ t.kind = .identifier ∧ t.lexeme = String.ofList words := by
  obtain ⟨words, mark, rfl, hwords, hmark⟩ := h
  refine ⟨_, fun opened after hafter => .name hwords ?_ ?_, isVisible_identifier _,
    fun actual hbare => single hbare⟩
  · rcases hmark with rfl | rfl
    · exact hafter.1
    · exact closes_cons not_isWordChar.2.2.1 rfl
  · rcases hmark with rfl | rfl
    · exact hafter.2
    · rfl

/-- Words with a question mark are a name, whatever follows. -/
theorem marked (h : IsWords words) : Comes (fun _ => True) (words ++ ['?']) fun actual =>
    ∃ t, actual = [t] ∧ t.kind = .identifier ∧ t.lexeme = String.ofList (words ++ ['?']) := by
  exact ⟨_, fun opened after _ => .name h (closes_cons not_isWordChar.2.2.1 rfl) rfl,
    isVisible_identifier _, fun actual hbare => single hbare⟩

/-- A text in brackets. -/
theorem enclosed (sort : Bracket) (h : Comes Behind text Holds)
    (hbehind : ∀ after, Behind (sort.closer :: after)) :
    Comes (fun _ => True) (sort.opener :: (text ++ [sort.closer])) fun actual =>
      ∃ opener inner closer, actual = opener :: (inner ++ [closer]) ∧
        opener.kind = .opening sort ∧ Holds inner ∧ closer.kind = .closing sort := by
  obtain ⟨tokens, hadds, hvisible, hactual⟩ := h
  refine ⟨_, fun opened after _ => (Scan.Adds.opening sort).append
    ((hadds (sort :: opened) _ (hbehind after)).append (.closing sort)), ?_, fun actual hbare => ?_⟩
  · refine forall_mem_append.mpr ⟨forall_mem_singleton.mpr ⟨nofun, nofun⟩,
      forall_mem_append.mpr ⟨hvisible, forall_mem_singleton.mpr ⟨nofun, nofun⟩⟩⟩
  obtain ⟨front, back, rfl, hfront, hback⟩ := map_eq_append_iff.mp hbare
  obtain ⟨inner, last, rfl, hinner, hlast⟩ := map_eq_append_iff.mp hback
  obtain ⟨opener, rfl, hopener, -⟩ := single hfront
  obtain ⟨closer, rfl, hcloser, -⟩ := single hlast
  exact ⟨opener, inner, closer, rfl, hopener, hactual inner hinner, hcloser⟩

end Comes

/-- **A line has the tokens that its text adds.** -/
theorem scan_of_comes {Holds} (h : Comes (· = ['\n']) text Holds)
    (hlast : ∀ actual, Holds actual → ∃ t ∈ actual.getLast?, t.kind ≠ .newline)
    (hstep : (Scan.start (text ++ ['\n'])).step
      = { Scan.start (text ++ ['\n']) with atMargin := false }) :
    (scan (text ++ ['\n'])).faults = [] ∧ ∃ actual newline final,
      (scan (text ++ ['\n'])).tokens = actual ++ [newline, final] ∧ Holds actual ∧
        (∀ t ∈ actual, IsVisible t) ∧ newline.kind = .newline ∧ final.kind = .eof := by
  obtain ⟨tokens, hadds, hvisible, hactual⟩ := h
  obtain ⟨s, hcomplete, hs⟩ := hadds [] _ rfl
    { Scan.start (text ++ ['\n']) with atMargin := false } [] ⟨rfl, rfl, rfl, rfl, rfl, rfl⟩
  rw [← hstep, Scan.complete_step (by simp [Scan.start])] at hcomplete
  have hbare : s.tokens.reverse.map bare = tokens := by
    rw [map_reverse, hs.tokens, append_nil, reverse_reverse]
  have hholds : Holds s.tokens.reverse := hactual _ hbare
  obtain ⟨t, ht, hkind⟩ := hlast _ hholds
  rw [getLast?_reverse] at ht
  obtain ⟨hfaults, hbrackets, hclosed⟩ := Scan.complete_of_stands hs ⟨t, ht, hkind⟩
  refine ⟨?_, s.tokens.reverse, ⟨.newline, "\n", none, s.position⟩,
    ⟨.eof, "", none, s.complete.position⟩, ?_, hholds, ?_, rfl, rfl⟩
  · rw [faults_scan_eq_nil, ← hcomplete]
    exact ⟨hfaults, hbrackets⟩
  · rw [scan_eq, Scan.toScanned, ← hcomplete, Scan.tokens_finish, hclosed, reverse_cons,
      reverse_cons, append_assoc, singleton_append]
  · intro t ht
    exact hvisible (bare t) (hbare ▸ mem_map_of_mem ht)

end Offside.Token
