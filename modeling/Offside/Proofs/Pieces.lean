import Mathlib.Data.List.TakeWhile
import Offside.Token.Cut

/-!
# Proofs/Pieces — a piece of text lies on one line

What is cut off a text is the beginning of it, and holds no line break unless it is one
(`onLine_cut`).  Nothing that stands behind the line is looked at: `cut_append` says that a text
with a line break in it begins with the same piece whatever follows.  What a token that is cut off
can be is said once, by `yields_of_cut`.
-/

namespace Offside.Token

open List

variable {text : List Char} {c : Char} {kind : Kind}

namespace Cut

variable {p : Char → Bool}

/-- The text begins with `part`, within its first line. -/
def Leads (part text : List Char) : Prop := part <+: text ∧ '\n' ∉ part

namespace Leads

variable {part : List Char}

theorem nil : Leads [] text := ⟨List.nil_prefix, not_mem_nil⟩

theorem cons (hc : c ≠ '\n') (h : Leads part text) : Leads (c :: part) (c :: text) :=
  ⟨cons_prefix_cons.mpr ⟨rfl, h.1⟩, not_mem_cons_of_ne_of_not_mem (Ne.symm hc) h.2⟩

theorem takeWhile (hp : p '\n' = false) : Leads (text.takeWhile p) text := by
  refine ⟨List.takeWhile_prefix p, fun h => ?_⟩
  rw [mem_takeWhile_imp h] at hp
  cases hp

theorem append {later} (h : Leads part text) (hlater : Leads later (text.drop part.length)) :
    Leads (part ++ later) text := by
  obtain ⟨rest, rfl⟩ := h.1
  rw [drop_left] at hlater
  refine ⟨(prefix_append_right_inj part).mpr hlater.1, fun hmem => ?_⟩
  exact (mem_append.mp hmem).elim h.2 hlater.2

/-- A line break in the text comes behind the part. -/
theorem mem_drop (h : Leads part text) (hline : '\n' ∈ text) : '\n' ∈ text.drop part.length := by
  obtain ⟨rest, rfl⟩ := h.1
  rw [drop_left]
  exact (mem_append.mp hline).resolve_left h.2

theorem drop_append (h : Leads part text) (more : List Char) :
    (text ++ more).drop part.length = text.drop part.length ++ more :=
  drop_append_of_le_length h.1.length_le

end Leads

/-- A piece that is not a line break: some of the first line of the text. -/
structure OnLine (found : Cut) (text : List Char) : Prop where
  leads : Leads found.taken text
  taken_ne_nil : found.taken ≠ []
  piece_ne : found.piece ≠ .lineBreak

/-- A single character that is passed over. -/
theorem OnLine.skipped (hc : c ≠ '\n') (faults : List (Nat × LexicalFault)) :
    OnLine ⟨[c], .skipped, faults⟩ (c :: text) :=
  ⟨.cons hc .nil, cons_ne_nil _ _, nofun⟩

/-! ## The parts of a piece -/

theorem takeWhile_append (hp : p '\n' = false) (h : '\n' ∈ text)
    (more : List Char) : (text ++ more).takeWhile p = text.takeWhile p := by
  obtain ⟨before, after, rfl⟩ := append_of_mem h
  simp [takeWhile_append, hp]

variable (h : '\n' ∈ text) (more : List Char)

include h in
theorem toLineEnd_append : toLineEnd (text ++ more) = toLineEnd text :=
  takeWhile_append (by decide) h more

theorem takeWhile_line (hp : p '\n' = false) (more : List Char) :
    ∀ text : List Char, (text ++ '\n' :: more).takeWhile p = text.takeWhile p
  | [] => by rw [nil_append, takeWhile_cons_of_neg (by simp [hp]), takeWhile_nil]
  | c :: text => by
    rw [cons_append, takeWhile_cons, takeWhile_cons, takeWhile_line hp more text]

theorem toLineEnd_line (h : '\n' ∉ text) (more : List Char) :
    toLineEnd (text ++ '\n' :: more) = text := by
  have hall : ∀ c ∈ text, (c != '\n') = true := by
    intro c hc
    have hne : c ≠ '\n' := fun heq => h (heq ▸ hc)
    simpa using hne
  rw [toLineEnd, takeWhile_line (by decide), takeWhile_eq_self_iff.mpr hall]

theorem leads_fraction : Leads (fraction text) text := by
  unfold fraction
  split
  · exact .cons (by decide) (.takeWhile (by decide))
  · exact .nil

include h in
theorem fraction_append : fraction (text ++ more) = fraction text := by
  obtain ⟨c, text, rfl⟩ := exists_cons_of_ne_nil (ne_nil_of_mem h)
  by_cases hdot : c = '.'
  · subst hdot
    have hmem : '\n' ∈ text := (mem_cons.mp h).resolve_left (by decide)
    rw [cons_append, fraction, fraction, takeWhile_append (by decide) hmem]
  · simp [fraction, hdot]

theorem leads_sign : Leads (sign text) text := by
  unfold sign
  split
  · exact .cons (by decide) .nil
  · exact .cons (by decide) .nil
  · exact .nil

include h in
theorem sign_append : sign (text ++ more) = sign text := by
  obtain ⟨c, text, rfl⟩ := exists_cons_of_ne_nil (ne_nil_of_mem h)
  by_cases hplus : c = '+'
  · subst hplus
    rfl
  · by_cases hminus : c = '-'
    · subst hminus
      rfl
    · simp [sign, hplus, hminus]

/-- An exponent is read from the front of the text. -/
theorem leads_exponent : Leads (exponent text) text := by
  unfold exponent
  split
  · exact .nil
  · next mark text =>
    split
    · next hmark =>
      split
      · exact .nil
      · refine .cons (fun hc => ?_) (leads_sign.append (.takeWhile (by decide)))
        subst hc
        cases hmark
    · exact .nil

include h in
theorem exponent_append : exponent (text ++ more) = exponent text := by
  cases text with
  | nil => cases h
  | cons mark text =>
    rw [cons_append, exponent, exponent]
    split
    · next hmark =>
      have hmem : '\n' ∈ text := (mem_cons.mp h).resolve_left fun hc => by
        subst hc
        cases hmark
      rw [sign_append hmem, leads_sign.drop_append,
        takeWhile_append (by decide) (leads_sign.mem_drop hmem)]
    · rfl

theorem onLine_number (hc : c.isDigit = true) : OnLine (number (c :: text)) (c :: text) := by
  refine ⟨Leads.append (Leads.append (.takeWhile (by decide)) leads_fraction) ?_, ?_, nofun⟩
  · rw [length_append]
    exact leads_exponent
  · simp [number, hc]

include h in
theorem number_append : number (text ++ more) = number text := by
  have hwhole : Leads (text.takeWhile Char.isDigit) text := .takeWhile (by decide)
  have hpart := hwhole.append leads_fraction
  unfold number
  dsimp only
  rw [takeWhile_append (by decide) h, hwhole.drop_append, fraction_append (hwhole.mem_drop h),
    ← length_append, hpart.drop_append, exponent_append (hpart.mem_drop h)]

theorem leads_read (offset : Nat) (text : List Char) :
    Leads (Quoted.read offset text).taken text := by
  fun_induction Quoted.read offset text with
  | case1 => exact .nil
  | case2 => exact .cons (by decide) .nil
  | case3 => exact .nil
  | case4 | case5 => exact .cons (by decide) .nil
  | case6 offset c text hc ih => exact .cons (by decide) (.cons (by simpa using hc) ih)
  | case7 offset c text _ hc _ _ _ ih => exact .cons (by simpa using hc) ih

/-- A string ends on its line, whatever follows. -/
theorem read_append (offset : Nat) (text : List Char) (h : '\n' ∈ text) (more : List Char) :
    Quoted.read offset (text ++ more) = Quoted.read offset text := by
  fun_induction Quoted.read offset text with
  | case1 => cases h
  | case2 | case3 => rfl
  | case4 => exact absurd h (by decide)
  | case5 => rfl
  | case6 offset c text hc ih =>
    have hmem : '\n' ∈ text := by simpa [Ne.symm hc] using h
    rw [cons_append, cons_append, Quoted.read.eq_6 _ _ _ hc, ih hmem]
  | case7 offset c text hquote hc hlast hbreak hback ih =>
    have hmem : '\n' ∈ text := (mem_cons.mp h).resolve_left (Ne.symm hc)
    have hplain : c ≠ '\\' := by
      obtain ⟨d, text, rfl⟩ := exists_cons_of_ne_nil (ne_nil_of_mem hmem)
      exact fun h => hback d text h rfl
    rw [cons_append, Quoted.read.eq_7 _ _ _ hquote hc (fun h => absurd h hplain)
      (fun _ h => absurd h hplain) (fun _ _ h => absurd h hplain), ih hmem]

theorem onLine_quoted : OnLine (quoted text) ('\'' :: text) := by
  have hleads : Leads ('\'' :: (Quoted.read 1 text).taken) ('\'' :: text) :=
    .cons (by decide) (leads_read 1 text)
  unfold quoted
  dsimp only
  split <;> exact ⟨hleads, cons_ne_nil _ _, nofun⟩

include h in
theorem quoted_append : quoted (text ++ more) = quoted text := by
  rw [quoted, quoted, read_append 1 text h]

@[simp] theorem isWordChar_newline : isWordChar '\n' = false := by decide +kernel

include h in
theorem joins_append : joins (text ++ more) = joins text := by
  rw [joins, joins, takeWhile_append isWordChar_newline h]

/-- Words are read from the front of the text. -/
theorem leads_joinedWords : ∀ text : List Char, Leads (joinedWords text) text
  | [] => .nil
  | c :: text => by
    unfold joinedWords
    split
    · next hc =>
      refine .cons (fun hn => ?_) (leads_joinedWords text)
      subst hn
      rw [isWordChar_newline] at hc
      cases hc
    · exact .nil

theorem joinedWords_append :
    ∀ {text}, '\n' ∈ text → ∀ more : List Char, joinedWords (text ++ more) = joinedWords text
  | c :: text, h, more => by
    rw [cons_append, joinedWords, joinedWords]
    by_cases hc : c = '\n'
    · subst hc
      rw [isWordChar_newline]
      rfl
    · have hmem : '\n' ∈ text := (mem_cons.mp h).resolve_left (Ne.symm hc)
      rw [joins_append hmem, joinedWords_append hmem]

theorem leads_questionMark : Leads (questionMark text) text := by
  unfold questionMark
  split
  · exact .cons (by decide) .nil
  · exact .nil

include h in
theorem questionMark_append : questionMark (text ++ more) = questionMark text := by
  obtain ⟨c, text, rfl⟩ := exists_cons_of_ne_nil (ne_nil_of_mem h)
  by_cases hmark : c = '?'
  · subst hmark
    rfl
  · simp [questionMark, hmark]

theorem onLine_name (hc : isWordChar c = true) : OnLine (name (c :: text)) (c :: text) := by
  unfold name
  dsimp only
  split
  · refine ⟨.takeWhile isWordChar_newline, ?_, nofun⟩
    simp [hc]
  · refine ⟨(leads_joinedWords (c :: text)).append leads_questionMark, ?_, nofun⟩
    simp [joinedWords, hc]

include h in
theorem name_append : name (text ++ more) = name text := by
  have hwords := leads_joinedWords text
  unfold name
  dsimp only
  rw [takeWhile_append isWordChar_newline h, joinedWords_append h, hwords.drop_append,
    questionMark_append (hwords.mem_drop h)]

theorem pair?_ne_newline {d} (h : pair? c d = some kind) : d ≠ '\n' := by
  rintro rfl
  unfold pair? at h
  split at h <;> simp_all

/-- What a symbol can be: one character, or two. -/
theorem symbol_cases {found} (h : symbol c text = some found) :
    ∃ kind, (symbol? c = some kind ∧ found = plain kind [c]) ∨
      ∃ d later, text = d :: later ∧ pair? c d = some kind ∧ found = plain kind [c, d] := by
  have hsingle : (symbol? c).map (fun kind => plain kind [c]) = some found →
      ∃ kind, symbol? c = some kind ∧ found = plain kind [c] := by
    intro hsome
    obtain ⟨kind, hkind, rfl⟩ := Option.map_eq_some_iff.mp hsome
    exact ⟨kind, hkind, rfl⟩
  unfold symbol at h
  split at h
  · next d later =>
    split at h
    · next kind hpair => exact ⟨kind, .inr ⟨d, later, rfl, hpair, (Option.some.inj h).symm⟩⟩
    · exact (hsingle h).imp fun _ => .inl
  · exact (hsingle h).imp fun _ => .inl

theorem onLine_symbol {found} (hc : c ≠ '\n') (h : symbol c text = some found) :
    OnLine found (c :: text) := by
  obtain ⟨kind, ⟨-, rfl⟩ | ⟨d, later, rfl, hpair, rfl⟩⟩ := symbol_cases h
  · exact ⟨.cons hc .nil, cons_ne_nil _ _, nofun⟩
  · exact ⟨.cons hc (.cons (pair?_ne_newline hpair) .nil), cons_ne_nil _ _, nofun⟩

include h in
theorem symbol_append : symbol c (text ++ more) = symbol c text := by
  obtain ⟨d, text, rfl⟩ := exists_cons_of_ne_nil (ne_nil_of_mem h)
  rfl

end Cut

/-! ## Pieces -/

open Cut (OnLine)

@[simp] theorem cut_newline (text : List Char) : cut '\n' text = ⟨['\n'], .lineBreak, []⟩ := rfl

/-- **A piece is the beginning of the line** that the text begins with, unless it is the line
break. -/
theorem onLine_cut (hc : c ≠ '\n') (text : List Char) : OnLine (cut c text) (c :: text) := by
  unfold cut
  split
  · exact .skipped hc []
  split
  · next hnewline => exact absurd (eq_of_beq hnewline) hc
  split
  · exact ⟨.cons hc (.takeWhile (by decide)), cons_ne_nil _ _, nofun⟩
  split
  · next hquote =>
    rw [eq_of_beq hquote]
    exact Cut.onLine_quoted
  split
  · next hdigit => exact Cut.onLine_number hdigit
  split
  · next found hfound => exact Cut.onLine_symbol hc hfound
  split
  · next hletter => exact Cut.onLine_name (by rw [isWordChar, hletter, Bool.true_or])
  · exact .skipped hc _

theorem cut_prefix (c : Char) (text : List Char) : (cut c text).taken <+: c :: text := by
  by_cases hc : c = '\n'
  · subst hc
    exact ⟨text, rfl⟩
  · exact (onLine_cut hc text).leads.1

/-- **A piece does not depend on what stands behind its line.** -/
theorem cut_append (h : '\n' ∈ c :: text) (more : List Char) :
    cut c (text ++ more) = cut c text := by
  by_cases hc : c = '\n'
  · subst hc
    simp
  · have hmem : '\n' ∈ text := (mem_cons.mp h).resolve_left (Ne.symm hc)
    unfold cut
    rw [Cut.toLineEnd_append hmem, Cut.quoted_append hmem, ← cons_append,
      Cut.number_append h, Cut.symbol_append hmem, Cut.name_append h]

/-! ## Tokens -/

variable {literal : Option Literal} {lexeme : List Char}

namespace Cut

/-- Whether a character can stand in a number. -/
def isNumberChar (c : Char) : Bool := c.isDigit || ['.', 'e', 'E', '+', '-'].contains c

theorem isNumberChar_of_isDigit (h : c.isDigit = true) : isNumberChar c = true := by
  rw [isNumberChar, h, Bool.true_or]

theorem isNumberChar_fraction : ∀ c ∈ fraction text, isNumberChar c = true := by
  unfold fraction
  split
  · refine forall_mem_cons.mpr ⟨by decide, fun c hc => ?_⟩
    exact isNumberChar_of_isDigit (mem_takeWhile_imp hc)
  · exact forall_mem_nil _

theorem isNumberChar_sign : ∀ c ∈ sign text, isNumberChar c = true := by
  unfold sign
  split
  · exact forall_mem_singleton.mpr rfl
  · exact forall_mem_singleton.mpr rfl
  · exact forall_mem_nil _

theorem isNumberChar_exponent : ∀ c ∈ exponent text, isNumberChar c = true := by
  unfold exponent
  split
  · exact forall_mem_nil _
  · next mark text =>
    split
    · next hmark =>
      have hmark : isNumberChar mark = true := by
        rcases Bool.or_eq_true_iff.mp hmark with hmark | hmark
        · rw [eq_of_beq hmark]
          decide
        · rw [eq_of_beq hmark]
          decide
      split
      · exact forall_mem_nil _
      · refine forall_mem_cons.mpr ⟨hmark, forall_mem_append.mpr
          ⟨isNumberChar_sign, fun c hc => ?_⟩⟩
        exact isNumberChar_of_isDigit (mem_takeWhile_imp hc)
    · exact forall_mem_nil _

/-- What a token that is cut off a text can be, with its literal. -/
inductive Yields : Kind → List Char → Option Literal → Prop
  | text {lexeme : List Char} {value : String} : Yields .text lexeme (some (.text value))
  | number {lexeme : List Char} (h : ∀ c ∈ lexeme, isNumberChar c = true) :
    Yields .number lexeme (some (.number (String.ofList lexeme)))
  | symbol {c : Char} {kind : Kind} {lexeme : List Char} (h : symbol? c = some kind) :
    Yields kind lexeme none
  | pair {c d : Char} {kind : Kind} {lexeme : List Char} (h : pair? c d = some kind) :
    Yields kind lexeme none
  | reserved {kind : Kind} {word : List Char} {literal : Option Literal}
    (h : reserved? word = some (kind, literal)) : Yields kind word literal
  /-- Words and what stands behind them; both joiners are read as spaces. -/
  | name {text later : List Char} : Yields .identifier
      ((joinedWords text ++ questionMark later).map fun c => if c == '\u00a0' then ' ' else c) none

/-- A number is a token with its digits. -/
theorem yields_number
    (h : (number text).piece = .token kind lexeme literal) : Yields kind lexeme literal := by
  cases h
  refine .number fun c hc => ?_
  have hwhole : ∀ c ∈ text.takeWhile Char.isDigit, isNumberChar c = true :=
    fun c hc => isNumberChar_of_isDigit (mem_takeWhile_imp hc)
  split at hc
  · exact hwhole c hc
  · rcases mem_append.mp hc with hc | hc
    · rcases mem_append.mp hc with hc | hc
      · exact hwhole c hc
      · exact isNumberChar_fraction c hc
    · exact isNumberChar_exponent c hc

/-- A name is a token with its words. -/
theorem yields_name
    (h : (name text).piece = .token kind lexeme literal) : Yields kind lexeme literal := by
  unfold name at h
  dsimp only at h
  split at h
  · next hreserved =>
    cases h
    exact .reserved hreserved
  · cases h
    exact .name

end Cut

open Cut (Yields)

/-- **A token that is cut off a text** is a quoted text, a number, a symbol, a reserved word or a
name. -/
theorem yields_of_cut
    (h : (cut c text).piece = .token kind lexeme literal) : Yields kind lexeme literal := by
  unfold cut at h
  split at h
  · cases h
  split at h
  · cases h
  split at h
  · cases h
  split at h
  · unfold Cut.quoted at h
    dsimp only at h
    split at h <;> cases h
    exact .text
  split at h
  · exact Cut.yields_number h
  split at h
  · next hfound =>
    obtain ⟨kind', ⟨hkind, rfl⟩ | ⟨d, -, -, hpair, rfl⟩⟩ := Cut.symbol_cases hfound
    · cases h
      exact .symbol hkind
    · cases h
      exact .pair hpair
  split at h
  · exact Cut.yields_name h
  · cases h

end Offside.Token
