import Offside.Proofs.BlankLines
import Offside.Proofs.Division
import Offside.Proofs.Indentation
import Offside.Proofs.Stages

/-!
# Proofs/LineEndings — line feeds with and without carriage returns

A carriage return in front of every line feed is a blank at the end of a line.  It ends the pieces
that a line feed would end (`cut_withReturns`), it belongs to the comment that it ends, and the line
feed behind it sets the column back.  So the scan goes through the same states (`complete_returned`)
and only the line feeds are one column further to the right.

`compile_withReturns` is the result: the same tokens, and the same code.
-/

namespace Offside

open List Token

theorem Position.ne_after (p : Position) {text} (h : text ≠ []) : p ≠ p.after text := by
  intro heq
  have hlt := p.lt_after h
  rw [← heq] at hlt
  exact not_lt_of_le (le_refl p) hlt

/-! ## Texts -/

variable (text : List Char)

namespace Text

variable {c : Char}

/-- The text with a carriage return in front of every line feed. -/
def withReturns (text : List Char) : List Char :=
  text.flatMap fun c => if c = '\n' then ['\r', '\n'] else [c]

@[simp] theorem withReturns_append (before after : List Char) :
    withReturns (before ++ after) = withReturns before ++ withReturns after :=
  flatMap_append

@[simp] theorem withReturns_newline :
    withReturns ('\n' :: text) = '\r' :: '\n' :: withReturns text := rfl

theorem withReturns_cons (hc : c ≠ '\n') (text : List Char) :
    withReturns (c :: text) = c :: withReturns text := by
  rw [withReturns, flatMap_cons, if_neg hc]
  rfl

theorem withReturns_of_notMem : ∀ {line}, '\n' ∉ line → withReturns line = line
  | [], _ => rfl
  | c :: line, h => by
    obtain ⟨hc, hline⟩ := not_or.mp (mt mem_cons.mpr h)
    rw [withReturns_cons (Ne.symm hc), withReturns_of_notMem hline]

theorem withReturns_line {line} (h : '\n' ∉ line) (rest : List Char) :
    withReturns (line ++ '\n' :: rest) = (line ++ ['\r']) ++ '\n' :: withReturns rest := by
  rw [withReturns_append, withReturns_of_notMem h, withReturns_newline, append_assoc]
  rfl

/-- The character at `q` in a text that begins at `p`. -/
def charFrom? (p : Position) : List Char → Position → Option Char
  | [], _ => none
  | c :: text, q => if p = q then some c else charFrom? (p.next c) text q

/-- The character at a place in a text. -/
def charAt? (text : List Char) (q : Position) : Option Char := charFrom? .start text q

@[simp] theorem charFrom?_after {after} : ∀ (p : Position) (before : List Char),
    charFrom? p (before ++ c :: after) (p.after before) = some c
  | _, [] => if_pos rfl
  | p, b :: before => by
    rw [cons_append, charFrom?, if_neg (p.ne_after (cons_ne_nil b before))]
    exact charFrom?_after (p.next b) before

@[simp] theorem charFrom?_end :
    ∀ (p : Position) (text : List Char), charFrom? p text (p.after text) = none
  | _, [] => rfl
  | p, c :: text => by
    rw [charFrom?, if_neg (p.ne_after (cons_ne_nil c text))]
    exact charFrom?_end (p.next c) text

end Text

open Text (withReturns withReturns_append withReturns_newline withReturns_cons)

/-- A line feed sets the column back, whatever is in front of it. -/
@[simp] theorem Position.after_withReturns : ∀ (p : Position) (text : List Char),
    p.after (withReturns text) = p.after text
  | _, [] => rfl
  | p, c :: text => by
    by_cases hc : c = '\n'
    · subst hc
      rw [withReturns_newline]
      exact after_withReturns (p.next '\n') text
    · rw [withReturns_cons hc]
      exact after_withReturns (p.next c) text

/-! ## Pieces -/

namespace Token

variable {c : Char}

namespace Cut

variable {text} {part : List Char}

theorem Leads.drop_withReturns (h : Leads part text) :
    (withReturns text).drop part.length = withReturns (text.drop part.length) := by
  obtain ⟨rest, rfl⟩ := h.1
  simp [Text.withReturns_of_notMem h.2]

/-- What is the same at the end of a line and behind any other character is the same everywhere. -/
theorem eq_withReturns {α : Type} {f : List Char → α}
    (hbreak : ∀ text, f ('\r' :: '\n' :: withReturns text) = f ('\n' :: text))
    (hcons : ∀ c text, f (withReturns text) = f text → f (c :: withReturns text) = f (c :: text)) :
    ∀ text, f (withReturns text) = f text
  | [] => rfl
  | c :: text => by
    by_cases hc : c = '\n'
    · subst hc
      exact hbreak text
    · rw [withReturns_cons hc]
      exact hcons c text (eq_withReturns hbreak hcons text)

theorem takeWhile_withReturns {p} (hfeed : p '\n' = false) (hreturn : p '\r' = false) :
    ∀ text : List Char, (withReturns text).takeWhile p = text.takeWhile p := by
  refine eq_withReturns (fun text => ?_) fun c text ih => ?_
  · rw [takeWhile_cons_of_neg (by simp [hreturn]), takeWhile_cons_of_neg (by simp [hfeed])]
  · rw [takeWhile_cons, takeWhile_cons, ih]

@[simp] theorem fraction_withReturns :
    ∀ text : List Char, fraction (withReturns text) = fraction text := by
  refine eq_withReturns (fun _ => rfl) fun c text _ => ?_
  by_cases hdot : c = '.'
  · subst hdot
    rw [fraction, fraction, takeWhile_withReturns (by decide) (by decide)]
  · simp [fraction, hdot]

@[simp] theorem sign_withReturns : ∀ text : List Char, sign (withReturns text) = sign text := by
  refine eq_withReturns (fun _ => rfl) fun c text _ => ?_
  unfold sign
  split <;> simp_all

@[simp] theorem exponent_withReturns :
    ∀ text : List Char, exponent (withReturns text) = exponent text := by
  refine eq_withReturns (fun _ => rfl) fun c text _ => ?_
  rw [exponent, exponent, sign_withReturns, leads_sign.drop_withReturns,
    takeWhile_withReturns (by decide) (by decide)]

@[simp] theorem number_withReturns (text : List Char) :
    number (withReturns text) = number text := by
  have hwhole : Leads (text.takeWhile Char.isDigit) text := .takeWhile (by decide)
  have hpart := hwhole.append leads_fraction
  unfold number
  dsimp only
  rw [takeWhile_withReturns (by decide) (by decide), hwhole.drop_withReturns,
    fraction_withReturns, ← length_append, hpart.drop_withReturns, exponent_withReturns]

@[simp] theorem isWordChar_return : isWordChar '\r' = false := by decide +kernel

@[simp] theorem joins_withReturns (text : List Char) : joins (withReturns text) = joins text := by
  rw [joins, joins, takeWhile_withReturns isWordChar_newline isWordChar_return]

@[simp] theorem joinedWords_withReturns : ∀ text : List Char,
    joinedWords (withReturns text) = joinedWords text := by
  refine eq_withReturns (fun text => ?_) fun c text ih => ?_
  · rw [joinedWords, joinedWords, isWordChar_return, isWordChar_newline]
    rfl
  · simp [joinedWords, ih]

@[simp] theorem questionMark_withReturns : ∀ text : List Char,
    questionMark (withReturns text) = questionMark text := by
  refine eq_withReturns (fun _ => rfl) fun c text _ => ?_
  unfold questionMark
  split <;> simp_all

@[simp] theorem name_withReturns (text : List Char) : name (withReturns text) = name text := by
  have hwords := leads_joinedWords text
  unfold name
  dsimp only
  simp [takeWhile_withReturns isWordChar_newline isWordChar_return, hwords.drop_withReturns]

@[simp] theorem pair?_return (c : Char) : pair? c '\r' = none := by
  unfold pair?
  split <;> simp_all

@[simp] theorem symbol_withReturns (c : Char) : ∀ text : List Char,
    symbol c (withReturns text) = symbol c text := by
  refine eq_withReturns (fun text => ?_) fun d text _ => rfl
  have hfeed : pair? c '\n' = none :=
    Option.eq_none_iff_forall_ne_some.mpr fun kind h => pair?_ne_newline h rfl
  simp [symbol, hfeed]

/-- A quoted text that is closed is on one line. -/
theorem read_withReturns (offset : Nat) (text : List Char)
    (h : (Quoted.read offset text).closed = true) :
    Quoted.read offset (withReturns text) = Quoted.read offset text := by
  fun_induction Quoted.read offset text with
  | case1 | case2 => rfl
  | case3 | case4 | case5 => cases h
  | case6 offset c text hc ih =>
    rw [withReturns_cons (by decide), withReturns_cons (by simpa using hc),
      Quoted.read.eq_6 _ _ _ hc, ih h]
  | case7 offset c text hquote hc hlast hbreak hback ih =>
    have hplain : c ≠ '\\' := by
      intro hslash
      cases text with
      | nil => exact hlast hslash rfl
      | cons d text => exact hback d text hslash rfl
    rw [withReturns_cons (by simpa using hc), Quoted.read.eq_7 _ _ _ hquote hc
      (fun h => absurd h hplain) (fun _ h => absurd h hplain) (fun _ _ h => absurd h hplain), ih h]

theorem quoted_withReturns (h : (quoted text).faults = []) :
    quoted (withReturns text) = quoted text := by
  have hclosed : (Quoted.read 1 text).closed = true := by
    by_contra hopen
    simp [quoted, hopen] at h
  rw [quoted, quoted, read_withReturns 1 text hclosed]

end Cut

/-- **A carriage return ends the pieces that a line feed ends**, unless they are comments or have
faults. -/
theorem cut_withReturns {text} (hc : c ≠ '#') (h : (cut c text).faults = []) :
    cut c (withReturns text) = cut c text := by
  by_cases hbreak : c = '\n'
  · subst hbreak
    simp
  have hquoted : c = '\'' → Cut.quoted (withReturns text) = Cut.quoted text := by
    rintro rfl
    exact Cut.quoted_withReturns h
  unfold cut
  rw [← withReturns_cons hbreak, Cut.number_withReturns, Cut.symbol_withReturns,
    Cut.name_withReturns]
  simp only [beq_eq_false_iff_ne.mpr hc, Bool.false_eq_true, if_false]
  by_cases hquote : c = '\''
  · rw [hquoted hquote]
  · simp only [beq_eq_false_iff_ne.mpr hquote, Bool.false_eq_true, if_false]

/-- A comment goes on to the line feed. -/
theorem toLineEnd_withReturns {line} (h : '\n' ∉ line) (rest : List Char) :
    Cut.toLineEnd (withReturns (line ++ '\n' :: rest)) = line ++ ['\r'] := by
  rw [Text.withReturns_line h]
  refine Cut.toLineEnd_line (fun hmem => ?_) _
  exact (mem_append.mp hmem).elim h (by decide)

/-! ## Steps -/

namespace Scan

variable {text} {g : Position → Position} {s : Scan} {taken : List Char}

/-- The same scan where the text that is left has carriage returns, and line breaks are where `g`
says. -/
def returned (g : Position → Position) (s : Scan) : Scan :=
  { s with rest := withReturns s.rest, tokens := s.tokens.map (moved g) }

theorem move_returned (h : taken <+: s.rest) :
    (s.returned g).move (withReturns taken) = (s.move taken).returned g := by
  obtain ⟨rest, hrest⟩ := h
  unfold move returned
  rw [← hrest, withReturns_append, drop_left, drop_left, Position.after_withReturns]

theorem move_returned_line (h : Cut.Leads taken s.rest) :
    (s.returned g).move taken = (s.move taken).returned g := by
  rw [← move_returned h.1, Text.withReturns_of_notMem h.2]

@[simp] theorem emitDedents_returned (position : Position) (n : Nat) :
    (s.returned g).emitDedents position n = (s.emitDedents position n).returned g := by
  have hdedent : moved g ⟨.dedent, "", none, position⟩ = ⟨.dedent, "", none, position⟩ := rfl
  unfold emitDedents returned
  rw [map_append, map_replicate, hdedent]

@[simp] theorem lastIsNot_returned (kinds : List Kind) :
    (s.returned g).lastIsNot kinds = s.lastIsNot kinds := by
  unfold lastIsNot returned
  cases s.tokens <;> rfl

@[simp] theorem closeTo_returned (width : Nat) :
    (s.returned g).closeTo width = (s.closeTo width).returned g :=
  emitDedents_returned (s := { s with levels := s.levels.dropWhile (· > width) }) s.position _

@[simp] theorem indentTo_returned (width : Nat) (sound : Bool) :
    (s.returned g).indentTo width sound = (s.indentTo width sound).returned g := by
  have hlevel : ∀ s : Scan, (s.returned g).level = s.level := fun _ => rfl
  unfold indentTo
  rw [hlevel, closeTo_returned]
  dsimp only
  rw [hlevel]
  split
  · rfl
  · split <;> rfl

theorem leaveMargin_returned {margin} (h : Cut.Leads margin s.rest) :
    (s.returned g).leaveMargin margin = (s.leaveMargin margin).returned g := by
  have hmixed : (s.returned g).isMixed margin = s.isMixed margin := rfl
  have hpass : (s.returned g).passMargin margin = (s.passMargin margin).returned g := by
    unfold passMargin
    rw [move_returned_line h, hmixed]
    dsimp only
    split <;> rfl
  rw [leaveMargin, hpass, indentTo_returned]
  rfl

/-- A text is one line, or has a first one. -/
theorem line_cases (text : List Char) : (Cut.toLineEnd text = text ∧ '\n' ∉ text) ∨
    ∃ line rest, text = line ++ '\n' :: rest ∧ '\n' ∉ line := by
  have hleads : Cut.Leads (Cut.toLineEnd text) text := .takeWhile (by decide)
  rcases toLineEnd_cases text with htext | ⟨rest, htext⟩
  · exact .inl ⟨htext.symm, htext ▸ hleads.2⟩
  · exact .inr ⟨_, rest, htext, hleads.2⟩

theorem emptyLine?_comment (text : List Char) :
    emptyLine? (withReturns ('#' :: text)) = (emptyLine? ('#' :: text)).map withReturns := by
  rcases line_cases text with ⟨hend, hline⟩ | ⟨line, rest, rfl, hline⟩
  · have hcomment := Text.withReturns_of_notMem
      (not_mem_cons_of_ne_of_not_mem (show '\n' ≠ '#' by decide) hline)
    rw [hcomment, emptyLine?, hend, drop_length, take_nil, append_nil, Option.map_some, hcomment]
  · have hcomment := Text.withReturns_line
      (not_mem_cons_of_ne_of_not_mem (show '\n' ≠ '#' by decide) hline) []
    rw [withReturns_cons (by decide), emptyLine?, emptyLine?, toLineEnd_withReturns hline,
      Cut.toLineEnd_line hline, Text.withReturns_line hline, drop_left, drop_left]
    exact congrArg some hcomment.symm

/-- A line that holds nothing still does with carriage returns. -/
theorem emptyLine?_withReturns :
    ∀ {text}, '\r' ∉ text → emptyLine? (withReturns text) = (emptyLine? text).map withReturns
  | [], _ => rfl
  | c :: text, h => by
    by_cases hbreak : c = '\n'
    · subst hbreak
      rfl
    · by_cases hcomment : c = '#'
      · subst hcomment
        exact emptyLine?_comment text
      · have hreturn : c ≠ '\r' := fun hc => h (hc ▸ mem_cons_self)
        rw [withReturns_cons hbreak]
        simp [emptyLine?, hbreak, hcomment, hreturn]

theorem takeMargin_returned (h : '\r' ∉ s.rest) :
    (s.returned g).takeMargin = s.takeMargin.returned g := by
  have hleads := leads_margin s
  have hrest : (s.returned g).rest = withReturns s.rest := rfl
  have hdrop : '\r' ∉ s.rest.drop (s.rest.takeWhile isMargin).length :=
    fun hmem => h (mem_of_mem_drop hmem)
  unfold takeMargin
  dsimp only
  rw [hrest, Cut.takeWhile_withReturns (by decide) (by decide), hleads.drop_withReturns,
    emptyLine?_withReturns hdrop]
  cases hline : emptyLine? (s.rest.drop (s.rest.takeWhile isMargin).length) with
  | none => exact leaveMargin_returned hleads
  | some line =>
    have hmargin := Text.withReturns_of_notMem hleads.2
    have hmove := move_returned (g := g) ⟨_, (takes_emptyLine hline).rest.symm⟩
    rw [withReturns_append, hmargin] at hmove
    exact hmove

@[simp] theorem trackBrackets_returned (kind : Kind) (position : Position) :
    (s.returned g).trackBrackets kind position = (s.trackBrackets kind position).returned g := by
  have hbrackets : (s.returned g).brackets = s.brackets := rfl
  unfold trackBrackets
  rw [hbrackets]
  split
  · rfl
  · split
    · split <;> rfl
    · rfl
  · rfl

theorem addToken_returned {kind} (h : kind ∉ layoutKinds) (lexeme : List Char)
    (literal : Option Literal) :
    (s.returned g).addToken kind lexeme literal = (s.addToken kind lexeme literal).returned g := by
  have hposition : (s.returned g).position = s.position := rfl
  have hmoved : moved g ⟨kind, String.ofList lexeme, literal, s.position⟩
      = ⟨kind, String.ofList lexeme, literal, s.position⟩ := moved_of_notMem h
  rw [addToken, hposition, trackBrackets_returned, addToken, emit, emit, returned, returned,
    map_cons, hmoved]

theorem breakLine_returned (position : Position) :
    (s.returned g).breakLine (g position) = (s.breakLine position).returned g := by
  have hempty : (s.returned g).brackets.isEmpty = s.brackets.isEmpty := rfl
  unfold breakLine
  rw [hempty, lastIsNot_returned, lastIsNot_returned]
  split
  · dsimp only
    split <;> rfl
  · split <;> rfl

/-- A piece that is not a comment is the same with carriage returns. -/
theorem takePiece_returned (hrest : s.rest = c :: text)
    (hbreak : c ≠ '\n') (hcomment : c ≠ '#') (hclean : (cut c text).faults = []) :
    (s.returned g).takePiece = s.takePiece.returned g := by
  have hrest' : (s.returned g).rest = c :: withReturns text := by
    rw [← withReturns_cons hbreak, ← hrest]
    rfl
  have hline := onLine_cut hbreak text
  rw [takePiece, takePiece, hrest, hrest']
  dsimp only
  rw [cut_withReturns hcomment hclean]
  cases hpiece : (cut c text).piece with
  | skipped => exact move_returned_line (s := s.reportAll _) (hrest ▸ hline.leads)
  | lineBreak => exact absurd hpiece hline.piece_ne
  | token kind lexeme literal =>
    have hadd := addToken_returned (g := g) (s := s.reportAll (cut c text).faults)
      (cut_notMem_layoutKinds hpiece) lexeme literal
    refine (congrArg (move · (cut c text).taken) hadd).trans (move_returned_line ?_)
    rw [addToken_rest]
    exact hrest ▸ hline.leads

/-! A line feed is reached in two steps: over the carriage return, and over the line feed. -/

theorem rest_return (hrest : s.rest = '\n' :: text) :
    ((s.returned g).move ['\r']).rest = '\n' :: withReturns text :=
  congrArg (fun text => (withReturns text).drop 1) hrest

theorem step_return (h : s.atMargin = false) (hrest : s.rest = '\n' :: text) :
    (s.returned g).step = (s.returned g).move ['\r'] := by
  have hmargin : (s.returned g).atMargin = false := h
  have hrest' : (s.returned g).rest = '\r' :: '\n' :: withReturns text :=
    congrArg withReturns hrest
  rw [step, hmargin, if_neg Bool.false_ne_true]
  exact takePiece_skipped hrest' rfl

theorem step_newline (h : s.atMargin = false) (hrest : s.rest = '\n' :: text)
    (hg : g s.position = s.position.right 1) :
    ((s.returned g).move ['\r']).step = s.step.returned g := by
  have hmargin : ((s.returned g).move ['\r']).atMargin = false := h
  have hmove : ((s.returned g).move ['\r']).move ['\n'] = (s.move ['\n']).returned g := by
    rw [← move_returned ⟨text, hrest.symm⟩, move_move]
    rfl
  rw [step, hmargin, if_neg Bool.false_ne_true, takePiece_newline (rest_return hrest), hmove]
  rw [step, h, if_neg Bool.false_ne_true, takePiece_newline hrest, ← breakLine_returned, hg]
  rfl

/-! ## Whole scans -/

/-- Of the text behind `p`, `g` moves the line feeds by one column, and not the end. -/
structure Shifts (g : Position → Position) (p : Position) (text : List Char) : Prop where
  feed : ∀ before after, text = before ++ '\n' :: after →
    g (p.after before) = (p.after before).right 1
  last : g (p.after text) = p.after text

theorem Shifts.behind {p rest} (h : Shifts g p (taken ++ rest)) :
    Shifts g (p.after taken) rest := by
  refine ⟨fun before after hrest => ?_, ?_⟩
  · rw [← Position.after_append]
    exact h.feed (taken ++ before) after (by rw [hrest, append_assoc])
  · rw [← Position.after_append]
    exact h.last

theorem Shifts.step (h : Shifts g s.position s.rest) (hne : s.rest ≠ []) :
    Shifts g s.step.position s.step.rest := by
  obtain ⟨taken, htakes, -⟩ := takes_step hne
  rw [htakes.rest] at h
  rw [htakes.position]
  exact h.behind

theorem Shifts.complete (h : Shifts g s.position s.rest) :
    g s.complete.position = s.complete.position := by
  induction s using induction_steps with
  | done s hrest =>
    rw [complete_of_rest_eq_nil hrest]
    have hlast := h.last
    rwa [hrest] at hlast
  | step s hne ih =>
    rw [← complete_step hne]
    exact ih (h.step hne)

theorem returned_rest_ne_nil (h : s.rest ≠ []) : (s.returned g).rest ≠ [] := by
  obtain ⟨c, text, hrest⟩ := exists_cons_of_ne_nil h
  have hrest' : (s.returned g).rest = withReturns (c :: text) := congrArg withReturns hrest
  rw [hrest']
  by_cases hc : c = '\n'
  · subst hc
    exact cons_ne_nil _ _
  · rw [withReturns_cons hc]
    exact cons_ne_nil _ _

/-- In front of a line feed it makes no difference whether the carriage return was passed. -/
theorem complete_return (h : s.atMargin = false) (hrest : s.rest = '\n' :: text) :
    ((s.returned g).move ['\r']).complete = (s.returned g).complete := by
  rw [← step_return h hrest]
  exact complete_step (returned_rest_ne_nil (hrest ▸ cons_ne_nil _ _))

/-- A comment takes the carriage return at its end. -/
theorem complete_comment (h : s.atMargin = false) (hrest : s.rest = '#' :: text) :
    (s.returned g).takePiece.complete = (s.takePiece.returned g).complete := by
  have hrest' : (s.returned g).rest = '#' :: withReturns text := by
    rw [← withReturns_cons (by decide), ← hrest]
    rfl
  rw [takePiece_skipped hrest rfl, takePiece_skipped hrest' rfl]
  rcases line_cases text with ⟨hend, hline⟩ | ⟨line, rest, rfl, hline⟩
  · have hleads : Cut.Leads ('#' :: text) s.rest := by
      rw [hrest]
      exact .cons (by decide) ⟨prefix_refl text, hline⟩
    rw [Text.withReturns_of_notMem hline, hend, move_returned_line hleads]
  · have hleads : Cut.Leads ('#' :: line) s.rest := by
      rw [hrest]
      exact .cons (by decide) ⟨prefix_append line _, hline⟩
    have hbehind : (s.move ('#' :: line)).rest = '\n' :: rest := by
      rw [move, hrest]
      exact drop_left
    -- one scan stands before the line feed, the other before it and behind the carriage return
    rw [toLineEnd_withReturns hline, Cut.toLineEnd_line hline, ← cons_append, ← move_move,
      move_returned_line hleads]
    exact complete_return h hbehind

/-- **A step comes to the same with carriage returns.** -/
theorem complete_step_returned (hne : s.rest ≠ []) (hreturn : '\r' ∉ s.rest)
    (hg : Shifts g s.position s.rest) (hclean : s.step.faults = []) :
    (s.returned g).complete = (s.step.returned g).complete := by
  have hmargin : (s.returned g).atMargin = s.atMargin := rfl
  have hstep := complete_step (returned_rest_ne_nil (g := g) hne)
  cases h : s.atMargin with
  | true =>
    -- a margin has no line feed in it, and a line that holds nothing is taken up to its own
    rw [← hstep, step, hmargin, step, h, if_pos rfl, if_pos rfl, takeMargin_returned hreturn]
  | false =>
    obtain ⟨c, text, hrest⟩ := exists_cons_of_ne_nil hne
    by_cases hc : c = '\n'
    · -- two steps for one
      subst hc
      have hrest' : ((s.returned g).move ['\r']).rest ≠ [] := rest_return hrest ▸ cons_ne_nil _ _
      rw [← complete_return h hrest, ← step_newline h hrest (hg.feed [] text hrest),
        complete_step hrest']
    · have hpiece : s.step = s.takePiece := by rw [step, h, if_neg Bool.false_ne_true]
      have hclean' := (takePiece_eq_nil hrest hc (hpiece ▸ hclean)).2
      rw [← hstep, step, hmargin, h, if_neg Bool.false_ne_true, hpiece]
      by_cases hcomment : c = '#'
      · subst hcomment
        exact complete_comment h hrest
      · rw [takePiece_returned hrest hc hcomment hclean']

/-- **A scan comes to the same with carriage returns.** -/
theorem complete_returned (hreturn : '\r' ∉ s.rest) (hg : Shifts g s.position s.rest)
    (hclean : s.complete.faults = []) : (s.returned g).complete = s.complete.returned g := by
  induction s using induction_steps with
  | done s h =>
    have hrest : (s.returned g).rest = [] := congrArg withReturns h
    rw [complete_of_rest_eq_nil h, complete_of_rest_eq_nil hrest]
  | step s h ih =>
    obtain ⟨taken, htakes, -⟩ := takes_step h
    rw [← complete_step h] at hclean ⊢
    rw [complete_step_returned h hreturn hg (complete_eq_nil hclean)]
    refine ih (fun hmem => hreturn ?_) (hg.step h) hclean
    rw [htakes.rest]
    exact mem_append_right taken hmem

theorem finish_returned (h : g s.position = s.position) :
    (s.returned g).finish = s.finish.returned g := by
  have hopen : (s.returned g).reportOpen = s.reportOpen.returned g := rfl
  unfold finish
  dsimp only
  rw [hopen, lastIsNot_returned]
  have hposition : g s.reportOpen.position = s.reportOpen.position := h
  split
  · simp [returned, emit, emitDedents, moved, lineBreaks, hposition]
  · simp [returned, emit, emitDedents, moved, lineBreaks]

end Scan

/-- Where a place in a text is once carriage returns are in it: a line feed is behind one. -/
def besideReturn (text : List Char) (p : Position) : Position :=
  if Text.charAt? text p = some '\n' then p.right 1 else p

theorem shifts_besideReturn : Scan.Shifts (besideReturn text) .start text := by
  refine ⟨fun before after htext => if_pos ?_, if_neg ?_⟩
  · rw [htext]
    exact Text.charFrom?_after .start before
  · rw [Text.charAt?, Text.charFrom?_end]
    exact Option.some_ne_none _ ∘ Eq.symm

theorem moved_besideReturn (t : Token) : t.moved (besideReturn text)
    = if t.kind ∈ [.newline, .softNewline] ∧ Text.charAt? text t.position = some '\n' then
        { t with position := t.position.right 1 }
      else t := by
  by_cases hkind : t.kind ∈ lineBreaks
  · by_cases hfeed : Text.charAt? text t.position = some '\n'
    · rw [if_pos ⟨hkind, hfeed⟩, moved, if_pos hkind, besideReturn, if_pos hfeed]
    · rw [if_neg fun h => hfeed h.2, moved, if_pos hkind, besideReturn, if_neg hfeed]
  · rw [if_neg fun h => hkind h.1, moved, if_neg hkind]

/-- **A text without faults has the same tokens with carriage returns**, but for the places of line
breaks at line feeds. -/
theorem scan_withReturns {text} (hreturn : '\r' ∉ text) (h : (scan text).faults = []) :
    scan (withReturns text) = ⟨(scan text).tokens.map (moved (besideReturn text)), []⟩ := by
  have hstart : Scan.start (withReturns text)
      = (Scan.start text).returned (besideReturn text) := rfl
  rw [scan_eq] at h
  have hclean := Scan.finish_eq_nil (reverse_eq_nil_iff.mp h)
  have hshifts : Scan.Shifts (besideReturn text) (Scan.start text).position
      (Scan.start text).rest := shifts_besideReturn text
  rw [scan_eq (withReturns text), hstart, Scan.complete_returned hreturn hshifts hclean,
    Scan.finish_returned hshifts.complete, scan_eq text, Scan.toScanned, Scan.toScanned,
    map_reverse]
  exact congrArg (Scanned.mk _) h

end Token

/-! ## Sessions -/

namespace Session

@[simp] theorem count_absorb (session : Session) (source : List Char) (ds : List Diagnostic)
    (category : Diagnostic.Category) :
    (session.absorb source ds).count category
      = session.count category + Diagnostic.count category ds := by
  have hcategory : ((fun d : Diagnostic => decide (d.category = category)) ∘ withLineText source)
      = fun d => decide (d.category = category) :=
    funext fun d => by simp [Function.comp_apply]
  rw [count, absorb, Diagnostic.count, countP_append, countP_map, hcategory]
  rfl

/-- What becomes of a program does not depend on the text that its diagnostics quote. -/
theorem outcome_compileProgram (session : Session) (source source' : List Char)
    (program : List Stmt) :
    (session.compileProgram source program).map (·.2)
      = (session.compileProgram source' program).map (·.2) := by
  unfold compileProgram
  cases Checker.start.check program with
  | none => rfl
  | some result =>
    obtain ⟨c, verdicts⟩ := result
    dsimp only
    rw [count_absorb, count_absorb]
    split <;> rfl

theorem count_readReports (g : Position → Position) (reports : List Parser.Report)
    (category : Diagnostic.Category) :
    Diagnostic.count category ((reports.map (Parser.Report.moved g)).map (·.toDiagnostic))
      = Diagnostic.count category (reports.map (·.toDiagnostic)) := by
  simp only [Diagnostic.count, countP_map]
  rfl

/-- A source with carriage returns is read as the same program. -/
theorem read_withReturns {source} (hreturn : '\r' ∉ source) (h : (scan source).faults = []) :
    read (withReturns source) = (read source).moved (besideReturn source) := by
  rw [read, scan_withReturns hreturn h]
  exact ofTokens_moved (exists_eof_scan source)

/-- **What becomes of a source does not depend on carriage returns.** -/
theorem outcome_compile_withReturns {source} (hreturn : '\r' ∉ source)
    (h : (scan source).faults = []) (session : Session) :
    (session.compile (withReturns source)).map (·.2) = (session.compile source).map (·.2) := by
  have hscan : scanReports source = [] := map_eq_nil_iff.mpr h
  have hscan' : scanReports (withReturns source) = [] := by
    rw [scanReports, scan_withReturns hreturn h]
    rfl
  have hprogram : (read (withReturns source)).program? = (read source).program? := by
    rw [read_withReturns hreturn h]
    simp only [Parsed.program?, Parsed.moved, isEmpty_map]
  unfold compile
  dsimp only
  rw [← scanReports, ← scanReports, hscan, hscan', absorb_nil, absorb_nil, ← read, ← read, hprogram]
  split
  · rfl
  by_cases hnil : (read source).reports = []
  · have hnil' : (read (withReturns source)).reports = [] := by
      rw [read_withReturns hreturn h, Parsed.moved, hnil]
      rfl
    rw [hnil, hnil', map_nil, absorb_nil, absorb_nil]
    cases (read source).program? with
    | none => rfl
    | some program => exact outcome_compileProgram session _ _ program
  · have hnone : (read source).program? = none := by
      rw [read, Parsed.program?_ofTokens]
      exact if_neg hnil
    rw [hnone, read_withReturns hreturn h]
    dsimp only [Parsed.moved]
    rw [Option.map_some, Option.map_some, count_absorb, count_absorb, count_readReports]

end Session

/-- **Carriage returns make no difference.**  A text without them that is scanned without faults is
so with one in front of every line feed.  It has the same tokens then, except that the line breaks
that stand at line feeds are one column further; and in every session it comes to the same, with the
same code. -/
theorem compile_withReturns (hreturn : '\r' ∉ text) (hclean : (scan text).faults = []) :
    (scan (withReturns text)).faults = [] ∧
      (scan (withReturns text)).tokens = (scan text).tokens.map (fun t =>
        if t.kind ∈ [.newline, .softNewline] ∧ Text.charAt? text t.position = some '\n' then
          { t with position := t.position.right 1 }
        else t) ∧
      ∀ session : Session,
        (session.compile (withReturns text)).map (·.2) = (session.compile text).map (·.2) := by
  rw [scan_withReturns hreturn hclean]
  exact ⟨rfl, map_congr_left fun t _ => moved_besideReturn text t,
    Session.outcome_compile_withReturns hreturn hclean⟩

/-- A source with a comment and a line break in brackets, and without a line feed at its end. -/
def brokenList : String := "var x: [1, # one\n  2]\nvar y: x"

theorem compile_withReturns_brokenList :
    '\r' ∉ brokenList.toList ∧ (scan brokenList.toList).faults = [] ∧
      (scan (withReturns brokenList.toList)).faults = [] ∧
      ((scan (withReturns brokenList.toList)).tokens.filter
        (·.lexeme = "\n")).map (·.position) = [⟨1, 17⟩, ⟨2, 5⟩, ⟨3, 8⟩] ∧
      ((Session.start ⟨.emit, ""⟩).compile (withReturns brokenList.toList)).map (·.2)
        = ((Session.start ⟨.emit, ""⟩).compile brokenList.toList).map (·.2) := by
  have hreturn : '\r' ∉ brokenList.toList := by decide +kernel
  have hclean : (scan brokenList.toList).faults = [] := by decide +kernel
  obtain ⟨hfaults, htokens, hcompile⟩ := compile_withReturns brokenList.toList hreturn hclean
  refine ⟨hreturn, hclean, hfaults, ?_, hcompile _⟩
  rw [htokens]
  decide +kernel

end Offside
