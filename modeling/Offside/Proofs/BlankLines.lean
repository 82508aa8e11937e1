import Offside.Proofs.LineStarts
import Offside.Session

/-!
# Proofs/BlankLines — when a blank line leaves no trace

A blank line is spacing with perhaps a comment behind it.  At a margin a scan knows it by what
stands behind its spaces and tabs: the line break, or a comment.  Where a no-break space or a lone
carriage return stands there, the line is taken for one that holds something, and its margin counts.

`scan_insert_iff` says exactly when a blank line can be put in, whatever follows, with no change to
the tokens and diagnostics of a text but the numbers of the lines further down: inside brackets,
where the line is known to be blank, and where its margin is that of the block and tells nothing new
(`Passes`).  `scan_noBreakSpace` is a blank line that closes a block.
-/

namespace Offside

open List

/-- The number of a line once another has been put in behind the first `k` lines. -/
def lineAfterInsert (k line : Nat) : Nat := if k < line then line + 1 else line

/-- The tokens and faults with their lines numbered otherwise. -/
def Token.Scanned.renumber (g : Nat → Nat) (scanned : Scanned) : Scanned :=
  ⟨scanned.tokens.map (Token.renumber g),
    scanned.faults.map fun (position, fault) => (position.renumber g, fault)⟩

/-- The diagnostic with its line numbered otherwise. -/
def Diagnostic.renumber (g : Nat → Nat) (d : Diagnostic) : Diagnostic :=
  { d with position := d.position.renumber g }

namespace Token.Scan

variable {s : Scan} {line after margin : List Char} {width k : Nat} {c : Char}

/-! ## Blank lines -/

/-- Spacing, and perhaps a comment behind it. -/
inductive Blank : List Char → Prop where
  | nil : Blank []
  | comment {text} (h : '\n' ∉ text) : Blank ('#' :: text)
  | spacing {c later} (hc : isSpacing c = true) (h : Blank later) : Blank (c :: later)

theorem Blank.newline_not_mem (h : Blank line) : '\n' ∉ line := by
  induction h with
  | nil => exact not_mem_nil
  | comment h => exact not_mem_cons_of_ne_of_not_mem (by decide) h
  | spacing hc _ ih =>
    refine not_mem_cons_of_ne_of_not_mem (fun heq => ?_) ih
    rw [← heq] at hc
    exact absurd hc (by decide)

/-- The margin of a line. -/
def marginOf (line : List Char) : List Char := line.takeWhile isMargin

/-- What stands behind the margin of a line. -/
def behindMargin (line : List Char) : List Char := line.drop (marginOf line).length

theorem Blank.behindMargin (h : Blank line) : Blank (behindMargin line) := by
  induction h with
  | nil => exact .nil
  | comment h => exact .comment h
  | @spacing c later hc h ih =>
    unfold Scan.behindMargin marginOf at ih ⊢
    rw [takeWhile_cons]
    split
    · exact ih
    · exact .spacing hc h

/-- The line is seen to hold nothing: behind its margin it ends, with or without a carriage return,
or has a comment. -/
def SeenBlank (line : List Char) : Prop :=
  behindMargin line = [] ∨ behindMargin line = ['\r'] ∨ (behindMargin line).head? = some '#'

instance (line : List Char) : Decidable (SeenBlank line) :=
  inferInstanceAs (Decidable (_ ∨ _ ∨ _))

theorem emptyLine?_of_blank (h : Blank line) (after : List Char) :
    emptyLine? (line ++ '\n' :: after) = if line = [] ∨ line = ['\r'] ∨ line.head? = some '#' then
      some (line ++ ['\n']) else none := by
  cases h with
  | nil => rfl
  | comment h =>
    rw [cons_append, emptyLine?, Cut.toLineEnd_line h, drop_left]
    simp
  | @spacing c later hc h =>
    by_cases hreturn : c = '\r'
    · subst hreturn
      cases later with
      | nil => rfl
      | cons d later =>
        have hd : d ≠ '\n' := fun heq => h.newline_not_mem (heq ▸ mem_cons_self)
        simp [emptyLine?, hd]
    · have hbreak : c ≠ '\n' := fun heq => absurd (heq ▸ hc) (by decide)
      have hcomment : c ≠ '#' := fun heq => absurd (heq ▸ hc) (by decide)
      simp [emptyLine?, hreturn, hbreak, hcomment]

@[simp] theorem marginOf_append_behindMargin (line : List Char) :
    marginOf line ++ behindMargin line = line :=
  prefix_iff_eq_append.mp (List.takeWhile_prefix isMargin)

theorem emptyLine?_behindMargin (h : Blank line) (after : List Char) :
    emptyLine? (behindMargin line ++ '\n' :: after)
      = if SeenBlank line then some (behindMargin line ++ ['\n']) else none :=
  emptyLine?_of_blank h.behindMargin after

/-! ## Over a blank line -/

@[simp] theorem move_move (a b : List Char) : (s.move a).move b = s.move (a ++ b) := by
  simp [move]

theorem takePiece_skipped {text taken} (h : s.rest = c :: text)
    (hcut : cut c text = ⟨taken, .skipped, []⟩) : s.takePiece = s.move taken := by
  rw [takePiece, h]
  dsimp only
  rw [hcut]
  rfl

theorem complete_of_step (h : s.atMargin = false) (hne : s.rest ≠ []) :
    s.complete = s.takePiece.complete := by
  rw [← complete_step hne, step, h, if_neg Bool.false_ne_true]

/-- Behind a margin, a blank line is taken in pieces up to its line break. -/
theorem complete_of_blank (hline : Blank line) (h : s.atMargin = false)
    (hrest : s.rest = line ++ '\n' :: after) : s.complete
      = ((s.move (line ++ ['\n'])).breakLine (s.position.after line)).complete := by
  have hbreak : ∀ {s : Scan}, s.atMargin = false → s.rest = '\n' :: after →
      s.complete = ((s.move ['\n']).breakLine s.position).complete := by
    intro s h hrest
    rw [complete_of_step h (hrest ▸ cons_ne_nil _ _), takePiece_newline hrest]
  induction hline generalizing s with
  | nil => exact hbreak h hrest
  | @comment text htext =>
    have hcut : cut '#' (text ++ '\n' :: after) = ⟨'#' :: text, .skipped, []⟩ := by
      rw [cut, Cut.toLineEnd_line htext]
      rfl
    have hdrop : (s.move ('#' :: text)).rest = '\n' :: after := by
      rw [move, hrest, drop_left]
    rw [complete_of_step h (hrest ▸ cons_ne_nil _ _), takePiece_skipped hrest hcut,
      hbreak (s := s.move ('#' :: text)) h hdrop, move_move]
    rfl
  | @spacing c later hc hlater ih =>
    have hcut : cut c (later ++ '\n' :: after) = ⟨[c], .skipped, []⟩ := by rw [cut, if_pos hc]
    have hdrop : (s.move [c]).rest = later ++ '\n' :: after := by
      rw [move, hrest]
      rfl
    rw [complete_of_step h (hrest ▸ cons_ne_nil _ _), takePiece_skipped hrest hcut,
      ih (s := s.move [c]) h hdrop, move_move]
    rfl

/-- The scan before another text. -/
def reading (text : List Char) (s : Scan) : Scan := { s with rest := text }

/-- The scan one line further down, before another text. -/
def below (text : List Char) (s : Scan) : Scan :=
  { s with rest := text, position := ⟨s.position.line + 1, 0⟩ }

theorem move_line (h : '\n' ∉ line) :
    (s.reading (line ++ '\n' :: after)).move (line ++ ['\n']) = s.below after := by
  have hdrop : (line ++ '\n' :: after).drop (line ++ ['\n']).length = after := by
    rw [append_cons line '\n' after, drop_left]
  unfold move reading below
  rw [hdrop, Position.after_line s.position h]

theorem complete_inside (h : LineStart s) (hopen : s.brackets ≠ []) (hline : Blank line) :
    (s.reading (line ++ '\n' :: after)).complete = (s.below after).complete := by
  obtain ⟨-, hnil, -⟩ | ⟨hmargin, -, hlast⟩ := h.betweenLines
  · exact absurd hnil hopen
  · have hbreak : ∀ position, (s.below after).breakLine position = s.below after := by
      intro position
      have hbrackets : (s.below after).brackets.isEmpty = false := by
        rw [isEmpty_eq_false_iff]
        exact hopen
      have hsame : (s.below after).lastIsNot [.softNewline] = false := hlast
      rw [breakLine, hbrackets, hsame, if_neg Bool.false_ne_true, if_neg Bool.false_ne_true]
    rw [complete_of_blank (s := s.reading (line ++ '\n' :: after)) hline hmargin rfl,
      move_line hline.newline_not_mem, hbreak]

theorem reading_ne_nil (s : Scan) (line after : List Char) :
    (s.reading (line ++ '\n' :: after)).rest ≠ [] :=
  append_ne_nil_of_right_ne_nil line (cons_ne_nil _ _)

/-- At a margin, a blank line is taken as a whole if it is seen to be one. -/
theorem step_blank (hmargin : s.atMargin = true) (hline : Blank line) :
    (s.reading (line ++ '\n' :: after)).step = if SeenBlank line then s.below after
      else (s.reading (line ++ '\n' :: after)).leaveMargin (marginOf line) := by
  have hread : (s.reading (line ++ '\n' :: after)).rest.takeWhile isMargin = marginOf line :=
    Cut.takeWhile_line isMargin_newline after line
  have hbehind : (s.reading (line ++ '\n' :: after)).rest.drop (marginOf line).length
      = behindMargin line ++ '\n' :: after :=
    drop_append_of_le_length (List.takeWhile_prefix isMargin).length_le
  rw [step, if_pos (show (s.reading (line ++ '\n' :: after)).atMargin = true from hmargin),
    takeMargin, hread, hbehind, emptyLine?_behindMargin hline]
  by_cases hseen : SeenBlank line
  · rw [if_pos hseen, if_pos hseen]
    dsimp only
    rw [← append_assoc, marginOf_append_behindMargin, move_line hline.newline_not_mem]
  · rw [if_neg hseen, if_neg hseen]

@[simp] theorem indentTo_reading (text : List Char) (width : Nat) (sound : Bool) :
    (s.reading text).indentTo width sound = (s.indentTo width sound).reading text := by
  have hlevel : (s.reading text).level = s.level := rfl
  have hclose : (s.reading text).closeTo width = (s.closeTo width).reading text := rfl
  have hclosed : ((s.closeTo width).reading text).level = (s.closeTo width).level := rfl
  unfold indentTo
  rw [hlevel, hclose]
  dsimp only
  rw [hclosed]
  split
  · rfl
  · split <;> rfl

@[simp] theorem leaveMargin_reading (text margin : List Char) : (s.reading text).leaveMargin margin
      = (s.leaveMargin margin).reading (text.drop margin.length) := by
  have hmixed : (s.reading text).isMixed margin = s.isMixed margin := rfl
  have hpass : (s.reading text).passMargin margin
      = (s.passMargin margin).reading (text.drop margin.length) := by
    unfold passMargin
    rw [hmixed]
    dsimp only
    split <;> rfl
  rw [leaveMargin, hpass, hmixed, indentTo_reading]
  rfl

@[simp] theorem breakLine_below (text : List Char) (position : Position) :
    (s.below text).breakLine position = (s.breakLine position).below text := by
  have hlast : ∀ kinds, (s.below text).lastIsNot kinds = s.lastIsNot kinds := fun _ => rfl
  have hbrackets : (s.below text).brackets = s.brackets := rfl
  unfold breakLine
  rw [hbrackets, hlast, hlast]
  split
  · dsimp only
    split <;> rfl
  · split <;> rfl

/-- A blank line that is not seen to be one is left behind its margin. -/
theorem complete_unseen (hmargin : s.atMargin = true) (hline : Blank line)
    (hseen : ¬ SeenBlank line) : (s.reading (line ++ '\n' :: after)).complete
      = (((s.leaveMargin (marginOf line)).breakLine (s.position.after line)).below
          after).complete := by
  have hleft : (s.leaveMargin (marginOf line)).atMargin = false :=
    leaveMargin_frame Scan.atMargin (fun _ _ _ _ => rfl) s _
  have hposition : ((s.leaveMargin (marginOf line)).reading
      (behindMargin line ++ '\n' :: after)).position = s.position.after (marginOf line) :=
    leaveMargin_frame Scan.position (fun _ _ _ _ => rfl) s _
  have hbehind : (line ++ '\n' :: after).drop (marginOf line).length
      = behindMargin line ++ '\n' :: after :=
    drop_append_of_le_length (List.takeWhile_prefix isMargin).length_le
  rw [← complete_step (reading_ne_nil s line after), step_blank hmargin hline, if_neg hseen,
    leaveMargin_reading, hbehind,
    complete_of_blank (s := (s.leaveMargin _).reading (behindMargin line ++ '\n' :: after))
      hline.behindMargin hleft rfl,
    move_line hline.behindMargin.newline_not_mem, breakLine_below, hposition,
    ← Position.after_append, marginOf_append_behindMargin]

/-! ## Margins that change nothing -/

theorem takeWhile_levels_eq_nil_iff : s.levels.takeWhile (· > width) = [] ↔ s.level ≤ width := by
  unfold level
  cases s.levels with
  | nil => simp
  | cons l outer => simp [takeWhile_cons]

theorem closeTo_of_level_le (h : s.level ≤ width) : s.closeTo width = s := by
  have hnone := takeWhile_levels_eq_nil_iff.mpr h
  have hall : s.levels.dropWhile (· > width) = s.levels := by
    have hsplit := takeWhile_append_dropWhile (p := (· > width)) (l := s.levels)
    rwa [hnone, nil_append] at hsplit
  rw [closeTo, hnone, hall]
  rfl

@[simp] theorem indentTo_level (s : Scan) (sound : Bool) : s.indentTo s.level sound = s := by
  rw [indentTo, if_neg (Nat.lt_irrefl _), closeTo_of_level_le (Nat.le_refl _)]
  simp

theorem leaveMargin_level (hwidth : margin.length = s.level) :
    s.leaveMargin margin = s.passMargin margin := by
  have hlevel : (s.passMargin margin).level = s.level :=
    passMargin_frame Scan.level (fun _ _ => rfl) s margin
  rw [leaveMargin, hwidth, ← hlevel]
  exact indentTo_level _ _

theorem breakLine_of_closed (hclosed : s.brackets = []) (hlast : s.lastIsNot [.newline] = false)
    (position : Position) : s.breakLine position = { s with atMargin := true } := by
  rw [breakLine, hclosed, hlast, isEmpty_nil, if_pos rfl]
  exact if_neg Bool.false_ne_true

@[simp] theorem line_after_marginOf (line : List Char) (position : Position) :
    (position.after (marginOf line)).line = position.line := by
  have hleads : Cut.Leads (marginOf line) line := .takeWhile isMargin_newline
  rw [Position.after_eq_right position _ hleads.2]
  rfl

/-- A margin of the width of the block that mixes nothing leaves the scan as it is, but for what
indentation is made of. -/
theorem complete_level (h : LineStart s) (hclosed : s.brackets = []) (hline : Blank line)
    (hseen : ¬ SeenBlank line) (hwidth : (marginOf line).length = s.level)
    (hmixed : s.isMixed (marginOf line) = false) : (s.reading (line ++ '\n' :: after)).complete
      = ({ s with margin := s.margin <|> marginChar? (marginOf line) }.below after).complete := by
  obtain ⟨hmargin, -, hlast⟩ | ⟨-, hopen, -⟩ := h.betweenLines
  · have hpass : s.passMargin (marginOf line) = { s.move (marginOf line) with
        atMargin := false, margin := s.margin <|> marginChar? (marginOf line) } := by
      rw [passMargin, hmixed]
      rfl
    have hbrackets : (s.passMargin (marginOf line)).brackets = [] :=
      (passMargin_frame Scan.brackets (fun _ _ => rfl) s _).trans hclosed
    have hnewest : (s.passMargin (marginOf line)).lastIsNot [.newline] = false :=
      (passMargin_frame (lastIsNot · [.newline]) (fun _ _ => rfl) s _).trans hlast
    have hsame : ((s.leaveMargin (marginOf line)).breakLine (s.position.after line)).below after
        = { s with margin := s.margin <|> marginChar? (marginOf line) }.below after := by
      rw [leaveMargin_level hwidth, breakLine_of_closed hbrackets hnewest, hpass]
      unfold below move
      simp only [line_after_marginOf, hmargin]
    rw [complete_unseen hmargin hline hseen, hsame]
  · exact absurd hclosed hopen

/-- The blank line leaves no trace on a scan that stands at its beginning: a bracket is open, the
line is seen to be blank, or its margin changes nothing. -/
def Passes (s : Scan) (line : List Char) : Prop :=
  s.brackets ≠ [] ∨ SeenBlank line ∨
    ((marginOf line).length = s.level ∧ s.isMixed (marginOf line) = false ∧
      (s.margin <|> marginChar? (marginOf line)) = s.margin)

instance (s : Scan) (line : List Char) : Decidable (Passes s line) :=
  inferInstanceAs (Decidable (_ ∨ _ ∨ (_ ∧ _ ∧ _)))

/-- **A blank line that leaves no trace is a line that the scan goes further down.** -/
theorem complete_of_passes (h : LineStart s) (hline : Blank line) (hpasses : Passes s line) :
    (s.reading (line ++ '\n' :: after)).complete = (s.below after).complete := by
  by_cases hopen : s.brackets = []
  · obtain ⟨hmargin, -, -⟩ | ⟨-, hnot, -⟩ := h.betweenLines
    · by_cases hseen : SeenBlank line
      · rw [← complete_step (reading_ne_nil s line after), step_blank hmargin hline, if_pos hseen]
      · obtain ⟨hwidth, hmixed, hsame⟩ := (hpasses.resolve_left (absurd hopen)).resolve_left hseen
        rw [complete_level h hopen hline hseen hwidth hmixed, hsame]
    · exact absurd hopen hnot
  · exact complete_inside h hopen hline

/-! ## Margins that change something -/

theorem length_tokens_finish (s : Scan) : s.finish.tokens.length
    = s.tokens.length + (s.lastIsNot [.newline, .dedent]).toNat + s.levels.length + 1 := by
  have hlast : s.reportOpen.lastIsNot [.newline, .dedent] = s.lastIsNot [.newline, .dedent] := rfl
  unfold finish
  dsimp only
  rw [hlast]
  cases s.lastIsNot [.newline, .dedent] with
  | true =>
    simp [emit, emitDedents, reportOpen]
    omega
  | false =>
    simp [emit, emitDedents, reportOpen]
    omega

theorem length_faults_finish (s : Scan) :
    s.finish.faults.length = s.faults.length + s.brackets.length := by
  unfold finish
  dsimp only
  split <;> simp [emit, emitDedents, reportOpen, Nat.add_comm]

theorem lastIsNot_newline_dedent (h : s.lastIsNot [.newline] = false) :
    s.lastIsNot [.newline, .dedent] = false := by
  unfold lastIsNot at h ⊢
  split at h
  · rfl
  · next t _ _ =>
    have hkind : t.kind = .newline := by simpa using h
    simp [hkind]

theorem length_closeTo (width : Nat) :
    (s.closeTo width).tokens.length + (s.closeTo width).levels.length
      = s.tokens.length + s.levels.length := by
  have hsplit := congrArg length (takeWhile_append_dropWhile (p := (· > width)) (l := s.levels))
  rw [length_append] at hsplit
  simp only [closeTo, emitDedents, length_append, length_replicate]
  omega

theorem lastIsNot_closeTo (h : ¬ s.level ≤ width) :
    (s.closeTo width).lastIsNot [.newline] = true := by
  have hsome : s.levels.takeWhile (· > width) ≠ [] := fun hnil =>
    h (takeWhile_levels_eq_nil_iff.mp hnil)
  obtain ⟨l, closed, hclosed⟩ := exists_cons_of_ne_nil hsome
  rw [closeTo, hclosed]
  rfl

/-- Where a line break follows, only a margin of the width of the block leaves the number of tokens
and open blocks as it is. -/
theorem width_eq_level (width : Nat) (sound : Bool) (hcount : (s.indentTo width sound).tokens.length
      + ((s.indentTo width sound).lastIsNot [.newline]).toNat
      + (s.indentTo width sound).levels.length = s.tokens.length + s.levels.length) :
    width = s.level := by
  have hclose := length_closeTo (s := s) width
  unfold indentTo at hcount
  split at hcount
  · simp [emit] at hcount
    omega
  · next hle =>
    have hsame : (s.closeTo width).tokens.length + ((s.closeTo width).lastIsNot [.newline]).toNat
        + (s.closeTo width).levels.length = s.tokens.length + s.levels.length := by
      dsimp only at hcount
      split at hcount
      · exact hcount
      · exact hcount
    by_cases hlevel : s.level ≤ width
    · omega
    · rw [lastIsNot_closeTo hlevel, Bool.toNat_true] at hsame
      omega

theorem width_eq_level_of_leaveMargin (hcount : (s.leaveMargin margin).tokens.length
      + ((s.leaveMargin margin).lastIsNot [.newline]).toNat + (s.leaveMargin margin).levels.length
        = s.tokens.length + s.levels.length) : margin.length = s.level := by
  have hlevel : (s.passMargin margin).level = s.level :=
    passMargin_frame Scan.level (fun _ _ => rfl) s margin
  have htokens : (s.passMargin margin).tokens = s.tokens :=
    passMargin_frame Scan.tokens (fun _ _ => rfl) s margin
  have hlevels : (s.passMargin margin).levels = s.levels :=
    passMargin_frame Scan.levels (fun _ _ => rfl) s margin
  rw [← hlevel]
  refine width_eq_level margin.length (!s.isMixed margin) ?_
  rw [htokens, hlevels]
  exact hcount

/-- The number of tokens of a text that ends with a line break. -/
theorem length_tokens_breakLine (hclosed : s.brackets = []) (position : Position) :
    ((s.breakLine position).below []).finish.tokens.length
      = s.tokens.length + (s.lastIsNot [.newline]).toNat + s.levels.length + 1 := by
  rw [length_tokens_finish]
  cases hlast : s.lastIsNot [.newline] with
  | false =>
    rw [breakLine_of_closed hclosed hlast, Bool.toNat_false]
    exact congrArg (s.tokens.length + Bool.toNat · + s.levels.length + 1)
      (lastIsNot_newline_dedent hlast)
  | true =>
    rw [breakLine, hclosed, hlast, isEmpty_nil, if_pos rfl]
    rfl

theorem length_faults_breakLine (hclosed : s.brackets = []) (position : Position) :
    ((s.breakLine position).below []).finish.faults.length = s.faults.length := by
  have hfaults : (s.breakLine position).faults = s.faults :=
    breakLine_frame Scan.faults (fun _ _ _ => rfl) s position
  have hbrackets : (s.breakLine position).brackets = [] :=
    (breakLine_frame Scan.brackets (fun _ _ _ => rfl) s position).trans hclosed
  rw [length_faults_finish, below, hfaults, hbrackets]
  rfl

theorem length_faults_passMargin (s : Scan) (margin : List Char) :
    (s.passMargin margin).faults.length = s.faults.length + (s.isMixed margin).toNat := by
  unfold passMargin
  cases s.isMixed margin with
  | true | false => rfl

theorem marginChar?_ne_nil (h : marginChar? margin = some c) : margin ≠ [] := by
  rintro rfl
  cases h

theorem exists_other_margin (c : Char) : ∃ d, isMargin d = true ∧ c ≠ d := by
  by_cases hc : c = ' '
  · exact ⟨'\t', rfl, hc ▸ by decide⟩
  · exact ⟨' ', rfl, hc⟩

/-- A margin of one character, a letter behind it. -/
def probe (c : Char) (width : Nat) : List Char := replicate width c ++ ['x']

theorem marginChar?_replicate (hc : isMargin c = true) (h : width ≠ 0) :
    marginChar? (replicate width c) = some c := by
  have hcases : c = ' ' ∨ c = '\t' := by simpa [isMargin] using hc
  rcases hcases with rfl | rfl <;> simp [marginChar?, h]

theorem step_probe (hc : isMargin c = true) (hmargin : s.atMargin = true) (width : Nat) :
    (s.reading (probe c width)).step = (s.leaveMargin (replicate width c)).reading ['x'] := by
  have hall : ∀ d ∈ replicate width c, isMargin d = true := fun d hd =>
    (eq_of_mem_replicate hd) ▸ hc
  have hread : (s.reading (probe c width)).rest.takeWhile isMargin = replicate width c := by
    rw [reading, probe, takeWhile_append_of_pos hall]
    exact append_nil _
  have hdrop : (probe c width).drop (replicate width c).length = ['x'] := drop_left
  rw [step, if_pos (show (s.reading (probe c width)).atMargin = true from hmargin), takeMargin,
    hread, leaveMargin_reading, hdrop]
  dsimp only [reading]
  rw [hdrop]
  rfl

/-- A margin of the width of the block is a fault if indentation is made of something else. -/
theorem length_faults_probe (hc : isMargin c = true) (hmargin : s.atMargin = true)
    (hclosed : s.brackets = []) (hlevel : s.level ≠ 0) :
    (s.reading (probe c s.level)).complete.finish.faults.length
      = s.faults.length + (s.margin.getD c != c).toNat := by
  have hmixed : s.isMixed (replicate s.level c) = (s.margin.getD c != c) := by
    rw [isMixed, marginChar?_replicate hc hlevel]
  have hne : (s.reading (probe c s.level)).rest ≠ [] :=
    append_ne_nil_of_right_ne_nil _ (cons_ne_nil _ _)
  have hcut : cut 'x' [] = ⟨['x'], .token .identifier ['x'] none, []⟩ := by decide +kernel
  have hpiece : ∀ q : Scan, (q.reading ['x']).takePiece
      = ((q.reading ['x']).addToken .identifier ['x'] none).move ['x'] := by
    intro q
    unfold takePiece
    dsimp only [reading]
    rw [hcut]
    rfl
  have hinside : ((s.leaveMargin (replicate s.level c)).reading ['x']).atMargin = false :=
    leaveMargin_frame Scan.atMargin (fun _ _ _ _ => rfl) s _
  have hbrackets : (s.leaveMargin (replicate s.level c)).brackets = [] :=
    (leaveMargin_frame Scan.brackets (fun _ _ _ _ => rfl) s _).trans hclosed
  rw [← complete_step hne, step_probe hc hmargin, complete_of_step hinside (cons_ne_nil _ _),
    hpiece, complete_of_rest_eq_nil rfl, length_faults_finish, ← hmixed, ← length_faults_passMargin,
    ← leaveMargin_level length_replicate]
  exact congrArg (_ + length ·) hbrackets

theorem complete_unseen_nil (hmargin : s.atMargin = true) (hline : Blank line)
    (hseen : ¬ SeenBlank line) : (s.reading (line ++ ['\n'])).complete
      = ((s.leaveMargin (marginOf line)).breakLine (s.position.after line)).below [] :=
  (complete_unseen hmargin hline hseen).trans (complete_of_rest_eq_nil rfl)

theorem brackets_leaveMargin (hclosed : s.brackets = []) (margin : List Char) :
    (s.leaveMargin margin).brackets = [] :=
  (leaveMargin_frame Scan.brackets (fun _ _ _ _ => rfl) s margin).trans hclosed

theorem length_marginOf_eq_level (h : LineStart s) (hclosed : s.brackets = []) (hline : Blank line)
    (hseen : ¬ SeenBlank line)
    (hcount : (s.reading (line ++ ['\n'])).complete.finish.tokens.length
      = (s.reading []).complete.finish.tokens.length) : (marginOf line).length = s.level := by
  obtain ⟨hmargin, -, hlast⟩ | ⟨-, hopen, -⟩ := h.betweenLines
  · rw [complete_unseen_nil hmargin hline hseen, complete_of_rest_eq_nil rfl,
      length_tokens_breakLine (brackets_leaveMargin hclosed _), length_tokens_finish,
      lastIsNot_newline_dedent (s := s.reading []) hlast] at hcount
    exact width_eq_level_of_leaveMargin (Nat.succ.inj hcount)
  · exact absurd hclosed hopen

theorem isMixed_eq_false (hmargin : s.atMargin = true) (hclosed : s.brackets = [])
    (hline : Blank line) (hseen : ¬ SeenBlank line) (hwidth : (marginOf line).length = s.level)
    (hcount : (s.reading (line ++ ['\n'])).complete.finish.faults.length
      = (s.reading []).complete.finish.faults.length) : s.isMixed (marginOf line) = false := by
  have hnone : (s.reading []).brackets = [] := hclosed
  rw [complete_unseen_nil hmargin hline hseen,
    length_faults_breakLine (brackets_leaveMargin hclosed _), leaveMargin_level hwidth,
    length_faults_passMargin, complete_of_rest_eq_nil rfl, length_faults_finish, hnone] at hcount
  exact Bool.toNat_eq_zero.mp (Nat.add_left_cancel hcount)

/-- A margin that shows first what indentation is made of is seen by a later margin. -/
theorem margin_eq (h : LineStart s) (hclosed : s.brackets = []) (hline : Blank line)
    (hseen : ¬ SeenBlank line) (hwidth : (marginOf line).length = s.level)
    (hmixed : s.isMixed (marginOf line) = false)
    (hcount : ∀ after, (s.reading (line ++ '\n' :: after)).complete.finish.faults.length
      = (s.reading after).complete.finish.faults.length) :
    (s.margin <|> marginChar? (marginOf line)) = s.margin := by
  obtain ⟨hmargin, -, -⟩ | ⟨-, hopen, -⟩ := h.betweenLines
  · cases hpinned : s.margin with
    | some c => rfl
    | none =>
      cases hc : marginChar? (marginOf line) with
      | none => rfl
      | some c =>
        obtain ⟨d, hd, hne⟩ := exists_other_margin c
        have hlevel : s.level ≠ 0 := by
          rw [← hwidth]
          exact fun hzero => marginChar?_ne_nil hc (eq_nil_of_length_eq_zero hzero)
        -- The same scan, one line further down and with `c` for indentation.
        have hshown := length_faults_probe
          (s := { s with margin := some c, position := ⟨s.position.line + 1, 0⟩ })
          hd hmargin hclosed hlevel
        have hprobe := hcount (probe d s.level)
        rw [complete_level h hclosed hline hseen hwidth hmixed, hpinned, hc,
          length_faults_probe hd hmargin hclosed hlevel, hpinned] at hprobe
        have hsame := hshown.symm.trans hprobe
        simp [hne] at hsame
  · exact absurd hclosed hopen

/-- **A blank line that leaves no trace passes.** -/
theorem passes_of_lengths (h : LineStart s) (hline : Blank line)
    (htokens : ∀ after, (s.reading (line ++ '\n' :: after)).complete.finish.tokens.length
      = (s.reading after).complete.finish.tokens.length)
    (hfaults : ∀ after, (s.reading (line ++ '\n' :: after)).complete.finish.faults.length
      = (s.reading after).complete.finish.faults.length) : Passes s line := by
  obtain ⟨hmargin, hclosed, -⟩ | ⟨-, hopen, -⟩ := h.betweenLines
  · by_cases hseen : SeenBlank line
    · exact .inr (.inl hseen)
    · have hwidth := length_marginOf_eq_level h hclosed hline hseen (htokens [])
      have hmixed := isMixed_eq_false hmargin hclosed hline hseen hwidth (hfaults [])
      exact .inr (.inr ⟨hwidth, hmixed, margin_eq h hclosed hline hseen hwidth hmixed hfaults⟩)
  · exact .inl hopen

/-! ## The lines further down -/

theorem counts_lineAfterInsert (hk : k < s.position.line) : Counts (lineAfterInsert k) s := by
  intro l hl
  rw [lineAfterInsert, lineAfterInsert, if_pos (by omega), if_pos (by omega)]

theorem below_eq_transfer (h : LineStart s) (hk : s.position.line = k + 1) (after : List Char) :
    s.below after = (s.reading after).transfer (lineAfterInsert k) [] := by
  have hkeep : ∀ {p : Position}, 1 ≤ p.line ∧ p.line < s.position.line →
      p.renumber (lineAfterInsert k) = p := by
    intro p hp
    rw [Position.renumber, lineAfterInsert, if_neg (by omega)]
  have hposition : s.position.renumber (lineAfterInsert k) = ⟨s.position.line + 1, 0⟩ := by
    rw [Position.renumber, h.column, lineAfterInsert, if_pos (by omega)]
  have htokens : (s.transfer (lineAfterInsert k) []).tokens = s.tokens := by
    refine (map_congr_left (g := id) fun t ht => ?_).trans (map_id _)
    rw [Token.renumber, hkeep (h.onLines.tokens t ht)]
    rfl
  have hbrackets : (s.transfer (lineAfterInsert k) []).brackets = s.brackets := by
    refine (map_congr_left (g := id) fun bracket hb => ?_).trans (map_id _)
    exact Prod.ext rfl (hkeep (h.onLines.brackets bracket hb))
  have hfaults : (s.transfer (lineAfterInsert k) []).faults = s.faults := by
    refine (map_congr_left (g := id) fun fault hf => ?_).trans (map_id _)
    exact Prod.ext (hkeep (h.onLines.faults fault hf)) rfl
  unfold transfer at htokens hbrackets hfaults
  unfold below transfer reading
  dsimp only at htokens hbrackets hfaults ⊢
  rw [hposition, htokens, hbrackets, hfaults, append_nil]

theorem complete_below (h : LineStart s) (hk : s.position.line = k + 1)
    (after : List Char) : (s.below after).complete
      = (s.reading after).complete.transfer (lineAfterInsert k) [] := by
  have hcounts : Counts (lineAfterInsert k) (s.reading after) :=
    counts_lineAfterInsert (s := s) (by omega)
  rw [below_eq_transfer h hk, complete_transfer hcounts (.inl rfl)]
  refine complete_of_rest_eq_nil ?_
  simp [transfer]

@[simp] theorem toScanned_transfer {g more} :
    (s.transfer g more).toScanned = s.toScanned.renumber g := by
  simp [toScanned, transfer, Scanned.renumber]

end Token.Scan

namespace Token

open Scan (WholeLines LineStart Blank Passes)

variable {before line : List Char} {c : Char}

/-- A scan of whole lines goes on with what stands behind them. -/
theorem complete_append (h : WholeLines before) (after : List Char) :
    (Scan.start (before ++ after)).complete
      = ((Scan.start before).complete.reading after).complete := by
  have hstart : Scan.start (before ++ after) = (Scan.start before).transfer id after := by
    rw [Scan.transfer_id]
    rfl
  have hread : (Scan.start before).complete.transfer id after
      = (Scan.start before).complete.reading after := by
    rw [Scan.transfer_id, Scan.rest_complete, nil_append]
    rfl
  rw [hstart, Scan.complete_transfer (g := id) (fun _ _ => rfl) (.inr h), hread]

theorem scan_append (h : WholeLines before) (after : List Char) : scan (before ++ after)
      = ((Scan.start before).complete.reading after).complete.finish.toScanned := by
  rw [scan_eq, complete_append h]

theorem lineStart_of_wholeLines (h : WholeLines before) :
    LineStart (Scan.start before).complete := by
  refine Scan.lineStart_complete (Scan.sound_start before) h fun hnil => ?_
  have hbefore : before = [] := hnil
  rw [hbefore]
  exact Scan.lineStart_start

theorem line_of_wholeLines (before : List Char) :
    (Scan.start before).complete.position.line = before.count '\n' + 1 := by
  rw [Scan.position_complete, Position.line_after]
  exact Nat.add_comm 1 _

theorem scan_insert (h : WholeLines before) (hline : Blank line)
    (hpasses : Passes (Scan.start before).complete line) (after : List Char) :
    scan (before ++ (line ++ '\n' :: after))
      = (scan (before ++ after)).renumber (lineAfterInsert (before.count '\n')) := by
  have hstart := lineStart_of_wholeLines h
  simp [scan_append h, Scan.complete_of_passes hstart hline hpasses,
    Scan.complete_below hstart (line_of_wholeLines before)]

/-! ## Diagnostics -/

theorem one_le_line_of_mem_faults (text : List Char) :
    ∀ fault ∈ (scan text).faults, 1 ≤ fault.1.line := by
  refine (Scan.Records.scan (Scan.admits_onLines (P := (1 ≤ ·))) fun taken _ => ?_).2
  have hline := Position.line_le_after .start taken
  exact ⟨hline, hline⟩

theorem lines_wholeLines (h : WholeLines before) : ∃ upper, upper.length = before.count '\n' ∧
      ∀ text, Text.lines (before ++ text) = upper ++ Text.lines text := by
  rcases h with rfl | hlast
  · exact ⟨[], rfl, fun _ => rfl⟩
  · obtain ⟨earlier, rfl⟩ := getLast?_eq_some_iff.mp hlast
    refine ⟨Text.lines earlier, ?_, fun text => ?_⟩
    · simp [count_append]
    · simp

theorem bareLine_insert (h : WholeLines before) (hline : '\n' ∉ line) (after : List Char) {n}
    (hn : 1 ≤ n) :
    Text.bareLine (before ++ (line ++ '\n' :: after)) (lineAfterInsert (before.count '\n') n)
      = Text.bareLine (before ++ after) n := by
  obtain ⟨upper, hlength, hlines⟩ := lines_wholeLines h
  have hone : (Text.lines line).length = 1 := by
    simp [count_eq_zero.mpr hline]
  unfold Text.bareLine
  rw [hlines, hlines, Text.lines_append, ← hlength, lineAfterInsert]
  split
  · next hbelow =>
    have hindex : n + 1 - 1 - upper.length - 1 = n - 1 - upper.length := by omega
    rw [getElem?_append_right (by omega), getElem?_append_right (by omega),
      getElem?_append_right (by omega), hone, hindex]
  · rw [getElem?_append_left (by omega), getElem?_append_left (by omega)]

theorem diagnostics_insert (h : WholeLines before) (hline : '\n' ∉ line) (after : List Char) :
    Session.lexicalDiagnostics (before ++ (line ++ '\n' :: after))
        ((scan (before ++ after)).renumber (lineAfterInsert (before.count '\n')))
      = (Session.lexicalDiagnostics (before ++ after) (scan (before ++ after))).map
          (Diagnostic.renumber (lineAfterInsert (before.count '\n'))) := by
  unfold Session.lexicalDiagnostics Scanned.renumber
  rw [map_map, map_map]
  refine map_congr_left fun fault hfault => ?_
  have hsame := bareLine_insert h hline after (one_le_line_of_mem_faults _ fault hfault)
  simp only [Function.comp_apply, Diagnostic.ofLexical, Diagnostic.ofLine, Diagnostic.renumber,
    Position.renumber]
  rw [hsame]

/-! ## Texts -/

theorem length_tokens_scan_append (h : WholeLines before) (after : List Char) :
    (scan (before ++ after)).tokens.length
      = ((Scan.start before).complete.reading after).complete.finish.tokens.length := by
  rw [scan_append h]
  exact length_reverse

theorem length_faults_scan_append (h : WholeLines before) (after : List Char) :
    (Session.lexicalDiagnostics (before ++ after) (scan (before ++ after))).length
      = ((Scan.start before).complete.reading after).complete.finish.faults.length := by
  rw [Session.lexicalDiagnostics, length_map, scan_append h]
  exact length_reverse

/-- **When a blank line never changes a text**: put in between lines, with anything behind it, it
leaves the tokens and the diagnostics as they are, except that lines further down count one more,
exactly if it passes where it stands. -/
theorem scan_insert_iff {before line : List Char} (h : WholeLines before) (hline : Blank line) :
    (∀ after, (scan (before ++ (line ++ '\n' :: after))).tokens
        = (scan (before ++ after)).tokens.map
            (Token.renumber (lineAfterInsert (before.count '\n'))) ∧
      Session.lexicalDiagnostics (before ++ (line ++ '\n' :: after))
          (scan (before ++ (line ++ '\n' :: after)))
        = (Session.lexicalDiagnostics (before ++ after) (scan (before ++ after))).map
            (Diagnostic.renumber (lineAfterInsert (before.count '\n')))) ↔
    Passes (Scan.start before).complete line := by
  refine ⟨fun hsame => ?_, fun hpasses after => ?_⟩
  · refine Scan.passes_of_lengths (lineStart_of_wholeLines h) hline (fun after => ?_)
      fun after => ?_
    · have hlength := congrArg length (hsame after).1
      rwa [length_map, length_tokens_scan_append h, length_tokens_scan_append h] at hlength
    · have hlength := congrArg length (hsame after).2
      rwa [length_map, length_faults_scan_append h, length_faults_scan_append h] at hlength
  · have hscan := scan_insert h hline hpasses after
    refine ⟨congrArg Scanned.tokens hscan, ?_⟩
    rw [hscan, diagnostics_insert h hline.newline_not_mem]

/-- A no-break space at the indentation of its block changes nothing, whatever follows. -/
theorem scan_insert_indented :
    WholeLines "if a\n  b\n".toList ∧ Blank "  \u00a0# c".toList ∧
      ∀ after, (scan ("if a\n  b\n".toList ++ ("  \u00a0# c".toList ++ '\n' :: after))).tokens
        = (scan ("if a\n  b\n".toList ++ after)).tokens.map
            (Token.renumber (lineAfterInsert 2)) := by
  have hlines : WholeLines "if a\n  b\n".toList := .inr (by decide +kernel)
  have hblank : Blank "  \u00a0# c".toList :=
    .spacing rfl (.spacing rfl (.spacing rfl (.comment (by decide))))
  refine ⟨hlines, hblank, fun after => ?_⟩
  exact ((scan_insert_iff hlines hblank).mpr (by decide +kernel) after).1

/-- A line with a no-break space alone closes the block around it, which is then opened again. -/
theorem scan_noBreakSpace :
    WholeLines "if a\n  b\n".toList ∧ Blank "\u00a0".toList ∧
      (scan ("if a\n  b\n".toList ++ "  c\n".toList)).tokens.map (·.kind)
        = [.identifier, .newline, .indent, .identifier, .newline, .identifier, .newline, .dedent,
            .eof] ∧
      (scan ("if a\n  b\n".toList ++
          ("\u00a0".toList ++ '\n' :: "  c\n".toList))).tokens.map (·.kind)
        = [.identifier, .newline, .indent, .identifier, .newline, .dedent, .newline, .indent,
            .identifier, .newline, .dedent, .eof] := by
  refine ⟨.inr (by decide +kernel), .spacing rfl .nil, by decide +kernel, by decide +kernel⟩

end Token

end Offside
