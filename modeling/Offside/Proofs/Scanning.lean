import Offside.Proofs.Pieces
import Offside.Token.Scan

/-!
# Proofs/Scanning — a scan goes to the end of its text, line by line

Each step takes some of the text or leaves a margin (`takes_step`), so a scan ends and what it comes
to (`complete`) does not depend on a bound.  A step reads nothing behind the line it is on and
counts lines from where it stands: with more lines behind the text, and with the lines numbered
otherwise, it does the same (`step_transfer`), and so does the scan up to the end of its text
(`complete_transfer`).
-/

namespace Offside

open List

/-- The place with its line numbered otherwise. -/
def Position.renumber (g : Nat → Nat) (p : Position) : Position := ⟨g p.line, p.column⟩

/-- The token with its line numbered otherwise. -/
def Token.renumber (g : Nat → Nat) (t : Token) : Token :=
  { t with position := t.position.renumber g }

namespace Position

theorem line_le_after : ∀ (p : Position) (text : List Char), p.line ≤ (p.after text).line
  | _, [] => Nat.le_refl _
  | p, c :: text => by
    have hnext : p.line ≤ (p.next c).line := by
      unfold next
      split
      · exact Nat.le_succ _
      · exact Nat.le_refl _
    exact Nat.le_trans hnext (line_le_after (p.next c) text)

theorem renumber_after {g} : ∀ (p : Position) (text : List Char),
    (∀ l, p.line ≤ l → g (l + 1) = g l + 1) → (p.renumber g).after text = (p.after text).renumber g
  | _, [], _ => rfl
  | p, c :: text, hg => by
    have hnext : (p.renumber g).next c = (p.next c).renumber g := by
      unfold next renumber
      split
      · rw [hg p.line (Nat.le_refl _)]
      · rfl
    rw [after_cons, after_cons, hnext]
    refine renumber_after (p.next c) text fun l hl => hg l (Nat.le_trans ?_ hl)
    exact line_le_after p [c]

end Position

namespace Token.Scan

variable {α : Type} (f : Scan → α) {s : Scan} {g : Nat → Nat}
  {more text margin taken line : List Char} {c : Char}

/-! ## Lines that hold nothing -/

@[simp] theorem isMargin_newline : isMargin '\n' = false := by decide

theorem leads_margin (s : Scan) : Cut.Leads (s.rest.takeWhile isMargin) s.rest :=
  .takeWhile isMargin_newline

theorem toLineEnd_cases (text : List Char) :
    text = Cut.toLineEnd text ∨ ∃ rest, text = Cut.toLineEnd text ++ '\n' :: rest := by
  have hsplit : Cut.toLineEnd text ++ text.dropWhile (· != '\n') = text :=
    takeWhile_append_dropWhile
  have hhead := head?_dropWhile_not (· != '\n') text
  cases hrest : text.dropWhile (· != '\n') with
  | nil =>
    rw [hrest, append_nil] at hsplit
    exact .inl hsplit.symm
  | cons c rest =>
    rw [hrest] at hsplit hhead
    have hc : c = '\n' := by simpa using hhead
    exact .inr ⟨rest, by rw [← hc, hsplit]⟩

/-- A line that holds nothing goes to the end of the text, or to the line break and takes it. -/
theorem emptyLine?_cases (h : emptyLine? text = some line) : (line = text ∧ '\n' ∉ text) ∨
      ∃ before rest, line = before ++ ['\n'] ∧ text = line ++ rest ∧ '\n' ∉ before := by
  unfold emptyLine? at h
  split at h
  · cases h
    exact .inl ⟨rfl, not_mem_nil⟩
  · next rest =>
    cases h
    exact .inr ⟨[], rest, rfl, rfl, not_mem_nil⟩
  · next rest =>
    cases h
    exact .inr ⟨['\r'], rest, rfl, rfl, by decide⟩
  · next text =>
    have hcomment : '\n' ∉ '#' :: Cut.toLineEnd text :=
      (Cut.Leads.cons (c := '#') (by decide) (.takeWhile (by decide) : Cut.Leads _ text)).2
    cases h
    rcases toLineEnd_cases text with htext | ⟨rest, htext⟩
    · refine .inl ⟨?_, ?_⟩
      · rw [← htext, drop_length, take_nil, append_nil]
      · rwa [htext]
    · have hdrop : text.drop (Cut.toLineEnd text).length = '\n' :: rest :=
        (congrArg (drop (Cut.toLineEnd text).length) htext).trans drop_left
      rw [hdrop]
      refine .inr ⟨_, rest, rfl, ?_, hcomment⟩
      rw [append_assoc, cons_append]
      exact congrArg ('#' :: ·) htext
  · cases h

/-- Whether a line is empty does not depend on the text behind it. -/
theorem emptyLine?_append (h : '\n' ∈ text) (more : List Char) :
    emptyLine? (text ++ more) = emptyLine? text := by
  obtain ⟨c, text, rfl⟩ := exists_cons_of_ne_nil (ne_nil_of_mem h)
  by_cases hbreak : c = '\n'
  · subst hbreak
    rfl
  · have hmem : '\n' ∈ text := (mem_cons.mp h).resolve_left (Ne.symm hbreak)
    by_cases hreturn : c = '\r'
    · subst hreturn
      obtain ⟨d, text, rfl⟩ := exists_cons_of_ne_nil (ne_nil_of_mem hmem)
      by_cases hd : d = '\n'
      · subst hd
        rfl
      · simp [emptyLine?, hd]
    · by_cases hcomment : c = '#'
      · subst hcomment
        have hleads : Cut.Leads (Cut.toLineEnd text) text := .takeWhile (by decide)
        have htake := length_pos_of_mem (hleads.mem_drop hmem)
        rw [cons_append, emptyLine?, emptyLine?, Cut.toLineEnd_append hmem,
          hleads.drop_append, take_append_of_le_length htake]
      · simp [emptyLine?, hbreak, hreturn, hcomment]

/-! ## One step -/

/-- Blocks are opened and closed without a change to anything but these. -/
theorem indentTo_frame (hf : ∀ (s : Scan) tokens levels faults,
    f { s with tokens, levels, faults } = f s) (s : Scan) (width : Nat) (sound : Bool) :
    f (s.indentTo width sound) = f s := by
  unfold indentTo
  split
  · exact hf s _ _ _
  · dsimp only
    split <;> exact hf s _ _ _

theorem passMargin_frame (hf : ∀ (s : Scan) faults,
    f { s with faults } = f s) (s : Scan) (margin : List Char) :
    f (s.passMargin margin) = f { s.move margin with
      atMargin := false, margin := s.margin <|> marginChar? margin } := by
  unfold passMargin
  dsimp only
  split
  · exact hf _ _
  · rfl

theorem leaveMargin_frame (hf : ∀ (s : Scan) tokens levels faults,
    f { s with tokens, levels, faults } = f s) (s : Scan) (margin : List Char) :
    f (s.leaveMargin margin) = f { s.move margin with
      atMargin := false, margin := s.margin <|> marginChar? margin } :=
  (indentTo_frame f hf _ _ _).trans (passMargin_frame f (fun s _ => hf s _ _ _) s margin)

theorem trackBrackets_frame (hf : ∀ (s : Scan) brackets faults,
    f { s with brackets, faults } = f s) (s : Scan) (kind : Kind) (position : Position) :
    f (s.trackBrackets kind position) = f s := by
  unfold trackBrackets
  split
  · exact hf s _ _
  · split
    · split <;> exact hf s _ _
    · exact hf s _ _
  · rfl

@[simp] theorem addToken_rest (s : Scan) (kind : Kind) (lexeme : List Char)
    (literal : Option Literal) : (s.addToken kind lexeme literal).rest = s.rest :=
  trackBrackets_frame Scan.rest (fun _ _ _ => rfl) s kind s.position

@[simp] theorem addToken_position (s : Scan) (kind : Kind) (lexeme : List Char)
    (literal : Option Literal) : (s.addToken kind lexeme literal).position = s.position :=
  trackBrackets_frame Scan.position (fun _ _ _ => rfl) s kind s.position

theorem breakLine_frame (hf : ∀ (s : Scan) atMargin tokens,
    f { s with atMargin, tokens } = f s) (s : Scan) (position : Position) :
    f (s.breakLine position) = f s := by
  unfold breakLine
  split
  · dsimp only
    split <;> exact hf s _ _
  · split
    · exact hf s _ _
    · rfl

/-- What a step does to the text that is left. -/
structure Takes (s s' : Scan) (taken : List Char) : Prop where
  rest : s.rest = taken ++ s'.rest
  position : s'.position = s.position.after taken

theorem takes_move (h : taken <+: s.rest) : Takes s (s.move taken) taken :=
  ⟨(prefix_iff_eq_append.mp h).symm, rfl⟩

theorem takes_leaveMargin (s : Scan) :
    Takes s (s.leaveMargin (s.rest.takeWhile isMargin)) (s.rest.takeWhile isMargin) := by
  have hmove := takes_move (List.takeWhile_prefix (l := s.rest) isMargin)
  refine ⟨hmove.rest.trans ?_, Eq.trans ?_ hmove.position⟩
  · rw [leaveMargin_frame Scan.rest fun _ _ _ _ => rfl]
  · rw [leaveMargin_frame Scan.position fun _ _ _ _ => rfl]

theorem takePiece_newline (h : s.rest = '\n' :: text) :
    s.takePiece = (s.move ['\n']).breakLine s.position := by
  rw [takePiece, h]
  rfl

/-- Beyond moving on, a piece changes tokens, brackets and faults only. -/
theorem takePiece_frame (hf : ∀ (s : Scan) tokens brackets faults,
    f { s with tokens, brackets, faults } = f s) (hc : c ≠ '\n')
    (h : s.rest = c :: text) : f s.takePiece = f (s.move (cut c text).taken) := by
  have hpiece := (onLine_cut hc text).piece_ne
  rw [takePiece, h]
  dsimp only
  split
  · exact hf (s.move _) _ _ _
  · next hbreak => exact absurd hbreak hpiece
  · next kind lexeme literal _ =>
    refine (hf (((s.reportAll _).trackBrackets kind s.position).move _) _ _ _).trans ?_
    refine (trackBrackets_frame (fun s => f (s.move _)) (fun s _ _ => ?_) _ _ _).trans ?_
    · exact hf (s.move _) _ _ _
    · exact hf (s.move _) _ _ _

/-- What a step can be: a line that holds nothing, a margin, a line break, or another piece. -/
theorem step_cases (h : s.rest ≠ []) : (s.atMargin = true ∧ ∃ line,
      emptyLine? (s.rest.drop (s.rest.takeWhile isMargin).length) = some line ∧
        s.step = s.move (s.rest.takeWhile isMargin ++ line)) ∨
    (s.atMargin = true ∧ emptyLine? (s.rest.drop (s.rest.takeWhile isMargin).length) = none ∧
        s.step = s.leaveMargin (s.rest.takeWhile isMargin)) ∨
    (s.atMargin = false ∧ ∃ text, s.rest = '\n' :: text ∧
      s.step = (s.move ['\n']).breakLine s.position) ∨
    (s.atMargin = false ∧ ∃ c text, c ≠ '\n' ∧ s.rest = c :: text ∧ s.step = s.takePiece) := by
  cases hmargin : s.atMargin with
  | true =>
    rw [step, hmargin, if_pos rfl, takeMargin]
    cases hline : emptyLine? (s.rest.drop (s.rest.takeWhile isMargin).length) with
    | some line => exact .inl ⟨rfl, line, rfl, rfl⟩
    | none => exact .inr (.inl ⟨rfl, rfl, rfl⟩)
  | false =>
    obtain ⟨c, text, hrest⟩ := exists_cons_of_ne_nil h
    rw [step, hmargin, if_neg Bool.false_ne_true]
    by_cases hc : c = '\n'
    · subst hc
      exact .inr (.inr (.inl ⟨rfl, text, hrest, takePiece_newline hrest⟩))
    · exact .inr (.inr (.inr ⟨rfl, c, text, hc, hrest, rfl⟩))

theorem takes_emptyLine
    (h : emptyLine? (s.rest.drop (s.rest.takeWhile isMargin).length) = some line) :
    Takes s (s.move (s.rest.takeWhile isMargin ++ line)) (s.rest.takeWhile isMargin ++ line) := by
  have hmargin := takes_move (List.takeWhile_prefix (l := s.rest) isMargin)
  refine takes_move ?_
  rcases emptyLine?_cases h with ⟨hline, -⟩ | ⟨_, rest, -, hline, -⟩
  · exact ⟨[], by rw [append_nil, hline]; exact hmargin.rest.symm⟩
  · exact ⟨rest, by rw [append_assoc, ← hline]; exact hmargin.rest.symm⟩

theorem takes_newline (h : s.rest = '\n' :: text) (position : Position) :
    Takes s ((s.move ['\n']).breakLine position) ['\n'] := by
  have hmove : Takes s (s.move ['\n']) ['\n'] := takes_move ⟨text, h.symm⟩
  refine ⟨hmove.rest.trans ?_, Eq.trans ?_ hmove.position⟩
  · rw [breakLine_frame Scan.rest fun _ _ _ => rfl]
  · rw [breakLine_frame Scan.position fun _ _ _ => rfl]

theorem takes_piece (hc : c ≠ '\n') (h : s.rest = c :: text) :
    Takes s s.takePiece (cut c text).taken := by
  have hmove : Takes s (s.move (cut c text).taken) (cut c text).taken :=
    takes_move (h ▸ (onLine_cut hc text).leads.1)
  refine ⟨hmove.rest.trans ?_, Eq.trans ?_ hmove.position⟩
  · rw [takePiece_frame Scan.rest (fun _ _ _ _ => rfl) hc h]
  · rw [takePiece_frame Scan.position (fun _ _ _ _ => rfl) hc h]

/-- **Each step takes some of the text or leaves a margin.** -/
theorem takes_step (h : s.rest ≠ []) : ∃ taken, Takes s s.step taken ∧
    (taken = [] → s.atMargin = true ∧ s.step.atMargin = false) := by
  rcases step_cases h with ⟨-, line, hline, hstep⟩ | ⟨hmargin, -, hstep⟩ | ⟨-, text, hrest, hstep⟩ |
    ⟨-, c, text, hc, hrest, hstep⟩
  · rw [hstep]
    refine ⟨_, takes_emptyLine hline, fun hnil => absurd ?_ h⟩
    obtain ⟨hempty, rfl⟩ := append_eq_nil_iff.mp hnil
    rw [hempty] at hline
    rcases emptyLine?_cases hline with ⟨hnone, -⟩ | ⟨before, -, hsome, -⟩
    · exact hnone.symm
    · exact absurd hsome.symm (append_ne_nil_of_right_ne_nil before (cons_ne_nil _ _))
  · rw [hstep]
    exact ⟨_, takes_leaveMargin s, fun _ => ⟨hmargin,
      leaveMargin_frame Scan.atMargin (fun _ _ _ _ => rfl) s _⟩⟩
  · rw [hstep]
    exact ⟨_, takes_newline hrest _, fun hnil => absurd hnil (cons_ne_nil _ _)⟩
  · rw [hstep]
    exact ⟨_, takes_piece hc hrest, fun hnil => absurd hnil (onLine_cut hc text).taken_ne_nil⟩

theorem line_le_step (h : s.rest ≠ []) : s.position.line ≤ s.step.position.line := by
  obtain ⟨taken, htakes, -⟩ := takes_step h
  rw [htakes.position]
  exact Position.line_le_after s.position taken

/-! ## Whole scans -/

/-- A bound on the steps that are left. -/
def weight (s : Scan) : Nat := 2 * s.rest.length + s.atMargin.toNat

/-- Every step makes the weight smaller. -/
theorem weight_step_lt (h : s.rest ≠ []) : s.step.weight < s.weight := by
  obtain ⟨taken, htakes, hnil⟩ := takes_step h
  have hlength : s.rest.length = taken.length + s.step.rest.length :=
    (congrArg length htakes.rest).trans length_append
  have hmargin : s.step.atMargin.toNat ≤ 1 := Bool.toNat_le _
  unfold weight
  cases taken with
  | nil =>
    obtain ⟨hbefore, hafter⟩ := hnil rfl
    rw [hbefore, hafter, hlength]
    simp
  | cons c taken =>
    rw [length_cons] at hlength
    omega

theorem run_of_rest_eq_nil (h : s.rest = []) : ∀ n, run n s = s
  | 0 => rfl
  | n + 1 => by rw [run, h, isEmpty_nil, if_pos rfl]

theorem run_succ (h : s.rest ≠ []) (n : Nat) : run (n + 1) s = run n s.step := by
  rw [run, if_neg fun hnil => h (isEmpty_iff.mp hnil)]

/-- What the scan comes to. -/
def complete (s : Scan) : Scan := run s.weight s

/-- A bound that is large enough makes no difference. -/
theorem run_eq_of_le : ∀ {n m s}, s.weight ≤ n → s.weight ≤ m → run n s = run m s
  | n, m, s, hn, hm => by
    by_cases h : s.rest = []
    · rw [run_of_rest_eq_nil h, run_of_rest_eq_nil h]
    · have hlt := weight_step_lt h
      obtain ⟨n, rfl⟩ : ∃ k, n = k + 1 := ⟨n - 1, by omega⟩
      obtain ⟨m, rfl⟩ : ∃ k, m = k + 1 := ⟨m - 1, by omega⟩
      rw [run_succ h, run_succ h]
      exact run_eq_of_le (by omega) (by omega)
termination_by n => n

theorem complete_of_rest_eq_nil (h : s.rest = []) : s.complete = s := run_of_rest_eq_nil h _

/-- A scan is completed step by step. -/
theorem complete_step (h : s.rest ≠ []) : s.step.complete = s.complete := by
  have hlt := weight_step_lt h
  unfold complete
  rw [run_eq_of_le (Nat.le_refl s.weight) (Nat.le_succ s.weight), run_succ h]
  exact run_eq_of_le (Nat.le_refl _) (Nat.le_of_lt hlt)

/-- To prove something of a scan, by the steps that are left. -/
@[elab_as_elim]
theorem induction_steps {motive : Scan → Prop} (done : ∀ s, s.rest = [] → motive s)
    (step : ∀ s, s.rest ≠ [] → motive s.step → motive s) (s : Scan) : motive s := by
  by_cases h : s.rest = []
  · exact done s h
  · exact step s h (induction_steps done step s.step)
termination_by s.weight
decreasing_by exact weight_step_lt h

@[simp] theorem rest_complete (s : Scan) : s.complete.rest = [] := by
  induction s using induction_steps with
  | done s h => rw [complete_of_rest_eq_nil h, h]
  | step s h ih => rw [← complete_step h, ih]

/-- The tokens and the faults of a scan, each in order. -/
def toScanned (s : Scan) : Scanned := ⟨s.tokens.reverse, s.faults.reverse⟩

/-! ## The same scan in another text -/

/-- The scan with its lines numbered otherwise and with `more` behind its text. -/
def transfer (g : Nat → Nat) (more : List Char) (s : Scan) : Scan :=
  { s with
    rest := s.rest ++ more
    position := s.position.renumber g
    tokens := s.tokens.map (Token.renumber g)
    brackets := s.brackets.map fun (pair, position) => (pair, position.renumber g)
    faults := s.faults.map fun (position, fault) => (position.renumber g, fault) }

/-- The lines from that of the scan on are numbered one after another. -/
def Counts (g : Nat → Nat) (s : Scan) : Prop := ∀ l, s.position.line ≤ l → g (l + 1) = g l + 1

theorem move_transfer (hg : Counts g s) (h : taken <+: s.rest) :
    (s.transfer g more).move taken = (s.move taken).transfer g more := by
  unfold move transfer
  rw [drop_append_of_le_length h.length_le, Position.renumber_after _ _ hg]

@[simp] theorem reportAll_transfer (faults : List (Nat × LexicalFault)) :
    (s.transfer g more).reportAll faults = (s.reportAll faults).transfer g more := by
  unfold reportAll transfer
  simp [Position.renumber, Position.right, Function.comp_def]

theorem emitDedents_transfer (position : Position) (n : Nat) :
    (s.transfer g more).emitDedents (position.renumber g) n
      = (s.emitDedents position n).transfer g more := by
  unfold emitDedents transfer
  simp [Token.renumber]

@[simp] theorem lastIsNot_transfer (kinds : List Kind) :
    (s.transfer g more).lastIsNot kinds = s.lastIsNot kinds := by
  unfold lastIsNot transfer
  cases s.tokens <;> rfl

@[simp] theorem closeTo_transfer (width : Nat) :
    (s.transfer g more).closeTo width = (s.closeTo width).transfer g more :=
  emitDedents_transfer (s := { s with levels := s.levels.dropWhile (· > width) }) s.position _

@[simp] theorem indentTo_transfer (width : Nat) (sound : Bool) :
    (s.transfer g more).indentTo width sound = (s.indentTo width sound).transfer g more := by
  have hlevel : ∀ s : Scan, (s.transfer g more).level = s.level := fun _ => rfl
  unfold indentTo
  rw [hlevel, closeTo_transfer]
  dsimp only
  rw [hlevel]
  split
  · rfl
  · split <;> rfl

theorem passMargin_transfer (hg : Counts g s) (h : margin <+: s.rest) :
    (s.transfer g more).passMargin margin = (s.passMargin margin).transfer g more := by
  have hmixed : (s.transfer g more).isMixed margin = s.isMixed margin := rfl
  unfold passMargin
  rw [move_transfer hg h, hmixed]
  dsimp only
  split <;> rfl

theorem leaveMargin_transfer (hg : Counts g s) (h : margin <+: s.rest) :
    (s.transfer g more).leaveMargin margin = (s.leaveMargin margin).transfer g more := by
  rw [leaveMargin, passMargin_transfer hg h, indentTo_transfer]
  rfl

/-- A margin is taken alike in the other text. -/
theorem takeMargin_transfer (hg : Counts g s) (hmore : more = [] ∨ '\n' ∈ s.rest) :
    (s.transfer g more).takeMargin = s.takeMargin.transfer g more := by
  have hleads := leads_margin s
  have hread : (s.rest ++ more).takeWhile isMargin = s.rest.takeWhile isMargin ∧
      emptyLine? ((s.rest ++ more).drop (s.rest.takeWhile isMargin).length)
        = emptyLine? (s.rest.drop (s.rest.takeWhile isMargin).length) := by
    rcases hmore with rfl | hline
    · rw [append_nil]
      exact ⟨rfl, rfl⟩
    · rw [Cut.takeWhile_append isMargin_newline hline, hleads.drop_append,
        emptyLine?_append (hleads.mem_drop hline)]
      exact ⟨rfl, rfl⟩
  have hrest : (s.transfer g more).rest = s.rest ++ more := rfl
  unfold takeMargin
  dsimp only
  rw [hrest, hread.1, hread.2]
  split
  · next line hline => exact move_transfer hg ⟨_, (takes_emptyLine hline).rest.symm⟩
  · exact leaveMargin_transfer hg hleads.1

theorem trackBrackets_transfer (kind : Kind) (position : Position) :
    (s.transfer g more).trackBrackets kind (position.renumber g)
      = (s.trackBrackets kind position).transfer g more := by
  have hbrackets : (s.transfer g more).brackets
    = s.brackets.map fun (pair, position) => (pair, position.renumber g) := rfl
  unfold trackBrackets
  rw [hbrackets]
  split
  · rfl
  · next pair =>
    cases s.brackets with
    | nil => rfl
    | cons bracket outer =>
      obtain ⟨inner, place⟩ := bracket
      by_cases hpair : inner = pair
      · simp only [map_cons, if_pos hpair]
        rfl
      · simp only [map_cons, if_neg hpair]
        rfl
  · rfl

@[simp] theorem addToken_transfer (kind : Kind) (lexeme : List Char) (literal : Option Literal) :
    (s.transfer g more).addToken kind lexeme literal
      = (s.addToken kind lexeme literal).transfer g more := by
  have hposition : (s.transfer g more).position = s.position.renumber g := rfl
  rw [addToken, hposition, trackBrackets_transfer]
  rfl

theorem breakLine_transfer (position : Position) :
    (s.transfer g more).breakLine (position.renumber g)
      = (s.breakLine position).transfer g more := by
  have hempty : (s.transfer g more).brackets.isEmpty = s.brackets.isEmpty := isEmpty_map
  unfold breakLine
  rw [hempty, lastIsNot_transfer, lastIsNot_transfer]
  split
  · dsimp only
    split <;> rfl
  · split <;> rfl

/-- So is a piece. -/
theorem takePiece_transfer (hg : Counts g s) (hmore : more = [] ∨ '\n' ∈ s.rest) :
    (s.transfer g more).takePiece = s.takePiece.transfer g more := by
  have hrest : (s.transfer g more).rest = s.rest ++ more := rfl
  have hposition : (s.transfer g more).position = s.position.renumber g := rfl
  by_cases hnil : s.rest = []
  · have hmore : more = [] := hmore.resolve_right (hnil ▸ not_mem_nil)
    rw [takePiece, takePiece, hrest, hnil, hmore]
    rfl
  · obtain ⟨c, text, htext⟩ := exists_cons_of_ne_nil hnil
    have hcut : cut c (text ++ more) = cut c text := by
      rcases hmore with rfl | hline
      · rw [append_nil]
      · exact cut_append (htext ▸ hline) more
    have htaken : (cut c text).taken <+: s.rest := htext ▸ cut_prefix c text
    rw [takePiece, takePiece, hrest, htext]
    dsimp only [cons_append]
    rw [hcut, reportAll_transfer, hposition]
    split
    · exact move_transfer (s := s.reportAll _) hg htaken
    · rw [move_transfer (s := s.reportAll _) hg htaken, breakLine_transfer]
    · next kind lexeme literal _ =>
      rw [addToken_transfer]
      refine move_transfer ?_ ?_
      · rw [Counts, addToken_position]
        exact hg
      · rw [addToken_rest]
        exact htaken

/-- **A step does the same in another text.** -/
theorem step_transfer (hg : Counts g s) (hmore : more = [] ∨ '\n' ∈ s.rest) :
    (s.transfer g more).step = s.step.transfer g more := by
  have hmargin : (s.transfer g more).atMargin = s.atMargin := rfl
  unfold step
  rw [hmargin]
  split
  · exact takeMargin_transfer hg hmore
  · exact takePiece_transfer hg hmore

theorem Counts.step (hg : Counts g s) (h : s.rest ≠ []) : Counts g s.step := by
  intro l hl
  exact hg l (Nat.le_trans (line_le_step h) hl)

/-- A text that ends with its last line. -/
def WholeLines (text : List Char) : Prop := text = [] ∨ text.getLast? = some '\n'

theorem WholeLines.mem (h : WholeLines text) (hne : text ≠ []) : '\n' ∈ text :=
  mem_of_getLast? (h.resolve_left hne)

theorem WholeLines.step (h : WholeLines s.rest) (hne : s.rest ≠ []) : WholeLines s.step.rest := by
  obtain ⟨taken, htakes, -⟩ := takes_step hne
  by_cases hnil : s.step.rest = []
  · exact .inl hnil
  · have hlast := h.resolve_left hne
    rw [htakes.rest, getLast?_append, getLast?_eq_some_getLast hnil, Option.some_or] at hlast
    exact .inr ((getLast?_eq_some_getLast hnil).trans hlast)

/-- **A scan does the same in another text**, up to the end of its own if that ends a line. -/
theorem complete_transfer (hg : Counts g s) (hmore : more = [] ∨ WholeLines s.rest) :
    (s.transfer g more).complete = (s.complete.transfer g more).complete := by
  induction s using induction_steps with
  | done s h => rw [complete_of_rest_eq_nil h]
  | step s h ih =>
    have hline : more = [] ∨ '\n' ∈ s.rest := hmore.imp_right fun hlines => hlines.mem h
    have hne : (s.transfer g more).rest ≠ [] := append_ne_nil_of_left_ne_nil h more
    rw [← complete_step hne, step_transfer hg hline, ← complete_step h]
    exact ih (hg.step h) (hmore.imp_right fun hlines => hlines.step h)

@[simp] theorem reportOpen_transfer :
    (s.transfer g more).reportOpen = s.reportOpen.transfer g more := by
  unfold reportOpen transfer
  simp [Function.comp_def]

@[simp] theorem finish_transfer : (s.transfer g more).finish = s.finish.transfer g more := by
  unfold finish
  dsimp only
  rw [reportOpen_transfer, lastIsNot_transfer]
  split <;> simp [transfer, emit, emitDedents, Token.renumber, Position.renumber]

theorem transfer_id (s : Scan) (more : List Char) :
    s.transfer id more = { s with rest := s.rest ++ more } := by
  have htoken : Token.renumber id = id := rfl
  unfold transfer
  rw [htoken]
  simp [Position.renumber]

end Token.Scan

theorem Token.scan_eq (text : List Char) :
    scan text = (Scan.start text).complete.finish.toScanned := by
  have hrun : Scan.run (2 * text.length + 1) (Scan.start text) = (Scan.start text).complete :=
    Scan.run_eq_of_le (Nat.le_refl _) (Nat.le_refl _)
  rw [scan, hrun]
  rfl

end Offside
