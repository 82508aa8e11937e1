import Offside.Proofs.Balance
import Offside.Proofs.BlankLines
import Offside.Proofs.Context

/-!
# Proofs/Concatenation — the tokens of one text behind another

A scan that goes on behind whole lines adds the tokens that it would find by itself (`Above`), if no
bracket and no block is left open there.  A line that is not indented closes the blocks that are
open, so it can follow whole lines even if they leave blocks open.  Places are left out (`bare`),
and so are faults: see `Proofs/Margins`.
-/

namespace Offside.Token

open List Scan

variable {text : List Char}

namespace Scan

variable {s s' : Scan} {base : List Token}

/-! ## One scan above the tokens of another -/

/-- The same scan, above tokens that were there before it. -/
structure Above (base : List Token) (s s' : Scan) : Prop where
  rest : s'.rest = s.rest
  atMargin : s'.atMargin = s.atMargin
  tokens : s'.tokens.map bare = (s.tokens ++ base).map bare
  brackets : s'.brackets.map (·.1) = s.brackets.map (·.1)
  levels : s'.levels = s.levels
  /-- A bracket that is open is among the tokens. -/
  opened : s.brackets ≠ [] → s.tokens ≠ []

/-- A line break behind these tokens adds nothing. -/
def Quiet (tokens : List Token) : Prop := ∀ t ∈ tokens.head?, t.kind = .newline

theorem quiet_iff : Quiet s.tokens ↔ s.lastIsNot [.newline] = false := by
  unfold Quiet lastIsNot
  cases s.tokens <;> simp

theorem exists_indentTo_eq {width} (sound : Bool) (h : ¬ width > s.level) :
    ∃ faults, s.indentTo width sound = { s.closeTo width with faults } := by
  rw [indentTo, if_neg h]
  dsimp only
  split <;> exact ⟨_, rfl⟩

theorem exists_passMargin_eq (s : Scan) (margin : List Char) : ∃ faults, s.passMargin margin =
    { s.move margin with
      atMargin := false, margin := s.margin <|> marginChar? margin, faults := faults } := by
  unfold passMargin
  dsimp only
  split <;> exact ⟨_, rfl⟩

/-- Where a line is not indented all blocks are closed. -/
theorem leaveMargin_nil (h : ∀ width ∈ s.levels, 0 < width) : s.leaveMargin [] = { s with
      atMargin := false
      tokens := replicate s.levels.length ⟨.dedent, "", none, s.position⟩ ++ s.tokens
      levels := [] } := by
  have hall : ∀ width ∈ s.levels, decide (width > 0) = true := fun width hwidth =>
    decide_eq_true (h width hwidth)
  have hpass : s.passMargin [] = { s with atMargin := false } := by
    have hmargin : (s.margin <|> marginChar? []) = s.margin := by
      cases s.margin <;> rfl
    rw [passMargin, hmargin]
    rfl
  have hclose : ({ s with atMargin := false } : Scan).closeTo 0 = { s with
      atMargin := false
      tokens := replicate s.levels.length ⟨.dedent, "", none, s.position⟩ ++ s.tokens
      levels := [] } := by
    simp only [closeTo, emitDedents, takeWhile_eq_self_iff.mpr hall, dropWhile_eq_nil_iff.mpr hall]
  rw [leaveMargin, hpass, length_nil, indentTo, if_neg (Nat.not_lt_zero _)]
  dsimp only
  rw [hclose]
  rfl

theorem exists_trackBrackets_eq (s : Scan) (kind : Kind) (position : Position) :
    ∃ faults, s.trackBrackets kind position =
      { s with brackets := (s.trackBrackets kind position).brackets, faults := faults } := by
  unfold trackBrackets
  split
  · exact ⟨_, rfl⟩
  · split
    · split <;> exact ⟨_, rfl⟩
    · exact ⟨_, rfl⟩
  · exact ⟨_, rfl⟩

/-- No line break but the last is left further on. -/
theorem notMem_dropLast_step (hne : s.rest ≠ []) (h : '\n' ∉ s.rest.dropLast) :
    '\n' ∉ s.step.rest.dropLast := by
  obtain ⟨taken, htakes, -⟩ := takes_step hne
  by_cases hnil : s.step.rest = []
  · rw [hnil]
    exact not_mem_nil
  · rw [htakes.rest, dropLast_append_of_ne_nil hnil] at h
    exact fun hmem => h (mem_append_right taken hmem)

/-- The line break at the end of a single line ends the scan. -/
theorem complete_of_newline (hrest : s.rest = '\n' :: text) (hline : '\n' ∉ s.rest.dropLast) :
    ((s.move ['\n']).breakLine s.position).complete = (s.move ['\n']).breakLine s.position := by
  obtain rfl : text = [] := by
    by_contra htext
    rw [hrest, dropLast_cons_of_ne_nil htext] at hline
    exact hline mem_cons_self
  refine complete_of_rest_eq_nil ?_
  rw [breakLine_frame rest fun _ _ _ => rfl, move, hrest]
  rfl

/-- Before the first token it adds nothing. -/
theorem tokens_breakLine_of_nil (h : s.tokens = []) (position : Position) :
    (s.breakLine position).tokens = [] := by
  have hlast : ∀ kinds, s.lastIsNot kinds = false := by
    intro kinds
    rw [lastIsNot, h]
  rw [breakLine, hlast, hlast]
  split <;> exact h

namespace Above

variable (h : Above base s s')
include h

/-- Whether a line break is added depends on the newest token. -/
theorem lastIsNot_of_ne_nil (hne : s.tokens ≠ []) {kinds} :
    s'.lastIsNot kinds = s.lastIsNot kinds := by
  have htokens := h.tokens
  obtain ⟨t, later, hs⟩ := exists_cons_of_ne_nil hne
  rw [hs] at htokens
  obtain ⟨t', later', hs', ht', -⟩ := map_eq_cons_iff.mp htokens
  unfold lastIsNot
  rw [hs, hs']
  simp only [kind_of_bare_eq ht']

theorem lastIsNot {kinds} (hkinds : .newline ∈ kinds) (hquiet : s.tokens = [] → Quiet base) :
    s'.lastIsNot kinds = s.lastIsNot kinds := by
  have htokens := h.tokens
  unfold Scan.lastIsNot
  cases hs : s.tokens with
  | nil =>
    have hbase := hquiet hs
    rw [hs, nil_append] at htokens
    cases hs' : s'.tokens with
    | nil => rfl
    | cons t' later' =>
      rw [hs'] at htokens
      obtain ⟨t, later, rfl, ht, -⟩ := map_eq_cons_iff.mp htokens.symm
      have hkind : t'.kind = .newline := (kind_of_bare_eq ht.symm).trans (hbase t rfl)
      simp [hkind, hkinds]
  | cons t later =>
    have hne : s'.lastIsNot kinds = s.lastIsNot kinds :=
      h.lastIsNot_of_ne_nil (hs ▸ cons_ne_nil t later)
    unfold Scan.lastIsNot at hne
    rwa [hs] at hne

theorem move (taken : List Char) : Above base (s.move taken) (s'.move taken) :=
  ⟨congrArg (drop _) h.rest, h.atMargin, h.tokens, h.brackets, h.levels, h.opened⟩

/-- A token of the same form is added to both. -/
theorem tokens_cons {t t'} (ht : t'.bare = t.bare) :
    (t' :: s'.tokens).map bare = (t :: s.tokens ++ base).map bare := by
  rw [cons_append, map_cons, map_cons, h.tokens, ht]

theorem closeTo (width : Nat) : Above base (s.closeTo width) (s'.closeTo width) := by
  refine ⟨h.rest, h.atMargin, ?_, h.brackets, congrArg (List.dropWhile _) h.levels, fun hopen => ?_⟩
  · simp only [Scan.closeTo, emitDedents, h.levels, List.append_assoc, List.map_append,
      List.map_replicate]
    rw [h.tokens, List.map_append]
    rfl
  · exact List.append_ne_nil_of_right_ne_nil _ (h.opened hopen)

/-- Faults make no difference. -/
theorem withFaults (faults faults' : List (Position × LexicalFault)) :
    Above base { s with faults } { s' with faults := faults' } :=
  ⟨h.rest, h.atMargin, h.tokens, h.brackets, h.levels, h.opened⟩

theorem indentTo (width : Nat) (sound sound' : Bool) :
    Above base (s.indentTo width sound) (s'.indentTo width sound') := by
  have hlevel : s'.level = s.level := congrArg (headD · 0) h.levels
  by_cases hwidth : width > s.level
  · rw [Scan.indentTo, Scan.indentTo, hlevel, if_pos hwidth, if_pos hwidth]
    exact ⟨h.rest, h.atMargin, h.tokens_cons rfl, h.brackets, congrArg (width :: ·) h.levels,
      fun _ => cons_ne_nil _ _⟩
  · obtain ⟨faults, heq⟩ := exists_indentTo_eq sound hwidth
    obtain ⟨faults', heq'⟩ := exists_indentTo_eq sound' (hlevel ▸ hwidth)
    rw [heq, heq']
    exact (h.closeTo width).withFaults faults faults'

theorem leaveMargin (margin : List Char) :
    Above base (s.leaveMargin margin) (s'.leaveMargin margin) := by
  refine indentTo ?_ _ _ _
  obtain ⟨faults, heq⟩ := exists_passMargin_eq s margin
  obtain ⟨faults', heq'⟩ := exists_passMargin_eq s' margin
  have hmove := h.move margin
  rw [heq, heq']
  exact ⟨hmove.rest, rfl, hmove.tokens, hmove.brackets, hmove.levels, hmove.opened⟩

theorem breakLine (hquiet : s.tokens = [] → Quiet base)
    (p p' : Position) : Above base (s.breakLine p) (s'.breakLine p') := by
  have hempty : s'.brackets.isEmpty = s.brackets.isEmpty := by
    rw [← isEmpty_map (f := (·.1)), h.brackets, isEmpty_map]
  unfold Scan.breakLine
  rw [hempty]
  by_cases hopen : s.brackets.isEmpty = true
  · rw [if_pos hopen, if_pos hopen]
    dsimp only
    rw [h.lastIsNot (by simp) hquiet]
    split
    · exact ⟨h.rest, rfl, h.tokens_cons rfl, h.brackets, h.levels, fun _ => cons_ne_nil _ _⟩
    · exact ⟨h.rest, rfl, h.tokens, h.brackets, h.levels, h.opened⟩
  · have hne := h.opened fun hnil => hopen (isEmpty_iff.mpr hnil)
    rw [if_neg hopen, if_neg hopen, h.lastIsNot_of_ne_nil hne]
    split
    · exact ⟨h.rest, h.atMargin, h.tokens_cons rfl, h.brackets, h.levels, fun _ => cons_ne_nil _ _⟩
    · exact h

omit h

/-- Of brackets only the pair counts. -/
theorem brackets_trackBrackets (h : s'.brackets.map (·.1) = s.brackets.map (·.1)) (kind : Kind)
    (p p' : Position) : (s'.trackBrackets kind p').brackets.map (·.1)
      = (s.trackBrackets kind p).brackets.map (·.1) := by
  unfold trackBrackets
  split
  · next pair => exact congrArg (pair :: ·) h
  · next pair =>
    have hsame := h
    cases hs : s.brackets with
    | nil =>
      rw [hs] at hsame
      rw [map_eq_nil_iff.mp hsame]
      exact h
    | cons bracket outer =>
      rw [hs] at hsame
      obtain ⟨bracket', outer', hs', hpair, houter⟩ := map_eq_cons_iff.mp hsame
      rw [hs']
      dsimp only at hpair ⊢
      rw [hpair]
      split
      · exact houter
      · exact h
  · exact h

include h

theorem addToken (kind : Kind) (lexeme : List Char) (literal : Option Literal) :
    Above base (s.addToken kind lexeme literal) (s'.addToken kind lexeme literal) := by
  have hbrackets := brackets_trackBrackets h.brackets kind s.position s'.position
  obtain ⟨faults, heq⟩ := exists_trackBrackets_eq s kind s.position
  obtain ⟨faults', heq'⟩ := exists_trackBrackets_eq s' kind s'.position
  rw [Scan.addToken, Scan.addToken, heq, heq']
  exact ⟨h.rest, h.atMargin, h.tokens_cons rfl, hbrackets, h.levels, fun _ => cons_ne_nil _ _⟩

theorem takePiece {c} (hc : c ≠ '\n') (hrest : s.rest = c :: text) :
    Above base s.takePiece s'.takePiece := by
  rw [Scan.takePiece, Scan.takePiece, h.rest, hrest]
  dsimp only
  split
  · exact (h.withFaults _ _).move _
  · next hpiece => exact absurd hpiece (onLine_cut hc text).piece_ne
  · next kind lexeme literal _ => exact ((h.withFaults _ _).addToken kind lexeme literal).move _

/-- **A step does the same above other tokens**, unless it is a line break before the first token
that would add one there. -/
theorem step (hne : s.rest ≠ [])
    (hquiet : ∀ text, s.rest = '\n' :: text → s.step = (s.move ['\n']).breakLine s.position →
      s.tokens = [] → Quiet base) : Above base s.step s'.step := by
  rcases step_cases hne with ⟨hmargin, line, hline, hstep⟩ | ⟨hmargin, hline, hstep⟩ |
    ⟨hmargin, text, hrest, hstep⟩ | ⟨hmargin, c, text, hc, hrest, hstep⟩
  · rw [hstep, Scan.step, h.atMargin, hmargin, if_pos rfl, takeMargin, h.rest, hline]
    exact h.move _
  · rw [hstep, Scan.step, h.atMargin, hmargin, if_pos rfl, takeMargin, h.rest, hline]
    exact h.leaveMargin _
  · rw [hstep, Scan.step, h.atMargin, hmargin, if_neg Bool.false_ne_true,
      takePiece_newline (h.rest.trans hrest)]
    exact (h.move _).breakLine (hquiet text hrest hstep) _ _
  · rw [hstep, Scan.step, h.atMargin, hmargin, if_neg Bool.false_ne_true]
    exact h.takePiece hc hrest

omit h

/-- **A scan does the same above other tokens**, if a line break adds nothing behind them, or if it
is over a single line with a token.  What steps keep then is kept by the whole scan. -/
theorem complete_of_step {R : Scan → Scan → Prop}
    (hstep : ∀ {s s' : Scan}, Above base s s' → s.rest ≠ [] → R s s' → R s.step s'.step)
    (h : Above base s s') (hR : R s s')
    (hquiet : Quiet base ∨ '\n' ∉ s.rest.dropLast ∧ s.complete.tokens ≠ []) :
    Above base s.complete s'.complete ∧ R s.complete s'.complete := by
  induction s using induction_steps generalizing s' with
  | done s hrest =>
    rw [complete_of_rest_eq_nil hrest, complete_of_rest_eq_nil (h.rest.trans hrest)]
    exact ⟨h, hR⟩
  | step s hrest ih =>
    have hrest' : s'.rest ≠ [] := h.rest ▸ hrest
    rw [← complete_step hrest] at hquiet ⊢
    rw [← complete_step hrest']
    refine ih (h.step hrest fun text htext hbreak htokens => ?_) (hstep h hrest hR)
      (hquiet.imp_right fun hline => ⟨notMem_dropLast_step hrest hline.1, hline.2⟩)
    refine hquiet.elim id fun hline => absurd ?_ hline.2
    rw [hbreak, complete_of_newline htext hline.1]
    exact tokens_breakLine_of_nil (s := s.move ['\n']) htokens _

include h in
theorem complete (hquiet : Quiet base ∨ '\n' ∉ s.rest.dropLast ∧ s.complete.tokens ≠ []) :
    Above base s.complete s'.complete :=
  (complete_of_step (R := fun _ _ => True) (fun _ _ _ => trivial) h trivial hquiet).1

end Above

/-! ## A single line -/

/-- The tokens of a single line, newest first. -/
def LineTokens (tokens : List Token) : Prop :=
  ∃ last body, tokens = last :: body ∧ last.kind = .newline ∧ ∀ t ∈ body, t.kind ∉ Cursor.breakKinds

theorem kind_notMem_takePiece {c} (hc : c ≠ '\n') (hrest : s.rest = c :: text)
    (h : ∀ t ∈ s.tokens, t.kind ∉ Cursor.breakKinds) :
    ∀ t ∈ s.takePiece.tokens, t.kind ∉ Cursor.breakKinds := by
  rw [takePiece, hrest]
  dsimp only
  split
  · exact h
  · next hpiece => exact absurd hpiece (onLine_cut hc text).piece_ne
  · next kind lexeme literal hpiece =>
    have htokens : ((s.reportAll (cut c text).faults).trackBrackets kind s.position).tokens
        = s.tokens := trackBrackets_frame tokens (fun _ _ _ => rfl) _ _ _
    have hlayout : Cursor.breakKinds ⊆ layoutKinds := by decide
    exact forall_mem_cons.mpr ⟨fun hmem => cut_notMem_layoutKinds hpiece (hlayout hmem),
      htokens ▸ h⟩

theorem lineTokens_breakLine (h : ∀ t ∈ s.tokens, t.kind ∉ Cursor.breakKinds) (position : Position)
    (hclosed : (s.breakLine position).brackets = []) :
    (s.breakLine position).tokens = [] ∨ LineTokens (s.breakLine position).tokens := by
  rw [breakLine_frame brackets fun _ _ _ => rfl] at hclosed
  rw [breakLine, hclosed, isEmpty_nil, if_pos rfl]
  dsimp only
  cases htokens : s.tokens with
  | nil =>
    rw [lastIsNot, htokens]
    exact .inl rfl
  | cons t later =>
    have hkind : t.kind ≠ .newline := fun hkind =>
      h t (htokens ▸ mem_cons_self) (hkind ▸ by decide)
    have hlast : s.lastIsNot [.newline] = true := by simp [lastIsNot, htokens, hkind]
    rw [if_pos hlast]
    exact .inr ⟨⟨.newline, "\n", none, position⟩, t :: later, rfl, rfl, htokens ▸ h⟩

/-- **A scan behind the margin of a single line leaves blocks and margin as they are**, and finds
the tokens of a line. -/
theorem complete_line (hmargin : s.atMargin = false) (hwhole : WholeLines s.rest)
    (hne : s.rest ≠ []) (hline : '\n' ∉ s.rest.dropLast)
    (htokens : ∀ t ∈ s.tokens, t.kind ∉ Cursor.breakKinds) :
    s.complete.levels = s.levels ∧ s.complete.margin = s.margin ∧
      (s.complete.brackets = [] → s.complete.tokens = [] ∨ LineTokens s.complete.tokens) := by
  induction s using induction_steps with
  | done s hrest => exact absurd hrest hne
  | step s _ ih =>
    rw [← complete_step hne]
    rcases step_cases hne with ⟨htrue, -⟩ | ⟨htrue, -⟩ | ⟨-, text, hrest, hstep⟩ |
      ⟨-, c, text, hc, hrest, hstep⟩
    · cases hmargin.symm.trans htrue
    · cases hmargin.symm.trans htrue
    · rw [hstep, complete_of_newline hrest hline]
      exact ⟨breakLine_frame levels (fun _ _ _ => rfl) _ _,
        breakLine_frame margin (fun _ _ _ => rfl) _ _,
        lineTokens_breakLine (s := s.move ['\n']) htokens _⟩
    · have htakes := takes_piece hc hrest
      have hlevels : s.step.levels = s.levels := by
        rw [hstep, takePiece_frame levels (fun _ _ _ _ => rfl) hc hrest]
        rfl
      have hmark : s.step.margin = s.margin := by
        rw [hstep, takePiece_frame margin (fun _ _ _ _ => rfl) hc hrest]
        rfl
      have hleft : s.step.rest ≠ [] := by
        intro hnil
        rw [← hstep] at htakes
        have hmem := hwhole.mem hne
        rw [htakes.rest, hnil, append_nil] at hmem
        exact (onLine_cut hc text).leads.2 hmem
      rw [← hlevels, ← hmark]
      refine ih ?_ (hwhole.step hne) hleft (notMem_dropLast_step hne hline) ?_
      · rw [hstep, takePiece_frame atMargin (fun _ _ _ _ => rfl) hc hrest]
        exact hmargin
      · rw [hstep]
        exact kind_notMem_takePiece hc hrest htokens

/-- A line of text that is not indented. -/
structure Flush (text : List Char) : Prop where
  whole : text.getLast? = some '\n'
  single : '\n' ∉ text.dropLast
  margin : ∀ c ∈ text.head?, isMargin c = false

-- Told by the first character, not by a search through all characters.
instance (text : List Char) : Decidable (Flush text) :=
  decidable_of_iff
    (text.getLast? = some '\n' ∧ '\n' ∉ text.dropLast ∧ text.head?.all fun c => !isMargin c)
    ⟨fun h => ⟨h.1, h.2.1, by simpa [Option.all_eq_true] using h.2.2⟩,
      fun h => ⟨h.whole, h.single, by simpa [Option.all_eq_true] using h.margin⟩⟩

namespace Flush

variable (h : Flush text)
include h

theorem wholeLines : WholeLines text := .inr h.whole

theorem ne_nil : text ≠ [] := by
  rintro rfl
  cases h.whole

theorem takeWhile_isMargin : text.takeWhile isMargin = [] := by
  have hmargin := h.margin
  cases text with
  | nil => rfl
  | cons c later => exact takeWhile_cons_of_neg (by simp [hmargin c rfl])

/-- A line that is not indented is passed over, or it has no margin. -/
theorem step_eq (hmargin : s.atMargin = true) (hrest : s.rest = text) :
    s.step = if (emptyLine? text).isSome then s.move text else s.leaveMargin [] := by
  rw [step, hmargin, if_pos rfl, takeMargin, hrest, h.takeWhile_isMargin, length_nil, drop_zero]
  cases hline : emptyLine? text with
  | none => rfl
  | some line =>
    suffices hall : line = text by
      rw [hall]
      rfl
    rcases emptyLine?_cases hline with ⟨hline, -⟩ | ⟨before, rest, rfl, htext, -⟩
    · exact hline
    · -- Behind the line break nothing is left.
      by_cases hnil : rest = []
      · rw [htext, hnil, append_nil]
      · refine absurd ?_ h.single
        rw [htext, dropLast_append_of_ne_nil hnil]
        simp

/-- **A line that is not indented leaves no block open.** -/
theorem complete_start : (start text).complete.levels = [] ∧
    (start text).complete.margin = none ∧ ((start text).complete.brackets = [] →
      (start text).complete.tokens = [] ∨ LineTokens (start text).complete.tokens) := by
  have hne : (start text).rest ≠ [] := h.ne_nil
  rw [← complete_step hne, h.step_eq (s := start text) rfl rfl]
  split
  · rw [complete_of_rest_eq_nil drop_length]
    exact ⟨rfl, rfl, fun _ => .inl rfl⟩
  · rw [leaveMargin_nil (s := start text) (forall_mem_nil _)]
    exact complete_line rfl h.wholeLines hne h.single (forall_mem_nil _)

/-- A line with tokens is not passed over. -/
theorem emptyLine?_eq_none (htokens : (start text).complete.tokens ≠ []) :
    emptyLine? text = none := by
  by_contra hline
  refine htokens ?_
  have hne : (start text).rest ≠ [] := h.ne_nil
  rw [← complete_step hne, h.step_eq (s := start text) rfl rfl,
    if_pos (Option.isSome_iff_ne_none.mpr hline), complete_of_rest_eq_nil drop_length]
  rfl

end Flush

/-! ## Whole texts -/

/-- The tokens of a scan with those that its end adds, newest first. -/
def closed (s : Scan) : List Token :=
  replicate s.levels.length ⟨.dedent, "", none, ⟨s.position.line, 0⟩⟩ ++
    if s.lastIsNot [.newline, .dedent] then ⟨.newline, "\n", none, s.position⟩ :: s.tokens
    else s.tokens

@[simp] theorem tokens_finish (s : Scan) :
    s.finish.tokens = ⟨.eof, "", none, s.position⟩ :: s.closed := by
  have hlast : s.reportOpen.lastIsNot [.newline, .dedent] = s.lastIsNot [.newline, .dedent] := rfl
  unfold finish closed
  dsimp only
  rw [hlast]
  split <;> rfl

/-- In the end the newest token is a line break or closes a block. -/
theorem kind_head_closed : ∀ t ∈ s.closed.head?, t.kind = .newline ∨ t.kind = .dedent := by
  intro t ht
  rw [closed] at ht
  cases hlevels : s.levels with
  | cons width outer =>
    rw [hlevels] at ht
    cases ht
    exact .inr rfl
  | nil =>
    rw [hlevels, length_nil, replicate_zero, nil_append] at ht
    split at ht
    · cases ht
      exact .inl rfl
    · next hlast =>
      unfold lastIsNot at hlast
      cases htokens : s.tokens with
      | nil =>
        rw [htokens] at ht
        cases ht
      | cons u later =>
        rw [htokens] at ht hlast
        cases ht
        simpa [or_iff_not_imp_left] using hlast

theorem closed_of_quiet (h : Quiet s.tokens) : s.closed =
    replicate s.levels.length ⟨.dedent, "", none, ⟨s.position.line, 0⟩⟩ ++ s.tokens := by
  rw [closed, lastIsNot_newline_dedent (quiet_iff.mp h), if_neg Bool.false_ne_true]

theorem Above.closed (h : Above base s s') (hquiet : Quiet base) :
    s'.closed.map bare = (s.closed ++ base).map bare := by
  rw [Scan.closed, Scan.closed, h.lastIsNot (by simp) fun _ => hquiet, h.levels, List.map_append,
    List.append_assoc, List.map_append, List.map_replicate, List.map_replicate]
  refine congrArg₂ (· ++ ·) rfl ?_
  split
  · exact h.tokens_cons rfl
  · exact h.tokens

end Scan

/-- The tokens of a text without their places, and without the one that ends them. -/
def bareTokens (text : List Char) : List Token := (scan text).tokens.dropLast.map bare

theorem bareTokens_eq (text : List Char) :
    bareTokens text = ((start text).complete.closed.map bare).reverse := by
  simp [bareTokens, scan_eq, toScanned, map_reverse]

/-- Whole lines that leave no bracket open. -/
structure ClosedLines (text : List Char) : Prop where
  lines : WholeLines text
  brackets : (start text).complete.brackets = []

/-- Faults are found on the way or are brackets that are left open. -/
theorem faults_scan_eq_nil (text : List Char) : (scan text).faults = [] ↔
    (start text).complete.faults = [] ∧ (start text).complete.brackets = [] := by
  have hlength := length_faults_finish (start text).complete
  rw [scan_eq, toScanned, reverse_eq_nil_iff, ← length_eq_zero_iff, hlength,
    Nat.add_eq_zero_iff, length_eq_zero_iff, length_eq_zero_iff]

namespace ClosedLines

variable {before line : List Char}

theorem of_clean (hlines : WholeLines text) (hclean : (scan text).faults = []) : ClosedLines text :=
  ⟨hlines, ((faults_scan_eq_nil text).mp hclean).2⟩

variable (h : ClosedLines before)
include h

/-- Behind them the scan waits for a margin. -/
theorem atMargin : (start before).complete.atMargin = true ∧
    Scan.Quiet (Scan.start before).complete.tokens := by
  rcases (lineStart_of_wholeLines h.lines).betweenLines with ⟨hmargin, -, hlast⟩ | ⟨-, hopen, -⟩
  · exact ⟨hmargin, quiet_iff.mpr hlast⟩
  · exact absurd h.brackets hopen

variable (hlevels : (start before).complete.levels = [])
include hlevels

theorem bareTokens_of_levels :
    bareTokens before = ((Scan.start before).complete.tokens.map bare).reverse := by
  rw [bareTokens_eq, closed_of_quiet h.atMargin.2, hlevels]
  rfl

/-- Behind lines that leave nothing open a text is scanned above their tokens. -/
theorem above_start (after : List Char) : Above (start before).complete.tokens (.start after)
      ((start before).complete.reading after) :=
  ⟨rfl, h.atMargin.1, rfl, congrArg _ h.brackets, hlevels, fun hopen => absurd rfl hopen⟩

/-- **Behind lines that leave nothing open a text has its own tokens.** -/
theorem bareTokens_append (after : List Char) :
    bareTokens (before ++ after) = bareTokens before ++ bareTokens after := by
  have hquiet := h.atMargin.2
  have hclosed := ((h.above_start hlevels after).complete (.inl hquiet)).closed hquiet
  rw [bareTokens_eq, complete_append h.lines, hclosed, map_append, reverse_append,
    h.bareTokens_of_levels hlevels, bareTokens_eq]

omit h hlevels

theorem levels_pos (text : List Char) : ∀ width ∈ (start text).complete.levels, 0 < width := by
  have hascending := (levelled_run (start text).weight text).ascending
  rw [pairwise_widths, pairwise_append] at hascending
  exact fun width hwidth => hascending.2.2 width hwidth 0 (mem_singleton.mpr rfl)

include h

variable (hline : Flush line)
include hline

/-- A line that is not indented begins above the blocks that it closes. -/
theorem step_line (hnone : emptyLine? line = none) :
    (start line).step = { start line with atMargin := false } ∧
      ((start before).complete.reading line).step =
        { (start before).complete.reading line with
          atMargin := false
          tokens := replicate (start before).complete.levels.length
            ⟨.dedent, "", none, (start before).complete.position⟩ ++
              (start before).complete.tokens
          levels := [] } := by
  have hstep := hline.step_eq (s := .start line) rfl rfl
  have hstep' := hline.step_eq (s := (start before).complete.reading line) h.atMargin.1 rfl
  rw [hnone, Option.isSome_none, if_neg Bool.false_ne_true] at hstep hstep'
  rw [hstep, hstep', leaveMargin_nil (s := .start line) (forall_mem_nil _),
    leaveMargin_nil (s := (start before).complete.reading line) (levels_pos before)]
  exact ⟨rfl, rfl⟩

theorem above_step (hnone : emptyLine? line = none) : ∃ p, Above
      (replicate (start before).complete.levels.length ⟨.dedent, "", none, p⟩ ++
        (start before).complete.tokens)
      (start line).step ((start before).complete.reading line).step := by
  obtain ⟨hstep, hstep'⟩ := h.step_line hline hnone
  rw [hstep, hstep']
  exact ⟨_, rfl, rfl, rfl, congrArg _ h.brackets, rfl, fun hopen => absurd rfl hopen⟩

/-- It goes on above them. -/
theorem above_line (htokens : (start line).complete.tokens ≠ []) : ∃ p, Above
      (replicate (start before).complete.levels.length ⟨.dedent, "", none, p⟩ ++
        (start before).complete.tokens)
      (start line).complete (start (before ++ line)).complete := by
  have hne : (start line).rest ≠ [] := hline.ne_nil
  have hne' : ((start before).complete.reading line).rest ≠ [] := hline.ne_nil
  obtain ⟨p, habove⟩ := h.above_step hline (hline.emptyLine?_eq_none htokens)
  refine ⟨p, ?_⟩
  rw [← complete_step hne] at htokens ⊢
  rw [complete_append h.lines, ← complete_step hne']
  exact habove.complete (.inr ⟨notMem_dropLast_step hne hline.single, htokens⟩)

omit h hline

theorem tokens_ne_nil (h : ClosedLines line) (hline : Flush line)
    (htokens : bareTokens line ≠ []) : (start line).complete.tokens ≠ [] := by
  rw [h.bareTokens_of_levels hline.complete_start.1] at htokens
  exact fun hnil => htokens (by rw [hnil]; rfl)

include h

include hline

/-- A line that is not indented leaves nothing open. -/
theorem append_line (hclosed : ClosedLines line) (htokens : bareTokens line ≠ []) :
    ClosedLines (before ++ line) ∧ (Scan.start (before ++ line)).complete.levels = [] ∧
      bareTokens (before ++ line) = bareTokens before ++ bareTokens line := by
  have hlevels := hline.complete_start.1
  obtain ⟨p, habove⟩ := h.above_line hline (hclosed.tokens_ne_nil hline htokens)
  have hboth : ClosedLines (before ++ line) := by
    refine ⟨.inr ?_, ?_⟩
    · rw [List.getLast?_append, hline.whole]
      rfl
    · have hbrackets := habove.brackets
      rw [hclosed.brackets] at hbrackets
      exact List.map_eq_nil_iff.mp hbrackets
  have hlevels' := habove.levels.trans hlevels
  refine ⟨hboth, hlevels', ?_⟩
  rw [hboth.bareTokens_of_levels hlevels', hclosed.bareTokens_of_levels hlevels, bareTokens_eq,
    Scan.closed_of_quiet h.atMargin.2,
    habove.tokens, List.map_append, List.reverse_append, List.map_append, List.map_append,
    List.map_replicate, List.map_replicate]
  rfl

/-- **A line that is not indented keeps texts apart**: each of the three has its own tokens. -/
theorem bareTokens_around
    (hclosed : ClosedLines line) (htokens : bareTokens line ≠ []) (after : List Char) :
    bareTokens (before ++ line ++ after)
      = bareTokens before ++ (bareTokens line ++ bareTokens after) := by
  obtain ⟨hboth, hlevels, heq⟩ := h.append_line hline hclosed htokens
  rw [hboth.bareTokens_append hlevels, heq, append_assoc]

end ClosedLines

/-! ## The tokens of a text as they are left to a parser -/

theorem exists_bareTokens_eq (text : List Char) : ∃ body final,
    (scan text).tokens = body ++ [final] ∧ bareTokens text = body.map bare ∧ final.kind = .eof ∧
      (∀ t ∈ body, t.kind ≠ .eof) ∧ body.foldlM deepen 0 = some 0 := by
  obtain ⟨body, final, htokens, hfinal, hbody, hdepth⟩ := exists_balanced_scan text
  refine ⟨body, final, htokens, ?_, hfinal, hbody, hdepth⟩
  rw [bareTokens, htokens, dropLast_concat]

theorem closes_bareTokens (text : List Char) : Cursor.Closes 0 (bareTokens text) := by
  obtain ⟨body, final, -, heq, -, -, hdepth⟩ := exists_bareTokens_eq text
  rw [heq, Cursor.Closes, foldlM_map]
  exact hdepth

/-- The first token is no line break. -/
theorem grows_first : Grows fun tokens =>
    ∀ t ∈ tokens.getLast?, t.kind ∉ [.newline, .softNewline] where
  add := by
    intro t tokens hkind h
    cases tokens with
    | nil =>
      rintro u ⟨⟩
      exact hkind
    | cons last earlier => exact h
  behind := fun _ h => h

theorem behind_bareTokens (text : List Char) : Cursor.Behind (bareTokens text) := by
  obtain ⟨body, final, htokens, heq, -, hbody, -⟩ := exists_bareTokens_eq text
  refine ⟨fun t ht => ?_, fun t ht => ?_⟩
  · rw [heq] at ht
    obtain ⟨u, hu, rfl⟩ := mem_map.mp ht
    exact hbody u hu
  · have hfirst := grows_first.scan (by simp) text
    rw [getLast?_reverse, htokens] at hfirst
    rw [heq] at ht
    cases body with
    | nil => cases ht
    | cons u later =>
      cases ht
      have hkind := hfirst u rfl
      rw [mem_cons, mem_singleton, not_or] at hkind
      exact hkind

theorem broken_bareTokens (text : List Char) : Cursor.Broken (bareTokens text) := by
  intro t ht
  rw [bareTokens_eq, getLast?_reverse, head?_map] at ht
  obtain ⟨u, hu, rfl⟩ := Option.map_eq_some_iff.mp ht
  exact kind_head_closed u hu

/-- The tokens of a line that is not indented. -/
theorem Scan.Flush.line (h : Flush text) (hclosed : ClosedLines text)
    (htokens : bareTokens text ≠ []) : Cursor.Line (bareTokens text) := by
  obtain ⟨hlevels, -, hcases⟩ := h.complete_start
  obtain ⟨last, body, heq, hlast, hbody⟩ :=
    (hcases hclosed.brackets).resolve_left (hclosed.tokens_ne_nil h htokens)
  rw [hclosed.bareTokens_of_levels hlevels]
  rw [heq, map_cons, reverse_cons]
  refine ⟨_, _, rfl, hlast, fun t ht => ?_⟩
  obtain ⟨u, hu, rfl⟩ := mem_map.mp (mem_reverse.mp ht)
  exact hbody u hu

end Offside.Token
